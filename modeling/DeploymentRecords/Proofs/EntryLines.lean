import DeploymentRecords.Proofs.WholeAddresses

/-! # Entries that begin lines

The scan of a block begins anew behind every comma. An entry that begins a line is therefore read for
what it is unless a field in front of it still waits for its comma: then this field takes the whole
entry as a part of its value, also where it stands in a comment. -/

namespace DeploymentRecords.SourceTable

open Text

/-- A field whose comma is still to come where the text ends. -/
structure OpenField (s : Text) where
  before : Text
  name : Text
  gap : Text
  value : Text
  split : s = before ++ (name ++ (gap ++ ':' :: value))
  apart : Stops isWord before.reverse
  name_field : isFieldName name = true
  name_word : ∀ c ∈ name, isWord c = true
  gap_blank : ∀ c ∈ gap, isBlank c = true
  unended : ',' ∉ value

structure FieldEntry where
  lead : Text
  name : Text
  gap : Text
  value : Text
  lead_blank : ∀ c ∈ lead, isBlank c = true
  name_field : isFieldName name = true
  name_word : ∀ c ∈ name, isWord c = true
  gap_blank : ∀ c ∈ gap, isBlank c = true
  value_ne_nil : value ≠ []
  value_comma : ',' ∉ value

namespace FieldEntry

def body (e : FieldEntry) : Text := e.lead ++ (e.name ++ (e.gap ++ ':' :: e.value))

def text (e : FieldEntry) : Text := e.body ++ [',']

end FieldEntry

variable {a s u v w : Text}

theorem comma_not_mem_of_blank (h : ∀ c ∈ a, isBlank c = true) : ',' ∉ a :=
  fun hmem => absurd (h ',' hmem) (by decide)

theorem comma_not_mem_of_word (h : ∀ c ∈ a, isWord c = true) : ',' ∉ a := by
  intro hmem
  have hcomma : isWord ',' = false := isWord_ascii (by decide)
  rw [h ',' hmem] at hcomma
  cases hcomma

theorem exists_word_head {name : Text} (hfield : isFieldName name = true) (hword : ∀ c ∈ name, isWord c = true) :
    ∃ c rest, name = c :: rest ∧ isWord c = true := by
  cases name with
  | nil => exact absurd hfield (by decide)
  | cons c rest => exact ⟨c, rest, rfl, hword c List.mem_cons_self⟩

/-- A text without a comma in front of a comma ends at the first comma. -/
theorem split_at_comma {b t : Text} (ha : ',' ∉ a) (hv : ',' ∈ v) (h : v ++ t = a ++ ',' :: b) :
    ∃ y, v = a ++ ',' :: y ∧ b = y ++ t := by
  rcases List.append_eq_append_iff.mp h with ⟨x, rfl, -⟩ | ⟨x, rfl, hx⟩
  · exact absurd (List.mem_append_left x hv) ha
  · cases x with
    | nil => exact absurd (by simpa using hv) ha
    | cons c x =>
      obtain ⟨rfl, hb⟩ := List.cons.inj hx
      exact ⟨x, rfl, hb⟩

/-- A value is read up to the first comma, whatever follows. -/
theorem readValue?_append (h : ',' ∈ v) (t : Text) :
    readValue? (v ++ t) = (readValue? v).map fun (value, next) => (value, next ++ t) := by
  refine Option.ext fun (value, next) => ?_
  simp only [Option.map_eq_some_iff, Prod.exists, Prod.mk.injEq, readValue?_eq_some_iff]
  constructor
  · rintro ⟨gap, hgap, hsplit, hne, hcomma⟩
    have hquiet : ',' ∉ gap ++ ':' :: value := by
      simp [comma_not_mem_of_blank hgap, hcomma]
    have hassoc : gap ++ ':' :: (value ++ ',' :: next) = gap ++ ':' :: value ++ ',' :: next := by simp
    obtain ⟨y, rfl, rfl⟩ := split_at_comma hquiet h (hsplit.trans hassoc)
    exact ⟨value, y, ⟨gap, hgap, by simp, hne, hcomma⟩, rfl, rfl⟩
  · rintro ⟨value, next, ⟨gap, hgap, rfl, hne, hcomma⟩, rfl, rfl⟩
    exact ⟨gap, hgap, by simp, hne, hcomma⟩

/-- A text that leaves no field open: an empty one, or one that ends with a comma. -/
def Closed (a : Text) : Prop := a = [] ∨ a.getLast? = some ','

theorem Closed.comma_mem (h : Closed a) (hne : a ≠ []) : ',' ∈ a :=
  List.mem_of_getLast? (h.resolve_left hne)

theorem Closed.suffix {x : Text} (h : Closed (x ++ a)) : Closed a := by
  rcases List.eq_nil_or_concat a with rfl | ⟨a, c, rfl⟩
  · exact Or.inl rfl
  · rcases h with h | h
    · simp at h
    · exact Or.inr (by simpa using h)

/-- Behind a comma the scan begins anew. -/
theorem fields_append_closed (ha : Closed a) (t : Text) : fields (a ++ t) = fields a ++ fields t := by
  induction hn : a.length using Nat.strongRecOn generalizing a with
  | ind n ih =>
  subst hn
  rcases split_word a with hno | ⟨u, w, v, rfl, hu, hne, hw, hv⟩
  · rw [fields_append hno, fields_eq_nil hno, List.nil_append]
  have hpos := List.length_pos_iff.mpr hne
  have hbehind : ∀ x y, v = x ++ y → fields (y ++ t) = fields y ++ fields t := by
    rintro x y rfl
    have hclosed : Closed y := by
      rw [← List.append_assoc, ← List.append_assoc] at ha
      exact ha.suffix
    exact ih y.length (by simp only [List.length_append]; omega) hclosed rfl
  have hcomma : ',' ∈ v := by
    refine ha.suffix.suffix.comma_mem fun hnil => ?_
    rw [hnil, List.append_nil] at ha
    exact comma_not_mem_of_word hw (ha.suffix.comma_mem hne)
  have hstops := stops_append hv (List.ne_nil_of_mem hcomma) t
  rw [List.append_assoc, List.append_assoc, fields_word hu hne hw hstops, fields_word hu hne hw hv,
    fieldsFrom, fieldsFrom, readValue?_append hcomma]
  split
  · cases hread : readValue? v with
    | none => exact hbehind [] v rfl
    | some p =>
      obtain ⟨gap, -, hsplit, -⟩ := readValue?_eq_some_iff.mp (show readValue? v = some (p.1, p.2) from hread)
      have hnext := hbehind (gap ++ ':' :: (p.1 ++ [','])) p.2 (by rw [hsplit]; simp)
      simp only [Option.map_some, hnext, List.cons_append]
  · exact hbehind [] v rfl

theorem exists_closed_append (s : Text) : ∃ a t, s = a ++ t ∧ Closed a ∧ ',' ∉ t := by
  by_cases h : ',' ∈ s
  · obtain ⟨t, a, hs, ht⟩ := List.eq_append_cons_of_mem (List.mem_reverse.mpr h)
    have hsplit : s = a.reverse ++ [','] ++ t.reverse := by simpa using congrArg List.reverse hs
    exact ⟨a.reverse ++ [','], t.reverse, hsplit, Or.inr (by simp), by simpa using ht⟩
  · exact ⟨[], s, rfl, Or.inl rfl, h⟩

theorem fields_eq_nil_of_comma (h : ',' ∉ s) : fields s = [] := by
  refine List.eq_nil_iff_forall_not_mem.mpr fun field hfield => h ?_
  obtain ⟨p, -⟩ := exists_place_of_mem_fields hfield
  exact p.comma_mem

namespace OpenField

theorem comma_not_mem (o : OpenField s) : ',' ∉ o.name ++ (o.gap ++ ':' :: o.value) := by
  simp [comma_not_mem_of_word o.name_word, comma_not_mem_of_blank o.gap_blank, o.unended]

theorem before_ne_nil (o : OpenField s) (hs : Stops isWord s) : o.before ≠ [] := by
  intro h
  obtain ⟨c, name, hname, hc⟩ := exists_word_head o.name_field o.name_word
  rw [o.split, h, hname] at hs
  have hno : isWord c = false := stops_cons.mp hs
  rw [hc] at hno
  cases hno

/-- A field stays open with other text in front of it, if its name is still a whole word. -/
def behind (o : OpenField v) (hs : s = a ++ v) (h : Stops isWord (a ++ o.before).reverse) : OpenField s where
  before := a ++ o.before
  name := o.name
  gap := o.gap
  value := o.value
  split := by rw [hs, List.append_assoc, ← o.split]
  apart := h
  name_field := o.name_field
  name_word := o.name_word
  gap_blank := o.gap_blank
  unended := o.unended

def within (o : OpenField s) (hs : s = a ++ v) {x : Text} (h : o.before = a ++ x) : OpenField v where
  before := x
  name := o.name
  gap := o.gap
  value := o.value
  split := List.append_cancel_left (hs.symm.trans (o.split.trans (by rw [h, List.append_assoc])))
  apart := by
    have hapart := o.apart
    rw [h, List.reverse_append] at hapart
    exact stops_of_append hapart
  name_field := o.name_field
  name_word := o.name_word
  gap_blank := o.gap_blank
  unended := o.unended

theorem eq_word_of_split (hu : ∀ c ∈ u, isWord c = false) (hw : ∀ c ∈ w, isWord c = true) {x : Text}
    (o : OpenField s) (hx : u ++ w = o.before ++ x) (hrest : o.name ++ (o.gap ++ ':' :: o.value) = x ++ v) :
    x = w := by
  rcases List.append_eq_append_iff.mp hx with ⟨y, hy, hwy⟩ | ⟨y, hy, hxy⟩
  · rcases List.eq_nil_or_concat y with rfl | ⟨y, c, rfl⟩
    · exact hwy.symm
    · have hapart := o.apart
      rw [hy] at hapart
      have hc : isWord c = false := by simpa using hapart
      rw [hw c (by rw [hwy]; simp)] at hc
      cases hc
  · cases y with
    | nil => exact hxy
    | cons c y =>
      obtain ⟨d, name, hname, hd⟩ := exists_word_head o.name_field o.name_word
      rw [hname, hxy] at hrest
      obtain ⟨rfl, -⟩ := List.cons.inj hrest
      rw [hu d (by rw [hy]; simp)] at hd
      cases hd

theorem word_or_behind (hu : ∀ c ∈ u, isWord c = false) (hw : ∀ c ∈ w, isWord c = true)
    (hv : Stops isWord v) (o : OpenField s) (hs : s = u ++ w ++ v) :
    w = o.name ∧ v = o.gap ++ ':' :: o.value ∨ ∃ x, o.before = u ++ w ++ x := by
  rcases List.append_eq_append_iff.mp (hs.symm.trans o.split) with ⟨x, hx, -⟩ | ⟨x, hx, hrest⟩
  · exact Or.inr ⟨x, hx⟩
  rw [o.eq_word_of_split hu hw hx hrest] at hrest
  have hstops := stops_gap o.gap_blank o.value
  have htake := congrArg (List.takeWhile isWord) hrest
  have hdrop := congrArg (List.dropWhile isWord) hrest
  rw [takeWhile_run o.name_word hstops, takeWhile_run hw hv] at htake
  rw [dropWhile_run o.name_word hstops, dropWhile_run hw hv] at hdrop
  exact Or.inl ⟨htake.symm, hdrop.symm⟩

def behindClosed (o : OpenField s) (ha : Closed a) : OpenField (a ++ s) :=
  o.behind rfl <| by
    rw [List.reverse_append]
    by_cases hbefore : o.before = []
    · rw [hbefore, List.reverse_nil, List.nil_append]
      rcases ha with rfl | ha
      · exact stops_nil
      · intro c hc
        rw [List.head?_reverse, ha] at hc
        exact Option.some.inj hc ▸ isWord_ascii (by decide)
    · exact stops_append o.apart (mt List.reverse_eq_nil_iff.mp hbefore) _

end OpenField

/-- Only what follows the last comma can leave a field open. -/
theorem open_append_iff (ha : Closed a) : Nonempty (OpenField (a ++ s)) ↔ Nonempty (OpenField s) := by
  refine ⟨?_, fun ⟨o⟩ => ⟨o.behindClosed ha⟩⟩
  rintro ⟨o⟩
  rcases List.append_eq_append_iff.mp o.split with ⟨x, hx, -⟩ | ⟨x, hx, hrest⟩
  · exact ⟨o.within rfl hx⟩
  · rcases List.eq_nil_or_concat x with rfl | ⟨x, c, rfl⟩
    · exact ⟨o.within (x := []) rfl (by simpa using hx.symm)⟩
    · have hlast : a.getLast? = some c := by rw [hx]; simp
      rcases ha with rfl | ha
      · cases hlast
      · obtain rfl := Option.some.inj (ha.symm.trans hlast)
        exact absurd (by rw [hrest]; simp) o.comma_not_mem

theorem not_open_of_contains (h : contains fieldSuffix s = false) : ¬ Nonempty (OpenField s) := by
  rintro ⟨o⟩
  rw [o.split] at h
  have hname := o.name_field
  rw [not_isFieldName_of_contains h] at hname
  cases hname

namespace FieldEntry

variable (e : FieldEntry)

theorem text_eq (t : Text) :
    e.text ++ t = e.lead ++ (e.name ++ (e.gap ++ ':' :: (e.value ++ ',' :: t))) := by
  simp [text, body]

theorem comma_not_mem_body : ',' ∉ e.body := by
  simp [body, comma_not_mem_of_blank e.lead_blank, comma_not_mem_of_word e.name_word,
    comma_not_mem_of_blank e.gap_blank, e.value_comma]

theorem fields_text (hs : ∀ c ∈ s, isWord c = false) (t : Text) :
    fields (s ++ (e.text ++ t)) = (e.name, e.value) :: fields t := by
  have hread : readValue? (e.gap ++ ':' :: (e.value ++ ',' :: t)) = some (e.value, t) :=
    readValue?_eq_some_iff.mpr ⟨e.gap, e.gap_blank, rfl, e.value_ne_nil, e.value_comma⟩
  obtain ⟨c, name, hname, -⟩ := exists_word_head e.name_field e.name_word
  rw [fields_append hs, e.text_eq, fields_word (fun c hc => isWord_of_isBlank (e.lead_blank c hc))
    (by simp [hname]) e.name_word (stops_gap e.gap_blank _), fieldsFrom, if_pos e.name_field, hread]

theorem text_ne_colon {blanks r : Text} (h : ∀ c ∈ blanks, isBlank c = true) (t : Text) :
    e.text ++ t ≠ blanks ++ ':' :: r := by
  intro heq
  obtain ⟨c, name, hname, hc⟩ := exists_word_head e.name_field e.name_word
  have hstops : Stops isBlank (e.name ++ (e.gap ++ ':' :: (e.value ++ ',' :: t))) := by
    rw [hname]
    exact stops_cons.mpr (Bool.eq_false_iff.mpr fun hb => by simp [isWord_of_isBlank hb] at hc)
  have hdrop := congrArg (List.dropWhile isBlank) heq
  rw [e.text_eq, dropWhile_run e.lead_blank hstops, dropWhile_run h (stops_cons.mpr (by decide)), hname]
    at hdrop
  have hcolon : isWord ':' = false := isWord_ascii (by decide)
  rw [(List.cons.inj hdrop).1, hcolon] at hc
  cases hc

theorem colon_of_split {gap r t : Text} (hgap : ∀ c ∈ gap, isBlank c = true)
    (h : v ++ (e.text ++ t) = gap ++ ':' :: r) : ∃ inside, v = gap ++ ':' :: inside := by
  rcases List.append_eq_append_iff.mp h with ⟨x, rfl, hx⟩ | ⟨x, rfl, hx⟩
  · exact absurd hx (e.text_ne_colon (fun c hc => hgap c (List.mem_append_right v hc)) t)
  · cases x with
    | nil => exact absurd hx.symm (e.text_ne_colon (List.forall_mem_nil _) t)
    | cons c x =>
      obtain ⟨rfl, -⟩ := List.cons.inj hx
      exact ⟨x, rfl⟩

theorem readValue?_behind {gap inside : Text} (hgap : ∀ c ∈ gap, isBlank c = true)
    (hcomma : ',' ∉ inside) (t : Text) :
    readValue? (gap ++ ':' :: inside ++ (e.text ++ t)) = some (inside ++ e.body, t) := by
  have hne : inside ++ e.body ≠ [] := by simp [body]
  refine readValue?_eq_some_iff.mpr ⟨gap, hgap, by simp [text], hne, ?_⟩
  rw [List.mem_append, not_or]
  exact ⟨hcomma, e.comma_not_mem_body⟩

/-- A word that begins no field that reaches the entry is passed over. -/
theorem fieldsFrom_behind (h : ¬ (isFieldName w = true ∧
      ∃ gap inside, (∀ c ∈ gap, isBlank c = true) ∧ v = gap ++ ':' :: inside)) (t : Text) :
    fieldsFrom w (v ++ (e.text ++ t)) = fields (v ++ (e.text ++ t)) := by
  rw [fieldsFrom]
  split
  · next hfield =>
    cases hread : readValue? (v ++ (e.text ++ t)) with
    | none => rfl
    | some p =>
      obtain ⟨gap, hgap, hsplit, -⟩ :=
        readValue?_eq_some_iff.mp (show readValue? _ = some (p.1, p.2) from hread)
      obtain ⟨inside, hv⟩ := e.colon_of_split hgap hsplit
      exact absurd ⟨hfield, gap, inside, hgap, hv⟩ h
  · rfl

/-- The first field left open in front of an entry takes it as a part of its value. -/
theorem fields_behind (hcomma : ',' ∉ s) (hapart : Stops isWord s.reverse) (t : Text) :
    ¬ Nonempty (OpenField s) ∧ fields (s ++ (e.text ++ t)) = (e.name, e.value) :: fields t ∨
      ∃ o : OpenField s, fields (s ++ (e.text ++ t)) = (o.name, o.value ++ e.body) :: fields t := by
  induction hn : s.length using Nat.strongRecOn generalizing s with
  | ind n ih =>
  subst hn
  rcases split_word s with hno | ⟨u, w, v, hs, hu, hne, hw, hv⟩
  · refine Or.inl ⟨?_, e.fields_text hno t⟩
    rintro ⟨o⟩
    obtain ⟨c, name, hname, hc⟩ := exists_word_head o.name_field o.name_word
    rw [hno c (by rw [o.split, hname]; simp)] at hc
    cases hc
  -- the word `w` does not end the text, since no word character stands in front of the entry
  have hvne : v ≠ [] := by
    rintro rfl
    obtain ⟨w, c, rfl⟩ := (List.eq_nil_or_concat w).resolve_left hne
    have hc : isWord c = false := by simpa [hs] using hapart
    rw [hw c (by simp)] at hc
    cases hc
  have hpos := List.length_pos_iff.mpr hne
  have hvcomma : ',' ∉ v := fun hmem => hcomma (by rw [hs]; simp [hmem])
  have hvapart : Stops isWord v.reverse := by
    rw [hs, List.reverse_append, List.reverse_append, List.append_assoc] at hapart
    exact stops_of_append hapart
  have hassoc : s = u ++ w ++ v := by rw [hs, List.append_assoc]
  have hscan : fields (s ++ (e.text ++ t)) = fieldsFrom w (v ++ (e.text ++ t)) := by
    rw [hs, List.append_assoc, List.append_assoc]
    exact fields_word hu hne hw (stops_append hv hvne _)
  by_cases hopen : isFieldName w = true ∧ ∃ gap inside, (∀ c ∈ gap, isBlank c = true) ∧
      v = gap ++ ':' :: inside
  · obtain ⟨hfield, gap, inside, hgap, rfl⟩ := hopen
    have hinside : ',' ∉ inside := fun hmem => hvcomma (by simp [hmem])
    have hfirst : Stops isWord u.reverse := fun c hc => hu c (List.mem_reverse.mp (List.mem_of_head? hc))
    rw [hscan, fieldsFrom, if_pos hfield, e.readValue?_behind hgap hinside]
    exact Or.inr ⟨⟨u, w, gap, inside, hs, hfirst, hfield, hw, hgap, hinside⟩, rfl⟩
  · rw [hscan, e.fieldsFrom_behind hopen]
    rcases ih v.length (by rw [hs]; simp only [List.length_append]; omega) hvcomma hvapart rfl with
      ⟨hclosed, hfields⟩ | ⟨o, hfields⟩
    · refine Or.inl ⟨?_, hfields⟩
      rintro ⟨o⟩
      rcases o.word_or_behind hu hw hv hassoc with ⟨rfl, hrest⟩ | ⟨x, hx⟩
      · exact hopen ⟨o.name_field, o.gap, o.value, o.gap_blank, hrest⟩
      · exact hclosed ⟨o.within hassoc hx⟩
    · have hapart : Stops isWord (u ++ w ++ o.before).reverse := by
        rw [List.reverse_append]
        exact stops_append o.apart (mt List.reverse_eq_nil_iff.mp (o.before_ne_nil hv)) _
      exact Or.inr ⟨o.behind hassoc hapart, hfields⟩

/-- An entry behind any text is read, or is taken by a field that the text leaves open. -/
theorem fields_split {before : Text} (hapart : Stops isWord before.reverse) (after : Text) :
    ¬ Nonempty (OpenField before) ∧
        fields (before ++ (e.text ++ after)) = fields before ++ (e.name, e.value) :: fields after ∨
      ∃ o : OpenField before, fields (before ++ (e.text ++ after)) =
        fields before ++ (o.name, o.value ++ e.body) :: fields after := by
  obtain ⟨a, s, rfl, ha, hs⟩ := exists_closed_append before
  rw [List.reverse_append] at hapart
  rw [List.append_assoc, fields_append_closed ha, fields_append_closed ha, fields_eq_nil_of_comma hs,
    List.append_nil, open_append_iff ha]
  rcases e.fields_behind hs (stops_of_append hapart) after with ⟨hclosed, hfields⟩ | ⟨o, hfields⟩
  · exact Or.inl ⟨hclosed, by rw [hfields]⟩
  · exact Or.inr ⟨o.behindClosed ha, by rw [hfields]; rfl⟩

end FieldEntry

variable {content constant body name : Text}

theorem lookup_map_value (f : Text → Text) (l : List (Text × Text)) (name : Text) :
    (l.map fun (n, value) => (n, f value)).lookup name = (l.lookup name).map f := by
  induction l with
  | nil => rfl
  | cons field l ih =>
    rw [List.map_cons, Toml.Value.lookup_cons, Toml.Value.lookup_cons, ih]
    by_cases h : name = field.1
    · rw [if_pos h, if_pos h]
      rfl
    · rw [if_neg h, if_neg h]

/-- The table of a block holds for each name the address in its last value. -/
theorem lookup_of_block? (h : block? content constant = some body) (name : Text) :
    (read content constant).lookup name = ((fields body).reverse.lookup name).map addressIn := by
  rw [read, h]
  exact (AddressTable.lookup_ofList _ name).trans (by rw [← List.map_reverse, lookup_map_value])

theorem lookup_fields_eq_none (h : contains name s = false) : (fields s).reverse.lookup name = none := by
  cases hlookup : (fields s).reverse.lookup name with
  | none => rfl
  | some value =>
    have hmem := List.mem_reverse.mp (AddressTable.mem_of_lookup hlookup)
    obtain ⟨p, rfl, -⟩ := exists_place_of_mem_fields hmem
    rw [p.contains_name] at h
    cases h

theorem lookup_reverse_split (l r : List (Text × Text)) (field : Text × Text) (name : Text) :
    (l ++ field :: r).reverse.lookup name =
      (r.reverse.lookup name).or (if name = field.1 then some field.2 else l.reverse.lookup name) := by
  rw [List.reverse_append, List.reverse_cons, List.append_assoc, List.lookup_append,
    List.singleton_append, Toml.Value.lookup_cons]

/-- An entry that begins a line is in the table exactly if no field in front of it still waits for its
comma. A field that does takes the whole entry as a part of its value. -/
theorem entry_read_iff_none_open {content constant before after : Text} (e : FieldEntry)
    (hblock : block? content constant = some (before ++ (e.text ++ after)))
    (hline : before = [] ∨ before.getLast? = some '\n') :
    (¬ Nonempty (OpenField before) →
      fields (before ++ (e.text ++ after)) = fields before ++ (e.name, e.value) :: fields after ∧
      (read content constant).lookup e.name ≠ none) ∧
    (Nonempty (OpenField before) → ∃ o : OpenField before, fields (before ++ (e.text ++ after)) =
      fields before ++ (o.name, o.value ++ e.body) :: fields after) ∧
    (contains e.name before = false → contains e.name after = false →
      ((read content constant).lookup e.name = none ↔ Nonempty (OpenField before)) ∧
      (¬ Nonempty (OpenField before) →
        ∃ a, (read content constant).lookup e.name = some a ∧ Denotes e.value a)) := by
  have hapart : Stops isWord before.reverse := by
    intro c hc
    rw [List.head?_reverse] at hc
    rcases hline with rfl | hlast
    · cases hc
    · exact Option.some.inj (hlast.symm.trans hc) ▸ isWord_ascii (by decide)
  have hlookup := lookup_of_block? hblock e.name
  rcases e.fields_split hapart after with ⟨hclosed, hfields⟩ | ⟨o, hfields⟩
  · rw [hfields, lookup_reverse_split, if_pos rfl] at hlookup
    refine ⟨fun _ => ⟨hfields, ?_⟩, fun hopen => absurd hopen hclosed, fun _ hafter => ?_⟩
    · rw [hlookup]
      cases (fields after).reverse.lookup e.name <;> simp
    · rw [lookup_fields_eq_none hafter, Option.none_or, Option.map_some] at hlookup
      refine ⟨by simp [hlookup, hclosed], fun _ => ⟨addressIn e.value, hlookup, ?_⟩⟩
      exact addressIn_denotes (List.forall_mem_nil _)
  · have hopen : Nonempty (OpenField before) := ⟨o⟩
    refine ⟨fun hclosed => absurd hopen hclosed, fun _ => ⟨o, hfields⟩, fun hbefore hafter => ?_⟩
    -- the field that takes the entry has its name in front of it, where the entry's name is not
    have hother : e.name ≠ o.name := by
      intro h
      rw [h, contains_iff.mpr ⟨o.before, o.gap ++ ':' :: o.value, by rw [List.append_assoc, ← o.split]⟩]
        at hbefore
      cases hbefore
    rw [hfields, lookup_reverse_split, if_neg hother, lookup_fields_eq_none hbefore,
      lookup_fields_eq_none hafter] at hlookup
    exact ⟨⟨fun _ => hopen, fun _ => hlookup⟩, fun hclosed => absurd hopen hclosed⟩

def routerLine : FieldEntry where
  lead := "    ".toList
  name := "router_address".toList
  gap := "  ".toList
  value := "\tSome(address!( \"0xABCDEFabcdef0123456789ABCDEFabcdef012345\"))".toList
  lead_blank := List.all_eq_true.mp (by decide)
  name_field := by decide
  name_word := List.all_eq_true.mp (by decide +kernel)
  gap_blank := List.all_eq_true.mp (by decide)
  value_ne_nil := by decide
  value_comma := by decide

def closedLines : Text := "\n    vezkc_address: None, // token: see below\n".toList

def openLines : Text := "\n    // zkc_address: not deployed yet\n".toList

def routerBehind (lines : Text) : Text :=
  "pub const BASE: Deployment = Deployment \x7b".toList ++ (lines ++ (routerLine.text ++ ['\n'])) ++ blockEnd

theorem entry_read_router :
    (read (routerBehind closedLines) "base".toList).lookup "router_address".toList ≠ none ∧
    (∃ a, (read (routerBehind closedLines) "base".toList).lookup "router_address".toList = some a ∧
      Denotes routerLine.value a) ∧
    ∃ o : OpenField openLines, fields (openLines ++ (routerLine.text ++ ['\n'])) =
      fields openLines ++ (o.name, o.value ++ routerLine.body) :: fields ['\n'] := by
  have hsplit : closedLines = "\n    vezkc_address: None,".toList ++ " // token: see below\n".toList := by
    decide
  have hclosed : ¬ Nonempty (OpenField closedLines) := by
    rw [hsplit, open_append_iff (Or.inr (by decide))]
    exact not_open_of_contains (by decide +kernel)
  have hopen : Nonempty (OpenField openLines) :=
    ⟨⟨"\n    // ".toList, "zkc_address".toList, [], " not deployed yet\n".toList, by decide,
      stops_cons.mpr (isWord_ascii (by decide)), by decide, List.all_eq_true.mp (by decide +kernel), by simp,
      by decide⟩⟩
  have hfirst : block? (routerBehind closedLines) "base".toList =
      some (closedLines ++ (routerLine.text ++ ['\n'])) := by decide +kernel
  have hsecond : block? (routerBehind openLines) "base".toList =
      some (openLines ++ (routerLine.text ++ ['\n'])) := by decide +kernel
  exact ⟨((entry_read_iff_none_open routerLine hfirst (Or.inr (by decide))).1 hclosed).2,
    ((entry_read_iff_none_open routerLine hfirst (Or.inr (by decide))).2.2 (by decide +kernel)
      (by decide +kernel)).2 hclosed,
    (entry_read_iff_none_open routerLine hsecond (Or.inr (by decide))).2.1 hopen⟩

/-- A comment hides the entry on the next line and is given its address. -/
theorem comment_takes_entry :
    block? (routerBehind openLines) "base".toList = some (openLines ++ (routerLine.text ++ ['\n'])) ∧
    openLines.getLast? = some '\n' ∧ contains routerLine.name openLines = false ∧
    read (routerBehind openLines) "base".toList =
      [("zkc_address".toList, "0xabcdefabcdef0123456789abcdefabcdef012345".toList)] := by
  decide +kernel

end DeploymentRecords.SourceTable
