import DeploymentRecords.Proofs.SourceFile

/-! # Fields of a constant

Reading the table of a constant gives back the address fields of its entries and nothing else, and
for each the address that its value stands for. -/

namespace DeploymentRecords

open Text

/-- A call `address!("0x…")` with white space only inside its parentheses. -/
def IsLiteral (literal address : Text) : Prop :=
  ∃ lead digits trail, (∀ c ∈ lead, isBlank c = true) ∧ (∀ c ∈ trail, isBlank c = true) ∧
    digits.length = 40 ∧ digits.all Number.isHexDigit = true ∧
    literal = "address!(".toList ++ lead ++ "\"0x".toList ++ digits ++ ['"'] ++ trail ++ [')'] ∧
    address = lower ("0x".toList ++ digits)

def FirstLiteral (value address : Text) : Prop :=
  ∃ before literal after, value = before ++ literal ++ after ∧ IsLiteral literal address ∧
    ∀ before' literal' after' address', value = before' ++ literal' ++ after' →
      IsLiteral literal' address' → before.length ≤ before'.length

/-- The address that a value stands for: none for `None` and for values without a literal. -/
def Denotes (value address : Text) : Prop :=
  if trim value = "None".toList then address = []
  else FirstLiteral (trim value) address ∨
    address = [] ∧ ∀ before literal after a, trim value = before ++ literal ++ after →
      ¬ IsLiteral literal a

namespace SourceTable

theorem readValue?_eq_some_iff {s value next : Text} : readValue? s = some (value, next) ↔
    ∃ blanks, (∀ c ∈ blanks, isBlank c = true) ∧ s = blanks ++ ':' :: (value ++ ',' :: next) ∧
      value ≠ [] ∧ ',' ∉ value := by
  have hcut : ∀ t, cut? [','] t = some (value, next) ↔ t = value ++ ',' :: next ∧ ',' ∉ value := by
    intro t
    constructor
    · intro h
      obtain ⟨ht, hquiet⟩ := (cut?_eq_some_iff List.not_mem_nil).mp h
      refine ⟨ht, fun hmem => ?_⟩
      obtain ⟨a, b, rfl⟩ := List.append_of_mem hmem
      rw [contains_iff.mpr ⟨a, b, by simp⟩] at hquiet
      cases hquiet
    · rintro ⟨rfl, hcomma⟩
      exact cut?_char hcomma next
  constructor
  · intro h
    unfold readValue? at h
    split at h
    · next t ht =>
      have hvalue : value ≠ [] ∧ cut? [','] t = some (value, next) := by
        split at h
        · cases h
        · next hne =>
          exact ⟨fun e => hne next (e ▸ h), h⟩
      obtain ⟨rfl, hcomma⟩ := (hcut t).mp hvalue.2
      refine ⟨s.takeWhile isBlank, List.all_eq_true.mp List.all_takeWhile, ?_, hvalue.1, hcomma⟩
      rw [← ht]
      exact List.takeWhile_append_dropWhile.symm
    · cases h
  · rintro ⟨blanks, hblanks, rfl, hne, hcomma⟩
    have hskip : skipBlanks (blanks ++ ':' :: (value ++ ',' :: next)) = ':' :: (value ++ ',' :: next) :=
      dropWhile_run hblanks (by simp; decide)
    simp only [readValue?, hskip, (hcut _).mpr ⟨rfl, hcomma⟩]
    split
    · next heq => exact absurd (Prod.mk.inj (Option.some.inj heq)).1 hne
    · rfl

theorem length_of_readValue? {s value next : Text} (h : readValue? s = some (value, next)) :
    next.length < s.length := by
  obtain ⟨blanks, -, rfl, -, -⟩ := readValue?_eq_some_iff.mp h
  simp only [List.length_append, List.length_cons]
  omega

def fieldsFrom (word rest : Text) : List (Text × Text) :=
  if isFieldName word then
    match readValue? rest with
    | some (value, next) => (word, value) :: fields next
    | none => fields rest
  else fields rest

theorem fields_eq_nil {s : Text} (h : ∀ c ∈ s, isWord c = false) : fields s = [] := by
  have hdrop : s.dropWhile (fun c => !isWord c) = [] := by
    have := dropWhile_run (p := fun c => !isWord c) (s := []) (by simpa using h) (by simp)
    simpa using this
  rw [fields]
  split
  · rfl
  · next heq => cases hdrop.symm.trans heq

theorem split_word (a : Text) : (∀ c ∈ a, isWord c = false) ∨
    ∃ u w v, a = u ++ (w ++ v) ∧ (∀ c ∈ u, isWord c = false) ∧ w ≠ [] ∧
      (∀ c ∈ w, isWord c = true) ∧ Stops isWord v := by
  have hsplit := List.takeWhile_append_dropWhile (p := fun c => !isWord c) (l := a)
  have hno : ∀ c ∈ a.takeWhile (fun c => !isWord c), isWord c = false := by
    intro c hc
    simpa using List.all_eq_true.mp (List.all_takeWhile (l := a) (p := fun c => !isWord c)) c hc
  cases ha : a.dropWhile (fun c => !isWord c) with
  | nil =>
    rw [ha, List.append_nil] at hsplit
    exact Or.inl (hsplit ▸ hno)
  | cons c v =>
    have hc : isWord c = true := by
      have := stops_dropWhile (fun c => !isWord c) a c (by rw [ha]; rfl)
      simpa using this
    refine Or.inr ⟨_, (c :: v).takeWhile isWord, (c :: v).dropWhile isWord, ?_, hno, ?_, ?_,
      stops_dropWhile isWord _⟩
    · rw [List.takeWhile_append_dropWhile, ← ha, hsplit]
    · simp [hc]
    · exact List.all_eq_true.mp List.all_takeWhile

theorem fields_word {u w r : Text} (hu : ∀ c ∈ u, isWord c = false) (hne : w ≠ [])
    (hw : ∀ c ∈ w, isWord c = true) (hr : Stops isWord r) :
    fields (u ++ (w ++ r)) = fieldsFrom w r := by
  obtain ⟨c, w, rfl⟩ := List.exists_cons_of_ne_nil hne
  have hdrop : (u ++ (c :: w ++ r)).dropWhile (fun c => !isWord c) = c :: (w ++ r) :=
    dropWhile_run (by simpa using hu) (by simpa using hw c (by simp))
  have htake : (c :: (w ++ r)).takeWhile isWord = c :: w := takeWhile_run hw hr
  have hrest : (w ++ r).dropWhile isWord = r :=
    dropWhile_run (fun d hd => hw d (List.mem_cons_of_mem c hd)) hr
  rw [fields]
  split
  · next heq => cases hdrop.symm.trans heq
  · next c' start heq =>
    obtain ⟨rfl, rfl⟩ := List.cons.inj (hdrop.symm.trans heq)
    simp only [htake, hrest, fieldsFrom]
    by_cases hname : isFieldName (c :: w)
    · rw [if_pos hname, if_pos hname]
      cases hread : readValue? r with
      | none => rfl
      | some p =>
        have hlength : p.2.length < (u ++ (c :: w ++ r)).length := by
          have := length_of_readValue? (show readValue? r = some (p.1, p.2) from hread)
          simp only [List.length_append]
          omega
        exact dif_pos hlength
    · rw [if_neg hname, if_neg hname]

theorem fields_append {a : Text} (ha : ∀ c ∈ a, isWord c = false) (s : Text) :
    fields (a ++ s) = fields s := by
  rcases split_word s with hs | ⟨u, w, v, rfl, hu, hne, hw, hv⟩
  · have hboth : ∀ c ∈ a ++ s, isWord c = false := by
      simpa [or_imp, forall_and] using ⟨ha, hs⟩
    rw [fields_eq_nil hboth, fields_eq_nil hs]
  · have hboth : ∀ c ∈ a ++ u, isWord c = false := by
      simpa [or_imp, forall_and] using ⟨ha, hu⟩
    rw [← List.append_assoc, fields_word hboth hne hw hv, fields_word hu hne hw hv]

theorem not_isFieldName_of_contains {x w y : Text}
    (h : contains fieldSuffix (x ++ (w ++ y)) = false) : isFieldName w = false := by
  cases hn : isFieldName w with
  | false => rfl
  | true =>
    simp only [isFieldName, Bool.and_eq_true, List.isSuffixOf_iff_suffix] at hn
    obtain ⟨z, rfl⟩ := hn.2
    rw [contains_iff.mpr ⟨x ++ z, y, by simp⟩] at h
    cases h

theorem not_contains_suffix {x y : Text} (h : contains fieldSuffix (x ++ y) = false) :
    contains fieldSuffix y = false := by
  cases hy : contains fieldSuffix y with
  | false => rfl
  | true =>
    obtain ⟨u, v, rfl⟩ := contains_iff.mp hy
    rw [contains_iff.mpr ⟨x ++ u, v, by simp⟩] at h
    cases h

theorem fields_untracked {a : Text} (h : contains fieldSuffix a = false) (s : Text) :
    fields (a ++ ',' :: s) = fields s := by
  rcases split_word a with ha | ⟨u, w, v, rfl, hu, hne, hw, hv⟩
  · have hcomma : ∀ c ∈ a ++ [','], isWord c = false := by
      simp only [List.mem_append, List.mem_singleton]
      rintro c (hc | rfl)
      · exact ha c hc
      · decide
    have := fields_append hcomma s
    simpa using this
  · have hstops : Stops isWord (v ++ ',' :: s) := by
      cases v with
      | nil => simp; decide
      | cons d v => simpa using hv
    have hrest : contains fieldSuffix v = false := not_contains_suffix (not_contains_suffix h)
    have hshort : v.length < (u ++ (w ++ v)).length := by
      have := List.length_pos_iff.mpr hne
      simp only [List.length_append]
      omega
    have hassoc : u ++ (w ++ v) ++ ',' :: s = u ++ (w ++ (v ++ ',' :: s)) := by simp
    rw [hassoc, fields_word hu hne hw hstops, fieldsFrom,
      if_neg (by simp [not_isFieldName_of_contains h])]
    exact fields_untracked hrest s
termination_by a.length

theorem isFieldName_iff {name : Text} :
    isFieldName name = true ↔ ∃ w, w ≠ [] ∧ name = w ++ fieldSuffix := by
  simp only [isFieldName, Bool.and_eq_true, decide_eq_true_eq, List.isSuffixOf_iff_suffix]
  constructor
  · rintro ⟨hlength, w, rfl⟩
    refine ⟨w, ?_, rfl⟩
    rintro rfl
    simp at hlength
  · rintro ⟨w, hne, rfl⟩
    have := List.length_pos_iff.mpr hne
    exact ⟨by simp only [List.length_append]; omega, w, rfl⟩

end SourceTable

namespace Entry

open SourceTable

variable (e : Entry)

theorem isFieldName_name : isFieldName e.name = true ↔ e.Tracked := isFieldName_iff

instance : Decidable e.Tracked := decidable_of_iff _ e.isFieldName_name

theorem readValue?_rest (s : Text) :
    readValue? (e.beforeColon ++ ':' :: (e.afterColon ++ (e.value ++ ',' :: s))) =
      some (e.afterColon ++ e.value, s) := by
  have hcomma : ',' ∉ e.afterColon ++ e.value := by
    simp only [List.mem_append, not_or]
    exact ⟨fun hm => absurd (e.afterColon_blank ',' hm) (by decide), e.value_chars.1⟩
  exact readValue?_eq_some_iff.mpr
    ⟨e.beforeColon, e.beforeColon_blank, by simp, by simp [e.value_ne_nil], hcomma⟩

/-- The scan of an entry gives its field if it is one for an address, and goes on behind it. -/
theorem fields_text (s : Text) :
    fields (e.text ++ s) =
      if e.Tracked then (e.name, e.afterColon ++ e.value) :: fields s else fields s := by
  have hassoc : e.text ++ s = e.lead ++ (e.name ++
      (e.beforeColon ++ ':' :: (e.afterColon ++ (e.value ++ ',' :: s)))) := by simp [text]
  have hlead : ∀ c ∈ e.lead, isWord c = false := fun c hc => isWord_of_isBlank (e.lead_blank c hc)
  have hname : ∀ c ∈ e.name, isWord c = true := fun c hc => isWord_of_isNameChar (e.name_chars c hc)
  have hstops : Stops isWord (e.beforeColon ++ ':' :: (e.afterColon ++ (e.value ++ ',' :: s))) := by
    cases hb : e.beforeColon with
    | nil => simp; decide
    | cons b blanks => simpa using isWord_of_isBlank (e.beforeColon_blank b (by simp [hb]))
  rw [hassoc, fields_word hlead e.name_ne_nil hname hstops, fieldsFrom, e.readValue?_rest]
  by_cases htracked : e.Tracked
  · rw [if_pos (e.isFieldName_name.mpr htracked), if_pos htracked]
  · have hgap : ∀ c ∈ e.beforeColon ++ ':' :: e.afterColon, isWord c = false := by
      simp only [List.mem_append, List.mem_cons]
      rintro c (hc | rfl | hc)
      · exact isWord_of_isBlank (e.beforeColon_blank c hc)
      · decide
      · exact isWord_of_isBlank (e.afterColon_blank c hc)
    have hskip := fields_append hgap (e.value ++ ',' :: s)
    rw [List.append_assoc, List.cons_append] at hskip
    rw [if_neg (mt e.isFieldName_name.mp htracked), if_neg htracked, hskip,
      fields_untracked (e.value_untracked htracked)]

end Entry

def Constant.fields (c : Constant) : List (Text × Text) :=
  (c.entries.filter fun e => e.Tracked).map fun e => (e.name, e.afterColon ++ e.value)

theorem Constant.fields_body (c : Constant) : SourceTable.fields c.body = c.fields := by
  rw [body, Constant.fields]
  induction c.entries with
  | nil =>
    exact SourceTable.fields_eq_nil fun d hd => isWord_of_isBlank (c.beforeEnd_blank d hd)
  | cons e entries ih =>
    rw [List.flatMap_cons, List.append_assoc, e.fields_text]
    by_cases htracked : e.Tracked
    · rw [if_pos htracked, ih, List.filter_cons_of_pos (by simpa using htracked), List.map_cons]
    · rw [if_neg htracked, ih, List.filter_cons_of_neg (by simpa using htracked)]

namespace SourceTable

theorem afterTokens?_char {c : Char} (hc : isBlank c = false) {s rest : Text} :
    afterTokens? [[c]] s = some rest ↔
      ∃ blanks, (∀ d ∈ blanks, isBlank d = true) ∧ s = blanks ++ c :: rest := by
  simp only [afterTokens?, Option.bind_eq_some_iff, Option.some.injEq, exists_eq_right,
    after?_eq_some_iff, skipBlanks, List.singleton_append]
  constructor
  · intro h
    refine ⟨s.takeWhile isBlank, List.all_eq_true.mp List.all_takeWhile, ?_⟩
    rw [← h, List.takeWhile_append_dropWhile]
  · rintro ⟨blanks, hblanks, rfl⟩
    exact dropWhile_run hblanks (by simpa using hc)

theorem lower_digits {digits : Text} (h : digits.all Number.isHexDigit = true) :
    lower ("0x".toList ++ digits) = '0' :: 'x' :: digits.map Char.toLower := by
  rw [lower, lowerFrom_ascii]
  · rfl
  · rw [List.all_eq_true] at h
    simp only [List.mem_append, List.mem_cons, String.reduceToList, List.not_mem_nil, or_false]
    rintro c ((rfl | rfl) | hc)
    · decide
    · decide
    · exact ascii_of_isHexDigit (h c hc)

theorem read?_digits {digits : Text} (hlength : digits.length = 40)
    (h : digits.all Number.isHexDigit = true) (rest : Text) :
    Address.read? ("0x".toList ++ (digits ++ rest)) =
      some (lower ("0x".toList ++ digits), rest) := by
  have hlength' : digits.length = Address.digitCount := hlength
  have htake : (digits ++ rest).take Address.digitCount = digits := by
    rw [← hlength', List.take_left]
  have hdrop : (digits ++ rest).drop Address.digitCount = rest := by
    rw [← hlength', List.drop_left]
  have hafter : after? ['0', 'x'] ("0x".toList ++ (digits ++ rest)) = some (digits ++ rest) :=
    after?_append _ _
  simp only [Address.read?, hafter, htake, hdrop, hlength', h, and_self, if_true, lower_digits h]

theorem readMacro?_eq_some_iff {s address : Text} :
    readMacro? s = some address ↔ ∃ literal rest, s = literal ++ rest ∧ IsLiteral literal address := by
  constructor
  · intro h
    unfold readMacro? at h
    split at h
    · cases h
    · next t ht =>
      obtain ⟨u, hu, ht⟩ := Option.bind_eq_some_iff.mp ht
      obtain ⟨lead, hlead, rfl⟩ := (afterTokens?_char (by decide)).mp ht
      split at h
      · cases h
      · next a v hread =>
        obtain ⟨digits, hlength, hdigits, rfl, rfl⟩ := Address.eq_of_read? hread
        obtain ⟨w, hw, h⟩ := Option.bind_eq_some_iff.mp h
        obtain ⟨rest, hrest, rfl⟩ := Option.map_eq_some_iff.mp h
        obtain ⟨trail, htrail, rfl⟩ := (afterTokens?_char (by decide)).mp hrest
        rw [after?_eq_some_iff.mp hu, after?_eq_some_iff.mp hw]
        exact ⟨_, rest, by simp, lead, digits, trail, hlead, htrail, hlength, hdigits, rfl,
          (lower_digits hdigits).symm⟩
  · rintro ⟨literal, rest, rfl, lead, digits, trail, hlead, htrail, hlength, hdigits, rfl, rfl⟩
    have hopen : (after? "address!(".toList ("address!(".toList ++ (lead ++ '"' ::
        ("0x".toList ++ (digits ++ '"' :: (trail ++ ')' :: rest)))))).bind (afterTokens? [['"']]) =
        some ("0x".toList ++ (digits ++ '"' :: (trail ++ ')' :: rest))) := by
      rw [after?_append, Option.bind_some]
      exact (afterTokens?_char (by decide)).mpr ⟨lead, hlead, rfl⟩
    have hclose : afterTokens? [[')']] (trail ++ ')' :: rest) = some rest :=
      (afterTokens?_char (by decide)).mpr ⟨trail, htrail, rfl⟩
    have hquote : after? ['"'] ('"' :: (trail ++ ')' :: rest)) = some (trail ++ ')' :: rest) :=
      after?_append ['"'] _
    have hassoc : "address!(".toList ++ lead ++ "\"0x".toList ++ digits ++ ['"'] ++ trail ++ [')'] ++
        rest = "address!(".toList ++ (lead ++ '"' ::
          ("0x".toList ++ (digits ++ '"' :: (trail ++ ')' :: rest)))) := by simp
    rw [hassoc]
    simp only [readMacro?, hopen, read?_digits hlength hdigits, hquote, Option.bind_some, hclose,
      Option.map_some]

theorem trim_lead {blanks s : Text} (h : ∀ c ∈ blanks, isBlank c = true) :
    trim (blanks ++ s) = trim s := by
  rw [trim, trimStart, List.dropWhile_append_of_pos h]
  rfl

theorem addressIn_denotes {blanks value : Text} (h : ∀ c ∈ blanks, isBlank c = true) :
    Denotes value (addressIn (blanks ++ value)) := by
  simp only [Denotes, addressIn, trim_lead h]
  split
  · rfl
  · cases hsearch : search? readMacro? (trim value) with
    | none =>
      refine Or.inr ⟨rfl, fun before literal after a hs hliteral => ?_⟩
      have hnone := search?_eq_none hsearch before (literal ++ after) (by simp [hs])
      rw [readMacro?_eq_some_iff.mpr ⟨literal, after, rfl, hliteral⟩] at hnone
      cases hnone
    | some address =>
      obtain ⟨before, rest, hs, hread, hfirst⟩ := first_of_search? hsearch
      obtain ⟨literal, after, rfl, hliteral⟩ := readMacro?_eq_some_iff.mp hread
      refine Or.inl ⟨before, literal, after, by simp [hs], hliteral, ?_⟩
      intro before' literal' after' a' hs' hliteral'
      exact hfirst before' (literal' ++ after') a' (by simp [hs'])
        (readMacro?_eq_some_iff.mpr ⟨literal', after', rfl, hliteral'⟩)

end SourceTable

namespace AddressTable

theorem insert_perm {field address : Text} {table : AddressTable}
    (h : field ∉ table.map Prod.fst) : (insert field address table).Perm ((field, address) :: table) := by
  induction table with
  | nil => exact List.Perm.refl _
  | cons entry table ih =>
    simp only [List.map_cons, List.mem_cons, not_or] at h
    simp only [insert]
    split
    · exact List.Perm.refl _
    · rw [if_neg h.1]
      exact ((ih h.2).cons entry).trans (List.Perm.swap _ _ _)

theorem foldl_insert_perm {fields : List (Text × Text)} {table : AddressTable}
    (h : ((fields ++ table).map Prod.fst).Nodup) :
    (fields.foldl (fun table (field, address) => insert field address table) table).Perm
      (fields ++ table) := by
  induction fields generalizing table with
  | nil => exact List.Perm.refl table
  | cons entry fields ih =>
    have hfresh : entry.1 ∉ table.map Prod.fst := fun hm =>
      (List.nodup_cons.mp h).1 (List.map_append ▸ List.mem_append_right _ hm)
    have hinsert : (insert entry.1 entry.2 table).Perm (entry :: table) := insert_perm hfresh
    have hmove : (fields ++ insert entry.1 entry.2 table).Perm (entry :: fields ++ table) :=
      (hinsert.append_left fields).trans List.perm_middle
    have hnodup : ((fields ++ insert entry.1 entry.2 table).map Prod.fst).Nodup :=
      (hmove.map Prod.fst).nodup_iff.mpr h
    exact (ih hnodup).trans hmove

/-- A table of distinct fields holds what it was made of. -/
theorem ofList_perm {fields : List (Text × Text)} (h : (fields.map Prod.fst).Nodup) :
    (ofList fields).Perm fields := by
  have hnodup : ((fields ++ []).map Prod.fst).Nodup := by rwa [List.append_nil]
  simpa [ofList] using foldl_insert_perm hnodup

theorem lookup_of_mem {table : List (Text × Text)} {field address : Text}
    (h : (table.map Prod.fst).Nodup) (hmem : (field, address) ∈ table) :
    table.lookup field = some address := by
  obtain ⟨before, after, rfl⟩ := List.append_of_mem hmem
  refine List.lookup_eq_some_iff.mpr ⟨before, after, rfl, ?_⟩
  rw [List.map_append, List.nodup_append] at h
  intro entry hentry
  have := h.2.2 entry.1 (List.mem_map_of_mem hentry) field (by simp)
  simpa using fun e => this e.symm

end AddressTable

namespace SourceFile

variable (file : SourceFile)

theorem read_unknown {spelling : Text} (hchars : ∀ d ∈ spelling, isNameChar d = true)
    (hother : ∀ c ∈ file.constants, c.name ≠ spelling.map Char.toUpper) :
    SourceTable.read file.text spelling = [] := by
  rw [SourceTable.read, file.block?_unknown hchars hother]

theorem read_perm {c : Constant} (hc : c ∈ file.constants) {spelling : Text}
    (hspelling : spelling.map Char.toUpper = c.name) :
    (SourceTable.read file.text spelling).Perm
      (c.fields.map fun (name, value) => (name, SourceTable.addressIn value)) := by
  rw [SourceTable.read, file.block?_text hc hspelling, ← c.fields_body]
  apply AddressTable.ofList_perm
  rw [c.fields_body, Constant.fields, List.map_map, List.map_map]
  exact c.names_nodup.sublist (List.filter_sublist.map Entry.name)

/-- A constants file reads back: under any spelling of its name a constant has exactly its address
fields, each with what its own value denotes, and what names no constant has none. -/
theorem read_text {c : Constant} (hc : c ∈ file.constants) {spelling : Text}
    (hspelling : spelling.map Char.toUpper = c.name) :
    let table := SourceTable.read file.text spelling
    (table.map Prod.fst).Nodup ∧
    (∀ name, name ∈ table.map Prod.fst ↔ ∃ e ∈ c.entries, e.Tracked ∧ e.name = name) ∧
    (∀ e ∈ c.entries, e.Tracked → ∃ a, table.lookup e.name = some a ∧ Denotes e.value a) ∧
    ∀ other : Text, (∀ d ∈ other, isNameChar d = true) →
      (∀ d ∈ file.constants, d.name ≠ other.map Char.toUpper) → SourceTable.read file.text other = [] := by
  have hperm := file.read_perm hc hspelling
  have hkeys := hperm.map Prod.fst
  have hfields : (c.fields.map fun (name, value) => (name, SourceTable.addressIn value)).map
      Prod.fst = (c.entries.filter fun e => e.Tracked).map Entry.name := by
    rw [Constant.fields, List.map_map, List.map_map]
    rfl
  have hnodup : ((SourceTable.read file.text spelling).map Prod.fst).Nodup := by
    rw [hkeys.nodup_iff, hfields]
    exact c.names_nodup.sublist (List.filter_sublist.map Entry.name)
  refine ⟨hnodup, fun name => ?_, fun e he htracked => ?_, fun other => file.read_unknown⟩
  · show name ∈ (SourceTable.read file.text spelling).map Prod.fst ↔ _
    rw [hkeys.mem_iff, hfields]
    simp [and_assoc]
  · refine ⟨SourceTable.addressIn (e.afterColon ++ e.value), ?_,
      SourceTable.addressIn_denotes e.afterColon_blank⟩
    refine AddressTable.lookup_of_mem hnodup (hperm.mem_iff.mpr ?_)
    have hmem : (e.name, e.afterColon ++ e.value) ∈ c.fields :=
      List.mem_map.mpr ⟨e, List.mem_filter.mpr ⟨he, by simpa using htracked⟩, rfl⟩
    exact List.mem_map_of_mem hmem

end SourceFile

def routerEntry : Entry where
  lead := "\n    ".toList
  name := "router_address".toList
  beforeColon := []
  afterColon := " ".toList
  value := "Some(address!(\n \"0xABCDEFabcdef0123456789ABCDEFabcdef01234567\" ))".toList
  lead_ne_nil := by decide
  name_ne_nil := by decide
  value_ne_nil := by decide
  lead_blank := List.all_eq_true.mp (by decide)
  name_chars := List.all_eq_true.mp (by decide)
  beforeColon_blank := List.all_eq_true.mp (by decide)
  afterColon_blank := List.all_eq_true.mp (by decide)
  value_chars := by decide
  value_quiet := by decide
  value_untracked := fun h => absurd ⟨"router".toList, by decide, rfl⟩ h

def chainEntry : Entry where
  lead := " ".toList
  name := "chain_id".toList
  beforeColon := "\t".toList
  afterColon := []
  value := "84532".toList
  lead_ne_nil := by decide
  name_ne_nil := by decide
  value_ne_nil := by decide
  lead_blank := List.all_eq_true.mp (by decide)
  name_chars := List.all_eq_true.mp (by decide)
  beforeColon_blank := List.all_eq_true.mp (by decide)
  afterColon_blank := List.all_eq_true.mp (by decide)
  value_chars := by decide
  value_quiet := by decide
  value_untracked := fun _ => by decide

def constantNamed (name : Text) (entries : List Entry) (hne : name ≠ [])
    (hchars : ∀ c ∈ name, c.isUpper = true ∨ c.isDigit = true ∨ c = '_')
    (hnodup : (entries.map Entry.name).Nodup) : Constant where
  before := "\n".toList
  name := name
  beforeColon := []
  beforeType := " ".toList
  beforeEquals := " ".toList
  beforeValue := " ".toList
  beforeBrace := " ".toList
  entries := entries
  beforeEnd := "\n".toList
  before_quiet := by decide
  name_ne_nil := hne
  name_chars := hchars
  beforeColon_blank := List.all_eq_true.mp (by decide)
  beforeType_blank := List.all_eq_true.mp (by decide)
  beforeEquals_blank := List.all_eq_true.mp (by decide)
  beforeValue_blank := List.all_eq_true.mp (by decide)
  beforeBrace_blank := List.all_eq_true.mp (by decide)
  beforeEnd_blank := List.all_eq_true.mp (by decide)
  names_nodup := hnodup

def sepoliaConstant : Constant :=
  constantNamed "BASE_SEPOLIA".toList [chainEntry] (by decide) (by simp) (by decide)

def baseConstant : Constant :=
  constantNamed "BASE".toList [chainEntry, routerEntry] (by decide) (by simp) (by decide)

def baseFile : SourceFile where
  constants := [sepoliaConstant, baseConstant]
  trail := "// end\n".toList
  trail_quiet := by decide
  names_nodup := by decide

theorem read_base :
    let table := SourceTable.read baseFile.text "Base".toList
    (table.map Prod.fst).Nodup ∧
    (∀ name, name ∈ table.map Prod.fst ↔
      ∃ e ∈ [chainEntry, routerEntry], e.Tracked ∧ e.name = name) ∧
    (∀ e ∈ [chainEntry, routerEntry], e.Tracked →
      ∃ a, table.lookup e.name = some a ∧ Denotes e.value a) ∧
    SourceTable.read baseFile.text "sepolia".toList = [] := by
  have hspelling : "Base".toList.map Char.toUpper = baseConstant.name := by decide
  obtain ⟨hnodup, hnames, hvalues, hunknown⟩ :=
    baseFile.read_text (List.mem_cons_of_mem _ List.mem_cons_self) hspelling
  have hchars : ∀ d ∈ "sepolia".toList, isNameChar d = true := List.all_eq_true.mp (by decide)
  have hothers : ∀ d ∈ [sepoliaConstant, baseConstant], d.name ≠ "sepolia".toList.map Char.toUpper := by
    rw [List.forall_mem_cons, List.forall_mem_singleton]
    exact ⟨by decide, by decide⟩
  exact ⟨hnodup, hnames, hvalues, hunknown _ hchars hothers⟩

end DeploymentRecords
