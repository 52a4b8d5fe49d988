import DeploymentRecords.Proofs.PageLines

/-! # Places of fields

A field has its place in a text: a whole word, white space, a colon, and a value that ends at the next
comma. Where a search from character to character finds the first field there is a place, since a word
character in front of the name would belong to a field that begins earlier; so the fields of a text are the
first one there is and those behind its comma. -/

namespace DeploymentRecords.SourceTable

open Text

/-- A field of a block: a word with no word character in front of it, white space, a colon, and a value
that ends at the next comma. -/
structure FieldPlace (s : Text) where
  before : Text
  name : Text
  gap : Text
  value : Text
  after : Text
  split : s = before ++ (name ++ (gap ++ ':' :: (value ++ ',' :: after)))
  apart : Stops isWord before.reverse
  name_field : isFieldName name = true
  name_word : ∀ c ∈ name, isWord c = true
  gap_blank : ∀ c ∈ gap, isBlank c = true
  value_ne_nil : value ≠ []
  value_comma : ',' ∉ value

/-- No field has its name farther in front. -/
def FieldPlace.IsFirst {s : Text} (p : FieldPlace s) : Prop :=
  ∀ other : FieldPlace s, p.before.length ≤ other.before.length

variable {s name value next : Text}

theorem stops_gap {gap : Text} (h : ∀ c ∈ gap, isBlank c = true) (t : Text) :
    Stops isWord (gap ++ ':' :: t) := by
  cases gap with
  | nil => exact stops_cons.mpr (isWord_ascii (by decide))
  | cons c gap => exact stops_cons.mpr (isWord_of_isBlank (h c List.mem_cons_self))

def readField? (s : Text) : Option ((Text × Text) × Text) :=
  if isFieldName (s.takeWhile isWord) then
    (readValue? (s.dropWhile isWord)).map fun (value, next) => ((s.takeWhile isWord, value), next)
  else none

theorem readField?_word {w v : Text} (hw : ∀ c ∈ w, isWord c = true) (hv : Stops isWord v) :
    readField? (w ++ v) =
      if isFieldName w then (readValue? v).map fun (value, next) => ((w, value), next) else none := by
  rw [readField?, takeWhile_run hw hv, dropWhile_run hw hv]

theorem readField?_eq_some_iff : readField? s = some ((name, value), next) ↔
    ∃ gap, s = name ++ (gap ++ ':' :: (value ++ ',' :: next)) ∧ isFieldName name = true ∧
      (∀ c ∈ name, isWord c = true) ∧ (∀ c ∈ gap, isBlank c = true) ∧ value ≠ [] ∧ ',' ∉ value := by
  constructor
  · intro h
    rw [readField?] at h
    split at h
    · next hfield =>
      obtain ⟨⟨value', next'⟩, hread, he⟩ := Option.map_eq_some_iff.mp h
      simp only [Prod.mk.injEq] at he
      obtain ⟨⟨rfl, rfl⟩, rfl⟩ := he
      obtain ⟨gap, hgap, hrest, hvalue⟩ := readValue?_eq_some_iff.mp hread
      refine ⟨gap, ?_, hfield, List.all_eq_true.mp List.all_takeWhile, hgap, hvalue⟩
      rw [← hrest, List.takeWhile_append_dropWhile]
    · cases h
  · rintro ⟨gap, rfl, hfield, hword, hgap, hvalue⟩
    have hread : readValue? (gap ++ ':' :: (value ++ ',' :: next)) = some (value, next) :=
      readValue?_eq_some_iff.mpr ⟨gap, hgap, rfl, hvalue⟩
    rw [readField?_word hword (stops_gap hgap _), if_pos hfield, hread]
    rfl

theorem readField?_eq_none_of_stops (h : Stops isWord s) : readField? s = none := by
  have hempty : isFieldName [] = false := by decide
  have hread := readField?_word (w := []) (List.forall_mem_nil _) h
  simpa [hempty] using hread

/-- A word that is no field has no end that is one. -/
theorem isFieldName_append {w : Text} (h : isFieldName w = true) (u : Text) : isFieldName (u ++ w) = true := by
  obtain ⟨stem, hstem, rfl⟩ := isFieldName_iff.mp h
  exact isFieldName_iff.mpr ⟨u ++ stem, by simp [hstem], (List.append_assoc _ _ _).symm⟩

theorem search?_between (h : ∀ c ∈ s, isWord c = false) (t : Text) :
    search? readField? (s ++ t) = search? readField? t := by
  refine search?_append fun t₁ t₂ ht hne => readField?_eq_none_of_stops ?_
  obtain ⟨c, t₂, rfl⟩ := List.exists_cons_of_ne_nil hne
  exact stops_cons.mpr (h c (by simp [ht]))

/-- A word that begins no field is passed over whole. -/
theorem search?_word {w v : Text} (hw : ∀ c ∈ w, isWord c = true) (hv : Stops isWord v)
    (h : readField? (w ++ v) = none) : search? readField? (w ++ v) = search? readField? v := by
  rw [readField?_word hw hv] at h
  refine search?_append fun t₁ t₂ ht _ => ?_
  rw [readField?_word (fun c hc => hw c (by simp [ht, hc])) hv]
  split
  · next hfield =>
    rw [ht, if_pos (isFieldName_append hfield t₁)] at h
    rw [Option.map_eq_none_iff] at h ⊢
    exact h
  · rfl

/-- The fields of a text are the first one there is and those behind it. -/
theorem fields_eq_search (s : Text) : fields s =
    match search? readField? s with
    | none => []
    | some (field, next) => field :: fields next := by
  -- on the length: behind a word that begins no field the rest of the text is searched
  induction hn : s.length using Nat.strongRecOn generalizing s with
  | ind n ih =>
  subst hn
  rcases split_word s with hs | ⟨u, w, v, rfl, hu, hne, hw, hv⟩
  · have hnone := search?_between hs []
    rw [List.append_nil] at hnone
    rw [fields_eq_nil hs, hnone]
    rfl
  rw [fields_word hu hne hw hv, search?_between hu]
  have hhere := readField?_word hw hv
  have hskip (h : readField? (w ++ v) = none) : fields v =
      match search? readField? (w ++ v) with
      | none => []
      | some (field, next) => field :: fields next := by
    rw [search?_word hw hv h]
    have hpos := List.length_pos_iff.mpr hne
    exact ih v.length (by simp only [List.length_append]; omega) v rfl
  rw [fieldsFrom]
  split
  · next hfield =>
    rw [if_pos hfield] at hhere
    cases hread : readValue? v with
    | none => exact hskip (by rw [hhere, hread]; rfl)
    | some found =>
      rw [hread] at hhere
      rw [search?_of_read hhere]
  · next hfield => exact hskip (by rw [hhere, if_neg hfield])

namespace FieldPlace

variable (p : FieldPlace s)

theorem readField?_rest : readField? (p.name ++ (p.gap ++ ':' :: (p.value ++ ',' :: p.after))) =
    some ((p.name, p.value), p.after) :=
  readField?_eq_some_iff.mpr ⟨p.gap, rfl, p.name_field, p.name_word, p.gap_blank, p.value_ne_nil, p.value_comma⟩

theorem length_after : p.after.length < s.length := by
  have hlength := congrArg List.length p.split
  simp only [List.length_append, List.length_cons] at hlength
  omega

theorem infix_value : p.value <:+: s :=
  ⟨p.before ++ (p.name ++ (p.gap ++ [':'])), ',' :: p.after, by simpa using p.split.symm⟩

theorem contains_name : contains p.name s = true :=
  contains_iff.mpr ⟨p.before, p.gap ++ ':' :: (p.value ++ ',' :: p.after), by simpa using p.split⟩

theorem comma_mem (p : FieldPlace s) : ',' ∈ s := by
  have hmem : ',' ∈ p.before ++ (p.name ++ (p.gap ++ ':' :: (p.value ++ ',' :: p.after))) := by simp
  exact p.split.symm ▸ hmem

def behind (q : FieldPlace p.after) : FieldPlace s where
  before := p.before ++ (p.name ++ (p.gap ++ ':' :: p.value)) ++ ',' :: q.before
  name := q.name
  gap := q.gap
  value := q.value
  after := q.after
  split := p.split.trans (by simpa using q.split)
  apart := by
    rw [List.reverse_append, List.reverse_cons, List.append_assoc]
    by_cases hbefore : q.before = []
    · rw [hbefore]
      exact stops_cons.mpr (isWord_ascii (by decide))
    · exact stops_append q.apart (mt List.reverse_eq_nil_iff.mp hbefore) _
  name_field := q.name_field
  name_word := q.name_word
  gap_blank := q.gap_blank
  value_ne_nil := q.value_ne_nil
  value_comma := q.value_comma

end FieldPlace

/-- Where a search finds a field there is a place, and no other lies farther in front: a word character
in front of the name would belong to a field that begins earlier. -/
theorem exists_place_of_search? (h : search? readField? s = some ((name, value), next)) :
    ∃ p : FieldPlace s, p.IsFirst ∧ p.name = name ∧ p.value = value ∧ p.after = next := by
  obtain ⟨before, rest, rfl, hread, hfirst⟩ := first_of_search? h
  obtain ⟨gap, rfl, hfield, hword, hgap, hne, hcomma⟩ := readField?_eq_some_iff.mp hread
  have hapart : Stops isWord before.reverse := by
    intro c hc
    rcases List.eq_nil_or_concat before with rfl | ⟨before, d, rfl⟩
    · cases hc
    obtain rfl : d = c := by simpa using hc
    refine Bool.eq_false_iff.mpr fun hd => ?_
    have hlonger : readField? (d :: name ++ (gap ++ ':' :: (value ++ ',' :: next))) =
        some ((d :: name, value), next) :=
      readField?_eq_some_iff.mpr ⟨gap, rfl, isFieldName_append hfield [d],
        List.forall_mem_cons.mpr ⟨hd, hword⟩, hgap, hne, hcomma⟩
    have hlength := hfirst before _ _ (by simp) hlonger
    simp only [List.concat_eq_append, List.length_append, List.length_singleton] at hlength
    omega
  exact ⟨⟨before, name, gap, value, next, rfl, hapart, hfield, hword, hgap, hne, hcomma⟩,
    fun other => hfirst other.before _ _ other.split other.readField?_rest, rfl, rfl, rfl⟩

theorem search?_eq_none_iff_isEmpty : search? readField? s = none ↔ IsEmpty (FieldPlace s) := by
  constructor
  · refine fun h => ⟨fun p => ?_⟩
    have hnone := search?_eq_none h p.before _ p.split
    rw [p.readField?_rest] at hnone
    cases hnone
  · intro hempty
    cases h : search? readField? s with
    | none => rfl
    | some found =>
      obtain ⟨p, -⟩ := exists_place_of_search? (show _ = some ((found.1.1, found.1.2), found.2) from h)
      exact hempty.elim p

theorem FieldPlace.IsFirst.search? {p : FieldPlace s} (h : p.IsFirst) :
    Text.search? readField? s = some ((p.name, p.value), p.after) := by
  cases hsearch : Text.search? readField? s with
  | none => exact (search?_eq_none_iff_isEmpty.mp hsearch).elim p
  | some found =>
    obtain ⟨q, hq, hname, hvalue, hafter⟩ :=
      exists_place_of_search? (show _ = some ((found.1.1, found.1.2), found.2) from hsearch)
    obtain ⟨-, hrest⟩ := List.append_inj (p.split.symm.trans q.split) (Nat.le_antisymm (h q) (hq p))
    have hsame := q.readField?_rest
    rw [← hrest, p.readField?_rest, hname, hvalue, hafter] at hsame
    rw [hsame]

/-- Every field of a text has a place in it. -/
theorem exists_place_of_mem_fields (h : (name, value) ∈ fields s) :
    ∃ p : FieldPlace s, p.name = name ∧ p.value = value := by
  induction hn : s.length using Nat.strongRecOn generalizing s with
  | ind n ih =>
  subst hn
  rw [fields_eq_search] at h
  cases hsearch : search? readField? s with
  | none =>
    rw [hsearch] at h
    cases h
  | some field =>
    obtain ⟨p, -, hname, hvalue, hafter⟩ :=
      exists_place_of_search? (show _ = some ((field.1.1, field.1.2), field.2) from hsearch)
    rw [hsearch] at h
    rcases List.mem_cons.mp h with he | h
    · rw [← he] at hname hvalue
      exact ⟨p, hname, hvalue⟩
    · obtain ⟨q, hq⟩ := ih p.after.length p.length_after (hafter ▸ h) rfl
      exact ⟨p.behind q, hq⟩

end DeploymentRecords.SourceTable
