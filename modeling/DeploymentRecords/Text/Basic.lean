/-!
# Texts

A text is a list of characters. A reader takes what it needs from the front of a text and hands
back the rest. `after?` is the reader of a fixed text, and `search?` turns a reader into one that
looks for the first place where it succeeds.
-/

namespace DeploymentRecords

abbrev Text := List Char

namespace Text

def after? : Text → Text → Option Text
  | [], s => some s
  | _ :: _, [] => none
  | c :: head, d :: s => if c = d then after? head s else none

def cut? (mark : Text) : Text → Option (Text × Text)
  | [] => (after? mark []).map fun rest => ([], rest)
  | c :: s =>
    match after? mark (c :: s) with
    | some rest => some ([], rest)
    | none => (cut? mark s).map fun (before, rest) => (c :: before, rest)

/-- What a reader makes of the text from the first place where it succeeds. -/
def search? {α : Type} (read : Text → Option α) : Text → Option α
  | [] => read []
  | c :: s =>
    match read (c :: s) with
    | some a => some a
    | none => search? read s

def contains (mark s : Text) : Bool := (search? (after? mark) s).isSome

def join (sep : Text) : List Text → Text
  | [] => []
  | [t] => t
  | t :: ts => t ++ sep ++ join sep ts

/-- The part of `s` that a reader took when it left `rest`. -/
def taken (s rest : Text) : Text := s.take (s.length - rest.length)

theorem after?_append (head s : Text) : after? head (head ++ s) = some s := by
  induction head with
  | nil => rfl
  | cons c head ih => simp [after?, ih]

theorem after?_eq_some_iff {head s rest : Text} :
    after? head s = some rest ↔ s = head ++ rest := by
  constructor
  · intro h
    fun_induction after? head s with
    | case1 s => simpa using h
    | case2 => simp at h
    | case3 head d s ih => simp [ih h]
    | case4 => simp at h
  · rintro rfl
    exact after?_append head rest

theorem eq_of_cut? {mark s before rest : Text} (h : cut? mark s = some (before, rest)) :
    s = before ++ mark ++ rest := by
  induction s generalizing before with
  | nil =>
    obtain ⟨_, ht, he⟩ := Option.map_eq_some_iff.1 h
    cases he
    simpa using after?_eq_some_iff.1 ht
  | cons c s ih =>
    simp only [cut?] at h
    split at h
    · next ht =>
      cases h
      simpa using after?_eq_some_iff.1 ht
    · obtain ⟨⟨b, r⟩, hb, he⟩ := Option.map_eq_some_iff.1 h
      cases he
      simp [ih hb]

/-- A text contains a mark exactly if it can be cut there. -/
theorem contains_iff {mark s : Text} :
    contains mark s = true ↔ ∃ before rest, s = before ++ mark ++ rest := by
  constructor
  · intro h
    induction s with
    | nil =>
      obtain ⟨rest, ht⟩ := Option.isSome_iff_exists.1 h
      exact ⟨[], rest, after?_eq_some_iff.1 ht⟩
    | cons c s ih =>
      simp only [contains, search?] at h
      split at h
      · next rest ht => exact ⟨[], rest, after?_eq_some_iff.1 ht⟩
      · obtain ⟨before, rest, he⟩ := ih h
        exact ⟨c :: before, rest, by simp [he]⟩
  · rintro ⟨before, rest, rfl⟩
    induction before with
    | nil =>
      have ht := after?_append mark rest
      cases hm : mark ++ rest with
      | nil => simp_all [contains, search?]
      | cons c s => simp_all [contains, search?]
    | cons c before ih =>
      simp only [contains, search?, List.cons_append]
      split
      · rfl
      · exact ih

theorem taken_append (s rest : Text) : taken (s ++ rest) rest = s := by
  simp [taken]

theorem length_dropWhile_le (p : Char → Bool) (s : Text) : (s.dropWhile p).length ≤ s.length :=
  (List.dropWhile_sublist p).length_le

end Text

end DeploymentRecords
