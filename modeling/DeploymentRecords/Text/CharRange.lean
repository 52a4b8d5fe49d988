/-!
# Tables of characters

A class of characters is a sorted list of ranges of code points, a map between characters a
sorted list of runs that move every `step`-th code point by the same distance.
-/

namespace DeploymentRecords.Text

def inRanges (n : Nat) : List (Nat × Nat) → Bool
  | [] => false
  | (low, high) :: ranges => if n < low then false else n ≤ high || inRanges n ranges

/-- The code points `first`, `first + step`, …, `last`, sent to `image`, `image + step`, …. -/
structure CharRun where
  first : Nat
  last : Nat
  step : Nat
  image : Nat
  deriving DecidableEq, Repr

def imageOf? (n : Nat) : List CharRun → Option Nat
  | [] => none
  | run :: runs =>
    if n < run.first then none
    else if n ≤ run.last ∧ (n - run.first) % run.step = 0 then some (run.image + (n - run.first))
    else imageOf? n runs

theorem inRanges_sound {n : Nat} {ranges : List (Nat × Nat)} (h : inRanges n ranges = true) :
    ∃ r ∈ ranges, r.1 ≤ n ∧ n ≤ r.2 := by
  induction ranges with
  | nil => simp [inRanges] at h
  | cons r ranges ih =>
    obtain ⟨low, high⟩ := r
    simp only [inRanges] at h
    split at h
    · simp at h
    · rcases (Bool.or_eq_true _ _).mp h with h | h
      · exact ⟨(low, high), by simp, by simp at h ⊢; omega⟩
      · obtain ⟨r, hr, h⟩ := ih h
        exact ⟨r, by simp [hr], h⟩

end DeploymentRecords.Text
