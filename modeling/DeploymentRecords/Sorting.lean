/-!
# Sorting

Insertion sort; elements of the same rank stay in the order in which they came.
-/

namespace DeploymentRecords.Sorting

variable {α : Type}

def insert (before : α → α → Bool) (a : α) : List α → List α
  | [] => [a]
  | b :: bs => if before b a then b :: insert before a bs else a :: b :: bs

def sort (before : α → α → Bool) (as : List α) : List α := as.foldr (insert before) []

@[simp] theorem mem_insert {before : α → α → Bool} {a x : α} {bs : List α} :
    x ∈ insert before a bs ↔ x = a ∨ x ∈ bs := by
  induction bs with
  | nil => simp [insert]
  | cons b bs ih =>
    simp only [insert]
    split
    · simp only [List.mem_cons, ih]
      exact or_left_comm
    · simp

@[simp] theorem mem_sort {before : α → α → Bool} {x : α} {as : List α} :
    x ∈ sort before as ↔ x ∈ as := by
  induction as with
  | nil => simp [sort]
  | cons a as ih => simpa [sort] using or_congr_right ih

theorem insert_perm (before : α → α → Bool) (a : α) (bs : List α) :
    (insert before a bs).Perm (a :: bs) := by
  induction bs with
  | nil => exact List.Perm.refl _
  | cons b bs ih =>
    rw [insert]
    split
    · exact (ih.cons b).trans (List.Perm.swap a b bs)
    · exact List.Perm.refl _

theorem sort_perm (before : α → α → Bool) (as : List α) : (sort before as).Perm as := by
  induction as with
  | nil => exact List.Perm.refl _
  | cons a as ih => exact (insert_perm before a (sort before as)).trans (ih.cons a)

end DeploymentRecords.Sorting
