import DeploymentRecords.Sorting
import Mathlib.Data.List.Forall2

/-! # Schedules

Work that is put in the order of its positions. Work at one position stays in the order in which it
came, so the work of one party is scheduled as if there were no other. -/

namespace DeploymentRecords.Sorting

variable {α β : Type}

def byPosition (us : List (Nat × α)) : List (Nat × α) := sort (fun a b => decide (a.1 < b.1)) us

def InOrder (us : List (Nat × α)) : Prop := us.Pairwise fun a b => a.1 ≤ b.1

theorem InOrder.split {us : List (Nat × α)} (h : InOrder us) (n : Nat) :
    us.filter (fun u => decide (u.1 < n)) ++ us.filter (fun u => decide (n ≤ u.1)) = us := by
  induction us with
  | nil => rfl
  | cons u us ih =>
    obtain ⟨hu, hus⟩ := List.pairwise_cons.mp h
    by_cases hlt : u.1 < n
    · rw [List.filter_cons_of_pos (by simpa using hlt),
        List.filter_cons_of_neg (by simpa using hlt), List.cons_append, ih hus]
    · have hlow : us.filter (fun u => decide (u.1 < n)) = [] := by
        rw [List.filter_eq_nil_iff]
        intro v hv
        have := hu v hv
        simp only [decide_eq_true_eq]
        omega
      have hhigh := ih hus
      rw [hlow, List.nil_append] at hhigh
      rw [List.filter_cons_of_neg (by simpa using hlt), hlow,
        List.filter_cons_of_pos (by simpa using Nat.le_of_not_lt hlt), hhigh, List.nil_append]

theorem insert_eq {u : Nat × α} {us : List (Nat × α)} (h : InOrder us) :
    insert (fun a b => decide (a.1 < b.1)) u us =
      us.filter (fun v => decide (v.1 < u.1)) ++ u :: us.filter (fun v => decide (u.1 ≤ v.1)) := by
  induction us with
  | nil => rfl
  | cons v us ih =>
    obtain ⟨hv, hus⟩ := List.pairwise_cons.mp h
    by_cases hlt : v.1 < u.1
    · rw [insert, if_pos (by simpa using hlt), ih hus, List.filter_cons_of_pos (by simpa using hlt),
        List.filter_cons_of_neg (by simpa using hlt), List.cons_append]
    · have hle : ∀ w ∈ v :: us, u.1 ≤ w.1 := by
        rw [List.forall_mem_cons]
        exact ⟨Nat.le_of_not_lt hlt, fun w hw => Nat.le_trans (Nat.le_of_not_lt hlt) (hv w hw)⟩
      rw [insert, if_neg (by simpa using hlt), List.filter_eq_nil_iff.mpr, List.nil_append,
        List.filter_eq_self.mpr]
      · simpa using hle
      · intro w hw
        have := hle w hw
        simp only [decide_eq_true_eq]
        omega

theorem inOrder_byPosition (us : List (Nat × α)) : InOrder (byPosition us) := by
  induction us with
  | nil => exact List.Pairwise.nil
  | cons u us ih =>
    rw [byPosition, sort, List.foldr_cons]
    change InOrder (insert _ u (byPosition us))
    rw [insert_eq ih, InOrder, List.pairwise_append, List.pairwise_cons]
    refine ⟨ih.filter _, ⟨fun v hv => by simpa using (List.mem_filter.mp hv).2, ih.filter _⟩, ?_⟩
    intro v hv w hw
    have hv := (List.mem_filter.mp hv).2
    rw [decide_eq_true_eq] at hv
    rcases List.mem_cons.mp hw with rfl | hw
    · omega
    · have := (List.mem_filter.mp hw).2
      rw [decide_eq_true_eq] at this
      omega

theorem byPosition_eq {us : List (Nat × α)} (h : InOrder us) : byPosition us = us := by
  induction us with
  | nil => rfl
  | cons u us ih =>
    obtain ⟨hu, hus⟩ := List.pairwise_cons.mp h
    show insert _ u (byPosition us) = u :: us
    rw [ih hus, insert_eq hus, List.filter_eq_nil_iff.mpr fun v hv => ?_, List.nil_append,
      List.filter_eq_self.mpr fun v hv => by simpa using hu v hv]
    have := hu v hv
    simp only [decide_eq_true_eq]
    omega

theorem byPosition_cons (u : Nat × α) (us : List (Nat × α)) : byPosition (u :: us) =
    (byPosition us).filter (fun v => decide (v.1 < u.1)) ++
      u :: (byPosition us).filter (fun v => decide (u.1 ≤ v.1)) :=
  insert_eq (inOrder_byPosition us)

theorem filter_byPosition (p : Nat × α → Bool) (us : List (Nat × α)) :
    (byPosition us).filter p = byPosition (us.filter p) := by
  induction us with
  | nil => rfl
  | cons u us ih =>
    have hswap : ∀ q : Nat × α → Bool,
        ((byPosition us).filter q).filter p = (byPosition (us.filter p)).filter q := by
      intro q
      rw [← ih, List.filter_filter, List.filter_filter]
      simp only [Bool.and_comm]
    rw [byPosition_cons, List.filter_append, hswap]
    by_cases hp : p u = true
    · rw [List.filter_cons_of_pos hp, List.filter_cons_of_pos hp, hswap, byPosition_cons]
    · rw [List.filter_cons_of_neg hp, List.filter_cons_of_neg hp, hswap,
        (inOrder_byPosition _).split]

theorem byPosition_map (f : α → β) (us : List (Nat × α)) :
    byPosition (us.map fun u => (u.1, f u.2)) = (byPosition us).map fun u => (u.1, f u.2) := by
  induction us with
  | nil => rfl
  | cons u us ih =>
    rw [List.map_cons, byPosition_cons, byPosition_cons, ih, List.map_append, List.map_cons,
      List.filter_map, List.filter_map]
    rfl

theorem byPosition_append {us vs : List (Nat × α)} (h : ∀ u ∈ us, ∀ v ∈ vs, u.1 ≤ v.1) :
    byPosition (us ++ vs) = byPosition us ++ byPosition vs := by
  induction us with
  | nil => rfl
  | cons u us ih =>
    obtain ⟨hu, hus⟩ := List.forall_mem_cons.mp h
    have hmem : ∀ v ∈ byPosition vs, u.1 ≤ v.1 := fun v hv => hu v (mem_sort.mp hv)
    have hlow : (byPosition vs).filter (fun v => decide (v.1 < u.1)) = [] := by
      rw [List.filter_eq_nil_iff]
      intro v hv
      have := hmem v hv
      simp only [decide_eq_true_eq]
      omega
    have hhigh : (byPosition vs).filter (fun v => decide (u.1 ≤ v.1)) = byPosition vs :=
      List.filter_eq_self.mpr fun v hv => by simpa using hmem v hv
    rw [List.cons_append, byPosition_cons, byPosition_cons, ih hus, List.filter_append,
      List.filter_append, hlow, hhigh]
    simp

/-- Related work at the same positions is put in the same order. -/
theorem byPosition_forall₂ {R : α → β → Prop} {us : List (Nat × α)} {vs : List (Nat × β)}
    (h : List.Forall₂ (fun u v => v.1 = u.1 ∧ R u.2 v.2) us vs) :
    List.Forall₂ (fun u v => v.1 = u.1 ∧ R u.2 v.2) (byPosition us) (byPosition vs) := by
  induction h with
  | nil => exact .nil
  | @cons u v us vs huv _ ih =>
    rw [byPosition_cons, byPosition_cons, huv.1]
    refine List.rel_append (List.rel_filter (fun a b hab => ?_) ih)
      (.cons huv (List.rel_filter (fun a b hab => ?_) ih))
    · show decide _ = true ↔ decide _ = true
      rw [hab.1]
    · show decide _ = true ↔ decide _ = true
      rw [hab.1]

def schedule (us : List (Nat × List α)) : List α := (byPosition us).flatMap (·.2)

theorem schedule_cons (n : Nat) (as : List α) (us : List (Nat × List α)) : schedule ((n, as) :: us) =
    schedule (us.filter fun u => decide (u.1 < n)) ++
      (as ++ schedule (us.filter fun u => decide (n ≤ u.1))) := by
  rw [schedule, byPosition_cons, filter_byPosition, filter_byPosition, List.flatMap_append,
    List.flatMap_cons]
  rfl

theorem schedule_filterMap (f : α → Option β) (us : List (Nat × List α)) :
    (schedule us).filterMap f = schedule (us.map fun u => (u.1, u.2.filterMap f)) := by
  rw [schedule, schedule, byPosition_map, List.flatMap_map, List.filterMap_flatMap]

theorem schedule_map (f : α → β) (us : List (Nat × List α)) :
    (schedule us).map f = schedule (us.map fun u => (u.1, u.2.map f)) := by
  rw [schedule, schedule, byPosition_map, List.flatMap_map, List.map_flatMap]

theorem schedule_append {us vs : List (Nat × List α)} (h : ∀ u ∈ us, ∀ v ∈ vs, u.1 ≤ v.1) :
    schedule (us ++ vs) = schedule us ++ schedule vs := by
  rw [schedule, byPosition_append h, List.flatMap_append]
  rfl

theorem schedule_filter (us : List (Nat × List α)) :
    schedule (us.filter fun u => !u.2.isEmpty) = schedule us := by
  rw [schedule, ← filter_byPosition]
  unfold schedule
  induction byPosition us with
  | nil => rfl
  | cons u us ih =>
    by_cases hu : u.2 = []
    · rw [List.filter_cons_of_neg (by simp [hu]), ih, List.flatMap_cons, hu, List.nil_append]
    · rw [List.filter_cons_of_pos (by simpa using hu), List.flatMap_cons, ih, List.flatMap_cons]

theorem schedule_eq_nil {us : List (Nat × List α)} : schedule us = [] ↔ ∀ u ∈ us, u.2 = [] := by
  rw [schedule, List.flatMap_eq_nil_iff]
  exact ⟨fun h u hu => h u (mem_sort.mpr hu), fun h u hu => h u (mem_sort.mp hu)⟩

theorem schedule_idle (n : Nat) (us : List (Nat × List α)) : schedule ((n, []) :: us) = schedule us := by
  rw [← schedule_filter, List.filter_cons_of_neg (by simp), schedule_filter]

theorem schedule_cons_map (f : α → β) (n : Nat) (bs : List β) (us : List (Nat × List α)) :
    schedule ((n, bs) :: us.map fun u => (u.1, u.2.map f)) =
      (schedule (us.filter fun u => decide (u.1 < n))).map f ++
        (bs ++ (schedule (us.filter fun u => decide (n ≤ u.1))).map f) := by
  rw [schedule_cons, schedule_map, schedule_map, List.filter_map, List.filter_map]
  rfl

end DeploymentRecords.Sorting
