import DeploymentRecords.Text.Basic

/-! # First places

What a search finds, said without the reader that searches: a part of the text with some property, the
text before it and the text behind it, and no part with the property begins earlier. A text is cut at
the first place of a mark if what stands before it does not hold the mark. -/

namespace DeploymentRecords.Text

section

variable {α : Type} {read : Text → Option α} {s : Text} {a : α}

theorem search?_eq_none (h : search? read s = none) (before rest : Text) (hs : s = before ++ rest) :
    read rest = none := by
  induction s generalizing before with
  | nil =>
    obtain ⟨rfl, rfl⟩ := List.append_eq_nil_iff.mp hs.symm
    exact h
  | cons c s ih =>
    simp only [search?] at h
    split at h
    · cases h
    · next hread =>
      cases before with
      | nil => rw [← hread, hs, List.nil_append]
      | cons d before => exact ih h before (List.cons.inj hs).2

theorem first_of_search? (h : search? read s = some a) :
    ∃ before rest, s = before ++ rest ∧ read rest = some a ∧
      ∀ before' rest' a', s = before' ++ rest' → read rest' = some a' →
        before.length ≤ before'.length := by
  induction s with
  | nil => exact ⟨[], [], rfl, h, by simp⟩
  | cons c s ih =>
    simp only [search?] at h
    split at h
    · next hread => exact ⟨[], c :: s, rfl, by rw [hread, ← h], by simp⟩
    · next hnone =>
      obtain ⟨before, rest, rfl, hread, hfirst⟩ := ih h
      refine ⟨c :: before, rest, rfl, hread, fun before' rest' a' hs hread' => ?_⟩
      cases before' with
      | nil =>
        rw [List.nil_append] at hs
        rw [← hs, hnone] at hread'
        cases hread'
      | cons d before' =>
        have := hfirst before' rest' a' (List.cons.inj hs).2 hread'
        simpa using this

theorem exists_of_search? (h : search? read s = some a) :
    ∃ before rest, s = before ++ rest ∧ read rest = some a := by
  obtain ⟨before, rest, hs, hread, -⟩ := first_of_search? h
  exact ⟨before, rest, hs, hread⟩

theorem search?_of_read (h : read s = some a) : search? read s = some a := by
  cases s with
  | nil => exact h
  | cons c s => rw [search?, h]

theorem search?_map {β : Type} (read : Text → Option α) (f : α → β) (s : Text) :
    search? (fun s => (read s).map f) s = (search? read s).map f := by
  induction s with
  | nil => rfl
  | cons c s ih =>
    rw [search?, search?, ih]
    cases read (c :: s) <;> rfl

theorem search?_append {t : Text} (h : ∀ t₁ t₂, t = t₁ ++ t₂ → t₂ ≠ [] → read (t₂ ++ s) = none) :
    search? read (t ++ s) = search? read s := by
  induction t with
  | nil => rfl
  | cons c t ih =>
    have hread := h [] (c :: t) rfl (by simp)
    rw [List.cons_append] at hread ⊢
    simp only [search?, hread]
    exact ih fun t₁ t₂ ht => h (c :: t₁) t₂ (by simp [ht])

end

/-- `found` is a part of `s` with a property, and no part with it begins farther in front. -/
structure FirstPart (P : Text → Prop) (s before found after : Text) : Prop where
  split : s = before ++ (found ++ after)
  holds : P found
  first : ∀ b f a, s = b ++ (f ++ a) → P f → before.length ≤ b.length

def Lacks (P : Text → Prop) (s : Text) : Prop :=
  ∀ before found after, s = before ++ (found ++ after) → ¬ P found

/-- A reader takes exactly the texts with a property, and makes `out` of what it took and what follows. -/
def Takes {α : Type} (read : Text → Option α) (P : Text → Prop) (out : Text → Text → α) : Prop :=
  ∀ s a, read s = some a ↔ ∃ found after, s = found ++ after ∧ P found ∧ a = out found after

variable {P : Text → Prop} {s before found after mark : Text}

theorem firstPart_front (h : P found) (after : Text) : FirstPart P (found ++ after) [] found after where
  split := rfl
  holds := h
  first := fun b _ _ _ _ => Nat.zero_le b.length

theorem FirstPart.before_unique {before' found' after' : Text} (h : FirstPart P s before found after)
    (h' : FirstPart P s before' found' after') : before = before' ∧ found ++ after = found' ++ after' := by
  have hlength : before.length = before'.length :=
    Nat.le_antisymm (h.first _ _ _ h'.split h'.holds) (h'.first _ _ _ h.split h.holds)
  exact List.append_inj (h.split.symm.trans h'.split) hlength

/-- Where all parts with the property are equally long, what follows the first does not matter. -/
theorem FirstPart.replace_after (h : FirstPart P s before found after)
    (hlength : ∀ f g, P f → P g → f.length = g.length) (after' : Text) :
    FirstPart P (before ++ (found ++ after')) before found after' where
  split := rfl
  holds := h.holds
  first := by
    intro b f a hs hf
    refine Nat.le_of_not_lt fun hlt => ?_
    have hshort : (b ++ f).length ≤ (before ++ found).length := by
      rw [List.length_append, List.length_append, hlength f found hf h.holds]
      omega
    rw [← List.append_assoc, ← List.append_assoc] at hs
    obtain ⟨x, hx⟩ := List.prefix_of_prefix_length_le ⟨a, hs.symm⟩ ⟨after', rfl⟩ hshort
    have hold : s = b ++ (f ++ (x ++ after)) := by
      rw [h.split, ← List.append_assoc, ← hx]
      simp
    exact Nat.not_le_of_lt hlt (h.first b f (x ++ after) hold hf)

namespace Takes

variable {α : Type} {read : Text → Option α} {out : Text → Text → α} {a : α}

theorem read_append (h : Takes read P out) (hfound : P found) (after : Text) :
    read (found ++ after) = some (out found after) := (h _ _).mpr ⟨found, after, rfl, hfound, rfl⟩

theorem search?_eq_none_iff (h : Takes read P out) : search? read s = none ↔ Lacks P s := by
  constructor
  · intro hnone before found after hs hfound
    have := search?_eq_none hnone before (found ++ after) hs
    rw [h.read_append hfound] at this
    cases this
  · intro hlacks
    cases hsearch : search? read s with
    | none => rfl
    | some a =>
      obtain ⟨before, t, hs, hread⟩ := exists_of_search? hsearch
      obtain ⟨found, after, rfl, hfound, -⟩ := (h t a).mp hread
      exact absurd hfound (hlacks before found after hs)

/-- A search ends at the first part that its reader takes. -/
theorem search?_eq_some_iff (h : Takes read P out) : search? read s = some a ↔
    ∃ before found after, FirstPart P s before found after ∧ a = out found after := by
  have hfound : ∀ a, search? read s = some a →
      ∃ before found after, FirstPart P s before found after ∧ a = out found after := by
    intro a hsearch
    obtain ⟨before, t, hs, hread, hfirst⟩ := first_of_search? hsearch
    obtain ⟨found, after, rfl, hfound, rfl⟩ := (h t a).mp hread
    refine ⟨before, found, after, ⟨hs, hfound, fun b f t hs' hf => ?_⟩, rfl⟩
    exact hfirst b (f ++ t) (out f t) hs' (h.read_append hf t)
  constructor
  · exact hfound a
  · rintro ⟨before, found, after, hpart, rfl⟩
    cases hsearch : search? read s with
    | none => exact absurd hpart.holds (h.search?_eq_none_iff.mp hsearch before found after hpart.split)
    | some a' =>
      obtain ⟨before', found', after', hpart', rfl⟩ := hfound a' hsearch
      rw [← h.read_append hpart'.holds, (hpart'.before_unique hpart).2, h.read_append hpart.holds]

theorem exists_first (h : Takes read P out) (hs : ¬ Lacks P s) :
    ∃ before found after, FirstPart P s before found after := by
  obtain ⟨a, ha⟩ := Option.ne_none_iff_exists'.mp (mt h.search?_eq_none_iff.mp hs)
  obtain ⟨before, found, after, hpart, -⟩ := h.search?_eq_some_iff.mp ha
  exact ⟨before, found, after, hpart⟩

/-- A part is the first exactly if the reader takes it and fails at every place in front of it. -/
theorem firstPart_iff {read : Text → Option Text} (h : Takes read P fun _ after => after) :
    FirstPart P s before found after ↔
      s = before ++ (found ++ after) ∧ read found = some [] ∧ ∀ i < before.length, read (s.drop i) = none := by
  constructor
  · intro hpart
    have hread := h.read_append hpart.holds []
    rw [List.append_nil] at hread
    refine ⟨hpart.split, hread, fun i hi => ?_⟩
    cases hread : read (s.drop i) with
    | none => rfl
    | some t =>
      exfalso
      obtain ⟨f, t, hf, hholds, -⟩ := (h _ t).mp hread
      have hlength : (s.take i).length = i := List.length_take_of_le (by
        rw [hpart.split, List.length_append]
        omega)
      have := hpart.first (s.take i) f t (by rw [← hf, List.take_append_drop]) hholds
      omega
  · rintro ⟨rfl, hread, hfail⟩
    obtain ⟨f, t, hf, hholds, ht⟩ := (h found []).mp hread
    have hfound : found = f := by rw [hf, show t = [] from ht.symm, List.append_nil]
    refine ⟨rfl, hfound ▸ hholds, fun b g t hs hg => Nat.le_of_not_lt fun hlt => ?_⟩
    have hnone := hfail b.length hlt
    rw [hs, List.drop_left, h.read_append hg] at hnone
    cases hnone

end Takes

theorem isSome_cut? (mark s : Text) : (cut? mark s).isSome = contains mark s := by
  induction s with
  | nil => exact Option.isSome_map
  | cons c s ih =>
    rw [cut?, contains, search?]
    cases after? mark (c :: s) with
    | some rest => rfl
    | none => exact Option.isSome_map.trans ih

theorem cut?_eq_none_iff : cut? mark s = none ↔ contains mark s = false := by
  rw [← isSome_cut?, Option.isSome_eq_false_iff, Option.isNone_iff_eq_none]

theorem not_contains_of_not_mem {d : Char} (hd : d ∈ mark) (h : d ∉ s) : contains mark s = false := by
  cases hcontains : contains mark s with
  | false => rfl
  | true =>
    obtain ⟨before, after, rfl⟩ := contains_iff.mp hcontains
    simp [hd] at h

theorem cut?_append {a : Text}
    (h : ∀ a₁ a₂, a = a₁ ++ a₂ → a₂ ≠ [] → after? mark (a₂ ++ (mark ++ s)) = none) :
    cut? mark (a ++ (mark ++ s)) = some (a, s) := by
  induction a with
  | nil =>
    cases hm : mark ++ s with
    | nil =>
      obtain ⟨rfl, rfl⟩ := List.append_eq_nil_iff.mp hm
      rfl
    | cons c t =>
      have := after?_append mark s
      rw [hm] at this
      simp [cut?, this]
  | cons c a ih =>
    have hc := h [] (c :: a) rfl (by simp)
    rw [List.cons_append] at hc ⊢
    rw [cut?, hc, ih fun a₁ a₂ ha => h (c :: a₁) a₂ (by simp [ha])]
    rfl

theorem not_contains_of_cut? (hne : mark ≠ []) (h : cut? mark s = some (before, after)) :
    contains mark before = false := by
  have hnil : after? mark [] = none := by
    obtain ⟨d, mark, rfl⟩ := List.exists_cons_of_ne_nil hne
    rfl
  induction s generalizing before with
  | nil => simp [cut?, hnil] at h
  | cons c s ih =>
    rw [cut?] at h
    split at h
    · obtain ⟨rfl, -⟩ := Prod.mk.inj (Option.some.inj h)
      rw [contains, search?, hnil]
      rfl
    · next hnone =>
      obtain ⟨⟨b, r⟩, hcut, he⟩ := Option.map_eq_some_iff.mp h
      obtain ⟨rfl, rfl⟩ := Prod.mk.inj he
      have hhere : after? mark (c :: b) = none := by
        cases hread : after? mark (c :: b) with
        | none => rfl
        | some t =>
          have hb : c :: b = mark ++ t := after?_eq_some_iff.mp hread
          have hs : c :: s = mark ++ (t ++ (mark ++ r)) := by
            rw [eq_of_cut? hcut, ← List.append_assoc mark t, ← hb]
            simp
          rw [after?_eq_some_iff.mpr hs] at hnone
          cases hnone
      rw [contains, search?, hhere]
      exact ih hcut

/-- A mark that does not come back to its first character is found behind any text without it. -/
theorem cut?_eq_some_iff {d : Char} (hd : d ∉ mark) : cut? (d :: mark) s = some (before, after) ↔
    s = before ++ (d :: mark ++ after) ∧ contains (d :: mark) before = false := by
  constructor
  · intro h
    refine ⟨?_, not_contains_of_cut? (List.cons_ne_nil d mark) h⟩
    rw [eq_of_cut? h, List.append_assoc]
  · rintro ⟨rfl, hquiet⟩
    refine cut?_append fun x y hxy hy => ?_
    cases hread : after? (d :: mark) (y ++ (d :: mark ++ after)) with
    | none => rfl
    | some t =>
      exfalso
      -- the mark would begin in `y`: it ends there as well, or its first character comes again
      obtain ⟨z, hz⟩ : ∃ z, y = d :: mark ++ z := by
        have he := (after?_eq_some_iff.mp hread).symm
        rcases List.append_eq_append_iff.mp he with ⟨z, hy, -⟩ | ⟨z, hmark, hz⟩
        · exact ⟨z, hy⟩
        · obtain ⟨e, y, rfl⟩ := List.exists_cons_of_ne_nil hy
          cases z with
          | nil => exact ⟨[], by rw [hmark, List.append_nil, List.append_nil]⟩
          | cons e' z =>
            have hback : d ∈ mark := by
              rw [(List.cons.inj hmark).2, ← (List.cons.inj hz).1]
              simp
            exact absurd hback hd
      rw [contains_iff.mpr ⟨x, z, by rw [hxy, hz, List.append_assoc]⟩] at hquiet
      cases hquiet

end DeploymentRecords.Text
