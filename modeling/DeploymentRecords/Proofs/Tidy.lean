import DeploymentRecords.Proofs.Runs
import DeploymentRecords.Text.Lines

/-! # Tidy texts

Tidying looks at lines only. `strip` is the same map read from character to character: it drops
white space in front of a line feed or of the end, so it passes over any part of a text that ends
in something else. -/

namespace DeploymentRecords.Text

/-- The text without white space in front of line feeds and of its end. -/
def strip : Text → Text
  | [] => []
  | c :: s =>
    if isBlank c ∧ c ≠ '\n' ∧ (strip s).headD '\n' = '\n' then strip s else c :: strip s

variable {c : Char} {s t u w : Text}

@[simp] theorem strip_nil : strip [] = [] := rfl

theorem strip_cons (h : isBlank c = false ∨ c = '\n') : strip (c :: s) = c :: strip s := by
  rw [strip, if_neg]
  rintro ⟨hblank, hne, -⟩
  rcases h with h | h
  · rw [hblank] at h
    cases h
  · exact hne h

@[simp] theorem strip_newline : strip ('\n' :: s) = '\n' :: strip s := strip_cons (Or.inr rfl)

/-- White space goes exactly where a line ends behind it. -/
theorem strip_cons_cases (c : Char) (s : Text) : strip (c :: s) = c :: strip s ∨
    isBlank c = true ∧ c ≠ '\n' ∧ strip (c :: s) = strip s ∧ (strip s).headD '\n' = '\n' := by
  by_cases h : isBlank c ∧ c ≠ '\n' ∧ (strip s).headD '\n' = '\n'
  · exact Or.inr ⟨h.1, h.2.1, by rw [strip, if_pos h], h.2.2⟩
  · exact Or.inl (by rw [strip, if_neg h])

theorem strip_blank_newline (h : isBlank c = true) (hc : c ≠ '\n') :
    strip (c :: '\n' :: s) = '\n' :: strip s := by
  rw [strip, if_pos ⟨h, hc, by simp⟩, strip_newline]

/-- What is left at the front but a line feed stood there before. -/
theorem cons_of_strip_eq (h : strip s = c :: t) (hc : c ≠ '\n') : ∃ r, s = c :: r ∧ strip r = t := by
  cases s with
  | nil => cases h
  | cons d s =>
    rcases strip_cons_cases d s with hkeep | ⟨-, -, hdrop, hend⟩
    · rw [hkeep, List.cons.injEq] at h
      exact ⟨s, by rw [h.1], h.2⟩
    · rw [hdrop] at h
      rw [h] at hend
      exact absurd hend hc

theorem stops_strip {p : Char → Bool} (hp : p '\n' = false) (h : Stops p s) : Stops p (strip s) := by
  intro c hc
  by_cases hnewline : c = '\n'
  · rw [hnewline, hp]
  · cases hs : strip s with
    | nil => simp [hs] at hc
    | cons d t =>
      have hd : d = c := by simpa [hs] using hc
      subst hd
      obtain ⟨r, rfl, -⟩ := cons_of_strip_eq hs hnewline
      exact h d rfl

theorem strip_ne_nil (hc : isBlank c = false ∨ c = '\n') : strip (u ++ c :: s) ≠ [] := by
  induction u with
  | nil => simp [strip_cons hc]
  | cons d u ih =>
    rw [List.cons_append]
    rcases strip_cons_cases d (u ++ c :: s) with h | ⟨-, -, h, -⟩
    · simp [h]
    · rw [h]
      exact ih

/-- A text can be stripped in parts if they are parted behind something that stays. -/
theorem strip_append_cons (hc : isBlank c = false ∨ c = '\n') :
    strip (u ++ c :: s) = strip (u ++ [c]) ++ strip s := by
  induction u with
  | nil => simp [strip_cons hc]
  | cons d u ih =>
    obtain ⟨e, t, ht⟩ := List.exists_cons_of_ne_nil (strip_ne_nil (u := u) (s := []) hc)
    simp only [List.cons_append, strip, ih, ht, List.headD_cons]
    split <;> rfl

theorem strip_strip (s : Text) : strip (strip s) = strip s := by
  induction s with
  | nil => rfl
  | cons c s ih =>
    by_cases h : isBlank c ∧ c ≠ '\n' ∧ (strip s).headD '\n' = '\n'
    · rw [strip, if_pos h, ih]
    · rw [strip, if_neg h, strip, ih, if_neg h]

theorem strip_congr (u : Text) (h : strip s = strip t) : strip (u ++ s) = strip (u ++ t) := by
  induction u with
  | nil => exact h
  | cons c u ih => rw [List.cons_append, List.cons_append, strip, strip, ih]

def Ends (w : Text) : Prop := ∃ v c, w = v ++ [c] ∧ isBlank c = false

theorem Ends.strip_append (h : Ends w) (s : Text) : strip (w ++ s) = strip w ++ strip s := by
  obtain ⟨v, c, rfl, hc⟩ := h
  rw [List.append_assoc, List.singleton_append, strip_append_cons (Or.inl hc)]

theorem Ends.append (h : Ends w) (u : Text) : Ends (u ++ w) := by
  obtain ⟨v, c, rfl, hc⟩ := h
  exact ⟨u ++ v, c, by rw [List.append_assoc], hc⟩

theorem Ends.strip (h : Ends w) : Ends (strip w) := by
  obtain ⟨v, c, rfl, hc⟩ := h
  induction v with
  | nil => exact ⟨[], c, strip_cons (Or.inl hc), hc⟩
  | cons d v ih =>
    rw [List.cons_append]
    rcases strip_cons_cases d (v ++ [c]) with hkeep | ⟨-, -, hdrop, -⟩
    · rw [hkeep]
      exact ih.append [d]
    · rw [hdrop]
      exact ih

/-- Texts that are the same once they are stripped, whatever follows them. -/
def Alike (s t : Text) : Prop := ∀ r, strip (s ++ r) = strip (t ++ r)

theorem Alike.refl (s : Text) : Alike s s := fun _ => rfl

theorem Alike.symm (h : Alike s t) : Alike t s := fun r => (h r).symm

theorem Alike.append {s' t' : Text} (h : Alike s s') (h' : Alike t t') : Alike (s ++ t) (s' ++ t') := by
  intro r
  rw [List.append_assoc, List.append_assoc, strip_congr s (h' r), h]

theorem Alike.cons (c : Char) (h : Alike s t) : Alike (c :: s) (c :: t) :=
  Alike.append (Alike.refl [c]) h

theorem Ends.alike (h : Ends w) : Alike w (Text.strip w) := by
  intro r
  rw [h.strip_append, h.strip.strip_append, strip_strip]

structure Solid (w : Text) : Prop where
  oneLine : '\n' ∉ w
  ending : ∀ c, w.getLast? = some c → isBlank c = false

theorem Solid.strip_append (h : Solid w) : strip (w ++ s) = w ++ strip s := by
  induction w with
  | nil => rfl
  | cons c w ih =>
    have hw : Solid w := ⟨fun hm => h.oneLine (List.mem_cons_of_mem c hm), fun d hd =>
      h.ending d (by rw [List.getLast?_cons, hd]; rfl)⟩
    rw [List.cons_append, strip, ih hw, if_neg]
    · rfl
    · rintro ⟨hblank, -, hhead⟩
      cases w with
      | nil => exact absurd (h.ending c rfl) (by simp [hblank])
      | cons d w => exact h.oneLine (by simp [show d = '\n' from hhead])

theorem solid_of_all (h : ∀ c ∈ w, isBlank c = false) : Solid w :=
  ⟨fun hm => absurd (h '\n' hm) (by decide), fun c hc => h c (List.mem_of_getLast? hc)⟩

theorem length_strip_le (u s : Text) : (strip s).length ≤ (strip (u ++ s)).length := by
  induction u with
  | nil => exact Nat.le_refl _
  | cons c u ih =>
    rw [List.cons_append]
    rcases strip_cons_cases c (u ++ s) with h | ⟨-, -, h, -⟩
    · rw [h]
      exact Nat.le_succ_of_le ih
    · rw [h]
      exact ih

def closed (s : Text) : Text := if s.getLast? = some '\n' then s else s ++ ['\n']

theorem closed_cons (hs : s ≠ []) : closed (c :: s) = c :: closed s := by
  obtain ⟨d, s, rfl⟩ := List.exists_cons_of_ne_nil hs
  simp only [closed, List.getLast?_cons_cons, List.cons_append]
  split <;> rfl

theorem closed_append (ht : t ≠ []) : closed (s ++ t) = s ++ closed t := by
  induction s with
  | nil => rfl
  | cons c s ih => rw [List.cons_append, closed_cons (by simp [ht]), ih, List.cons_append]

theorem trimEnd_subset (s : Text) : ∀ c ∈ trimEnd s, c ∈ s := by
  induction s with
  | nil => simp [trimEnd]
  | cons d s ih =>
    intro c hc
    rw [trimEnd] at hc
    split at hc
    · split at hc
      · cases hc
      · simpa using Or.inl (List.mem_singleton.mp hc)
    · rcases List.mem_cons.mp hc with rfl | hc
      · exact List.mem_cons_self
      · exact List.mem_cons_of_mem d (ih c hc)

theorem not_isBlank_of_getLast?_trimEnd (h : (trimEnd s).getLast? = some c) : isBlank c = false := by
  induction s with
  | nil => cases h
  | cons d s ih =>
    rw [trimEnd] at h
    split at h
    · split at h
      · cases h
      · next hd =>
        obtain rfl : d = c := by simpa using h
        simpa using hd
    · next hne =>
      obtain ⟨e, t, ht⟩ := List.exists_cons_of_ne_nil hne
      rw [ht, List.getLast?_cons_cons, ← ht] at h
      exact ih h

theorem trimEnd_eq_self (h : ∀ c, s.getLast? = some c → isBlank c = false) : trimEnd s = s := by
  induction s with
  | nil => rfl
  | cons d s ih =>
    cases s with
    | nil => simp [trimEnd, h d rfl]
    | cons e s =>
      rw [List.getLast?_cons_cons] at h
      rw [trimEnd, ih h]

theorem trimEnd_trimEnd (s : Text) : trimEnd (trimEnd s) = trimEnd s :=
  trimEnd_eq_self fun _ => not_isBlank_of_getLast?_trimEnd

theorem newline_not_mem_lines {l : Text} (h : l ∈ lines s) : '\n' ∉ l := by
  fun_induction lines s generalizing l with
  | case1 => cases h
  | case2 s ih =>
    rcases List.mem_cons.mp h with rfl | h
    · exact List.not_mem_nil
    · exact ih h
  | case3 s ih =>
    rcases List.mem_cons.mp h with rfl | h
    · exact List.not_mem_nil
    · exact ih h
  | case4 c s hc _ _ ih =>
    rw [List.mem_singleton.mp h, List.mem_singleton]
    exact fun e => hc e.symm
  | case5 c s hc _ l' ls heq ih =>
    rcases List.mem_cons.mp h with rfl | h
    · have := ih (l := l') (by simp [heq])
      simp only [List.mem_cons, not_or]
      exact ⟨fun e => hc e.symm, this⟩
    · exact ih (by simp [heq, h])

theorem lines_eq_nil_iff : lines s = [] ↔ s = [] := by
  fun_cases lines s <;> simp [*]

theorem flatMap_lines (hs : s ≠ []) :
    (lines s).flatMap (fun l => trimEnd l ++ ['\n']) = strip (closed s) := by
  fun_induction lines s with
  | case1 => exact absurd rfl hs
  | case2 s ih =>
    by_cases hnil : s = []
    · subst hnil
      rfl
    · rw [List.flatMap_cons, ih hnil, closed_cons hnil, strip_newline]
      rfl
  | case3 s ih =>
    by_cases hnil : s = []
    · subst hnil
      rfl
    · rw [List.flatMap_cons, ih hnil, closed_cons (by simp), closed_cons hnil,
        strip_blank_newline (by decide) (by decide)]
      rfl
  | case4 c s hc _ heq ih =>
    have hnil := lines_eq_nil_iff.mp heq
    subst hnil
    have hne : c ≠ '\n' := hc
    have hclosed : closed [c] = [c, '\n'] := by simp [closed, hne]
    by_cases hblank : isBlank c = true
    · rw [hclosed, strip_blank_newline hblank hne]
      simp [trimEnd, hblank]
    · rw [hclosed, strip_cons (Or.inl (by simpa using hblank))]
      simp [trimEnd, hblank]
  | case5 c s hc _ l ls heq ih =>
    -- the character is dropped just if nothing of its line is left behind it
    have hnil : s ≠ [] := fun e => by simp [e, lines] at heq
    have hne : c ≠ '\n' := hc
    have ih := ih hnil
    rw [heq, List.flatMap_cons] at ih
    have hl : '\n' ∉ l := newline_not_mem_lines (s := s) (by simp [heq])
    rw [closed_cons hnil, strip, ← ih, List.flatMap_cons, trimEnd]
    cases ht : trimEnd l with
    | nil => by_cases hblank : isBlank c = true <;> simp [hblank, hne]
    | cons d t =>
      have hd : d ≠ '\n' := fun e => hl (trimEnd_subset l _ (by simp [ht, e]))
      simp [hd]

theorem tidy_eq (s : Text) : tidy s = strip (closed s) := by
  by_cases hs : s = []
  · subst hs
    rfl
  · rw [← flatMap_lines hs, tidy]
    obtain ⟨l, ls, hlines⟩ := List.exists_cons_of_ne_nil (mt lines_eq_nil_iff.mp hs)
    rw [hlines]
    clear hlines
    induction ls generalizing l with
    | nil => simp [join]
    | cons k ls ih =>
      rw [List.map_cons, List.map_cons, join, List.append_assoc, ← List.map_cons, ih k]
      · simp
      · simp

theorem tidy_tidy (s : Text) : tidy (tidy s) = tidy s := by
  have hclosed : closed (tidy s) = tidy s := if_pos List.getLast?_concat
  rw [tidy_eq (tidy s), hclosed, tidy_eq, strip_strip]

end DeploymentRecords.Text
