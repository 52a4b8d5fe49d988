import DeploymentRecords.Proofs.Gaps

/-! # Texts by their lines

A text is laid out in lines, each ended by a line feed with or without a carriage return before it;
the last line may end with the text. Tidying makes every such text of the same lines the same. -/

namespace DeploymentRecords.Toml

open Text

inductive Ended : List Text → Text → Prop
  | nil : Ended [] []
  | line {l n s : Text} {ls : List Text} : IsNewline n → Ended ls s → Ended (l :: ls) (l ++ (n ++ s))

/-- The text has these lines; an empty line is always ended. -/
inductive Laid : List Text → Text → Prop
  | nil : Laid [] []
  | last {l : Text} : l ≠ [] → Laid [l] l
  | line {l n s : Text} {ls : List Text} : IsNewline n → Laid ls s → Laid (l :: ls) (l ++ (n ++ s))

variable {ls ms : List Text} {l n s t : Text}

theorem Ended.laid (h : Ended ls s) (hs : Laid ms t) : Laid (ls ++ ms) (s ++ t) := by
  induction h with
  | nil => exact hs
  | line hn _ ih =>
    rw [List.append_assoc, List.append_assoc]
    exact .line hn ih

theorem Ended.append (h : Ended ls s) (hs : Ended ms t) : Ended (ls ++ ms) (s ++ t) := by
  induction h with
  | nil => exact hs
  | line hn _ ih =>
    rw [List.append_assoc, List.append_assoc]
    exact .line hn ih

theorem ended_line (l : Text) : Ended [l] (l ++ ['\n']) := .line (Or.inl rfl) .nil

theorem Laid.eq_nil_iff (h : Laid ls s) : s = [] ↔ ls = [] := by
  cases h with
  | nil => exact iff_of_true rfl rfl
  | last hl => exact iff_of_false hl (by simp)
  | line hn _ =>
    refine iff_of_false ?_ (by simp)
    rcases hn with rfl | rfl <;> simp

theorem Laid.cons_inv (h : Laid (l :: ls) s) : ∃ e r, s = l ++ e ∧ LineEnd e r ∧ Laid ls r := by
  cases h with
  | last => exact ⟨[], [], (List.append_nil _).symm, Or.inr ⟨rfl, rfl⟩, .nil⟩
  | line hn h => exact ⟨_, _, rfl, Or.inl ⟨_, hn, rfl⟩, h⟩

/-- In front of another line every line is ended. -/
theorem Laid.append_inv (h : Laid (ls ++ ms) s) (hms : ms ≠ []) :
    ∃ u v, s = u ++ v ∧ Ended ls u ∧ Laid ms v := by
  induction ls generalizing s with
  | nil => exact ⟨[], s, rfl, .nil, h⟩
  | cons l ls ih =>
    obtain ⟨e, r, rfl, hend, hlaid⟩ := h.cons_inv
    obtain ⟨u, v, rfl, hu, hv⟩ := ih hlaid
    rcases hend with ⟨n, hn, rfl⟩ | ⟨-, hnil⟩
    · exact ⟨l ++ (n ++ u), v, by simp, .line hn hu, hv⟩
    · exact absurd (hv.eq_nil_iff.mp (List.append_eq_nil_iff.mp hnil).2) hms

theorem Ended.gap (h : Ended ls s) (hls : ∀ l ∈ ls, Trail l) : Gap s := by
  induction h with
  | nil => exact .nil
  | line hn _ ih =>
    obtain ⟨hl, htail⟩ := List.forall_mem_cons.mp hls
    obtain ⟨b, w, hb, rfl, rfl | ⟨v, rfl, hv⟩⟩ := hl
    · rw [List.append_nil]
      exact hb.gap.append (.line hn (ih htail))
    · rw [List.append_assoc, List.cons_append]
      exact hb.gap.append (.remark hv hn (ih htail))

theorem Laid.afterGap_eq_nil (h : Laid ls s) (hls : ∀ l ∈ ls, Trail l) : afterGap s = [] := by
  induction h with
  | nil => rfl
  | last _ =>
    obtain ⟨b, w, hb, rfl, hw⟩ := hls _ List.mem_cons_self
    rw [hb.gap.afterGap_append]
    rcases hw with rfl | ⟨v, rfl, hv⟩
    · rfl
    · rw [afterGap.eq_5]
      exact afterComment_printable hv
  | line hn _ ih =>
    obtain ⟨hl, htail⟩ := List.forall_mem_cons.mp hls
    have hgap := (Ended.line hn .nil).gap (List.forall_mem_singleton.mpr hl)
    rw [List.append_nil] at hgap
    rw [← List.append_assoc, hgap.afterGap_append, ih htail]

theorem strip_ended_line (hl : '\n' ∉ l) (hn : IsNewline n) (s : Text) :
    strip (l ++ (n ++ s)) = trimEnd l ++ '\n' :: strip s := by
  induction l with
  | nil => exact strip_spaces_newline (b := []) (by simp) hn s
  | cons c l ih =>
    obtain ⟨hc, hl⟩ := not_or.mp (mt List.mem_cons.mpr hl)
    have ih := ih hl
    rw [List.cons_append, strip, ih, trimEnd]
    cases ht : trimEnd l with
    | nil =>
      by_cases hblank : isBlank c = true
      · simp [hblank, Ne.symm hc]
      · simp [hblank]
    | cons d t =>
      have hd : d ≠ '\n' := fun e => hl (trimEnd_subset l '\n' (by simp [ht, e]))
      simp [hd]

/-- Tidying cuts the ends of the lines and ends each of them with a line feed. -/
theorem Laid.tidy (h : Laid ls s) (hls : ls ≠ []) (hline : ∀ l ∈ ls, '\n' ∉ l) :
    Text.tidy s = ls.flatMap fun l => trimEnd l ++ ['\n'] := by
  rw [tidy_eq]
  induction h with
  | nil => exact absurd rfl hls
  | @last l hl =>
    have hnewline := hline l List.mem_cons_self
    have hclosed : closed l = l ++ (['\n'] ++ []) := by
      rw [closed, if_neg fun he => hnewline (List.mem_of_getLast? he), List.append_nil]
    rw [hclosed, strip_ended_line hnewline (Or.inl rfl)]
    simp
  | @line l n s ls hn h ih =>
    obtain ⟨hl, hline⟩ := List.forall_mem_cons.mp hline
    have hclosed : closed (l ++ (n ++ s)) = l ++ (n ++ if s = [] then [] else closed s) := by
      split
      · next hs =>
        subst hs
        rcases hn with rfl | rfl <;> simp [closed]
      · next hs => rw [← List.append_assoc, closed_append hs, List.append_assoc]
    rw [hclosed, strip_ended_line hl hn, List.flatMap_cons]
    split
    · next hs =>
      rw [h.eq_nil_iff.mp hs]
      simp
    · next hs =>
      rw [ih (mt h.eq_nil_iff.mpr hs) hline]
      simp

end DeploymentRecords.Toml
