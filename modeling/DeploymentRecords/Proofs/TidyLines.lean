import DeploymentRecords.Proofs.PageLines
import DeploymentRecords.Proofs.PhysicalLines

/-! # The lines of a tidy text

A tidy text is a row of lines without white space at their ends, each ended by a line feed, and these are
the lines of the text that it was made of. How the lines of that text end, by a line feed alone, with a
carriage return in front of it, or the last of them with the text, makes no difference. -/

namespace DeploymentRecords.Text

open Toml (Laid)

variable {s t l : Text} {ls ms : List Text}

theorem trimEnd_append_blanks (s : Text) : ∃ blanks, (∀ c ∈ blanks, isBlank c = true) ∧ s = trimEnd s ++ blanks := by
  induction s with
  | nil => exact ⟨[], List.forall_mem_nil _, rfl⟩
  | cons c s ih =>
    obtain ⟨blanks, hblanks, hs⟩ := ih
    rw [trimEnd]
    split
    · next hnil =>
      rw [hnil, List.nil_append] at hs
      split
      · next hc => exact ⟨c :: s, List.forall_mem_cons.mpr ⟨hc, hs ▸ hblanks⟩, rfl⟩
      · exact ⟨s, hs ▸ hblanks, rfl⟩
    · exact ⟨blanks, hblanks, congrArg (c :: ·) hs⟩

theorem solid_trimEnd (h : '\n' ∉ l) : Solid (trimEnd l) where
  oneLine hmem := h (trimEnd_subset l _ hmem)
  ending _ := not_isBlank_of_getLast?_trimEnd

theorem Solid.lines_append (h : Solid l) (s : Text) : lines (l ++ '\n' :: s) = l :: lines s := by
  induction l with
  | nil => rfl
  | cons c l ih =>
    obtain ⟨hc, hl⟩ := not_or.mp (mt List.mem_cons.mpr h.oneLine)
    refine lines_cons (Ne.symm hc) (fun hreturn hhead => ?_) (ih ⟨hl, fun d hd => h.ending d ?_⟩)
    · cases l with
      | nil => exact absurd (h.ending c rfl) (by rw [hreturn]; decide)
      | cons d l => exact hl (by simp [Option.some.inj hhead])
    · rw [List.getLast?_cons, hd]
      rfl

theorem lines_flatMap (h : ∀ l ∈ ls, Solid l) : lines (ls.flatMap fun l => l ++ ['\n']) = ls := by
  induction ls with
  | nil => rfl
  | cons l ls ih =>
    obtain ⟨hl, hls⟩ := List.forall_mem_cons.mp h
    rw [List.flatMap_cons, List.append_assoc, List.singleton_append, hl.lines_append, ih hls]

/-- The lines of a text without the white space at their ends; an empty text has one empty line. -/
def trimmedLines (s : Text) : List Text := if s = [] then [[]] else (lines s).map trimEnd

theorem solid_of_mem_trimmedLines (h : l ∈ trimmedLines s) : Solid l := by
  rw [trimmedLines] at h
  split at h
  · rw [List.mem_singleton.mp h]
    exact solid_of_all (List.forall_mem_nil _)
  · obtain ⟨k, hk, rfl⟩ := List.mem_map.mp h
    exact solid_trimEnd (newline_not_mem_lines hk)

theorem tidy_eq_flatMap (s : Text) : tidy s = (trimmedLines s).flatMap fun l => l ++ ['\n'] := by
  rw [trimmedLines]
  split
  · next hs =>
    rw [hs]
    rfl
  · next hs => rw [tidy_eq, ← flatMap_lines hs, List.flatMap_map]

theorem lines_tidy (s : Text) : lines (tidy s) = trimmedLines s := by
  rw [tidy_eq_flatMap, lines_flatMap fun _ => solid_of_mem_trimmedLines]

/-- Texts of the same lines but for the white space at their ends are tidied alike. -/
theorem tidy_congr (hs : Laid ls s) (ht : Laid ms t) (hls : ∀ l ∈ ls, '\n' ∉ l) (hms : ∀ l ∈ ms, '\n' ∉ l)
    (h : ls.map trimEnd = ms.map trimEnd) : tidy s = tidy t := by
  by_cases hnil : ls = []
  · have hnil' : ms = [] := List.map_eq_nil_iff.mp (by rw [← h, hnil, List.map_nil])
    rw [hs.eq_nil_iff.mpr hnil, ht.eq_nil_iff.mpr hnil']
  · have hnil' : ms ≠ [] := fun e => hnil (List.map_eq_nil_iff.mp (by rw [h, e, List.map_nil]))
    have hmap := congrArg (List.flatMap fun l => l ++ ['\n']) h
    rwa [List.flatMap_map, List.flatMap_map, ← hs.tidy hnil hls, ← ht.tidy hnil' hms] at hmap

/-- A tidy text ends with a line feed, as each of its lines does, none of which ends in white space. Its
lines are those of the text it was made of, as many and in the same order, without the white space at their
ends. Tidying it changes nothing, and all texts of the same lines have the same tidy text. -/
theorem tidy_canonical (s : Text) :
    (tidy s).getLast? = some '\n' ∧
    tidy s = (lines (tidy s)).flatMap (fun l => l ++ ['\n']) ∧
    (∀ l ∈ lines (tidy s), '\n' ∉ l ∧ l.getLast? ≠ some '\r' ∧ ∀ c, l.getLast? = some c → isBlank c = false) ∧
    lines (tidy s) = (if s = [] then [[]] else (lines s).map trimEnd) ∧
    (∀ l ∈ lines s, ∃ blanks, (∀ c ∈ blanks, isBlank c = true) ∧ l = trimEnd l ++ blanks) ∧
    tidy (tidy s) = tidy s ∧
    ∀ ls ms t, Laid ls s → Laid ms t → (∀ l ∈ ls, '\n' ∉ l) → (∀ l ∈ ms, '\n' ∉ l) →
      ls.map trimEnd = ms.map trimEnd → tidy s = tidy t := by
  refine ⟨List.getLast?_concat, ?_, fun l hl => ?_, lines_tidy s, fun l _ => trimEnd_append_blanks l, tidy_tidy s,
    fun ls ms t => tidy_congr⟩
  · rw [lines_tidy]
    exact tidy_eq_flatMap s
  · rw [lines_tidy] at hl
    have hsolid := solid_of_mem_trimmedLines hl
    exact ⟨hsolid.oneLine, fun hreturn => absurd (hsolid.ending '\r' hreturn) (by decide), hsolid.ending⟩

def looseText : Text := "a \r\n\n\t".toList

def evenText : Text := "a\n \r\n\n".toList

theorem tidy_canonical_loose :
    Laid ["a ".toList, [], ['\t']] looseText ∧ Laid [['a'], [' '], []] evenText ∧
    tidy looseText = tidy evenText ∧ tidy looseText = "a\n\n\n".toList := by
  have hloose : Laid ["a ".toList, [], ['\t']] looseText :=
    .line (Or.inr rfl) (.line (Or.inl rfl) (.last (List.cons_ne_nil _ _)))
  have heven : Laid [['a'], [' '], []] evenText :=
    .line (Or.inl rfl) (.line (Or.inr rfl) (.line (Or.inl rfl) .nil))
  exact ⟨hloose, heven,
    (tidy_canonical looseText).2.2.2.2.2.2 _ _ _ hloose heven (by decide) (by decide) (by decide), by decide⟩

end DeploymentRecords.Text
