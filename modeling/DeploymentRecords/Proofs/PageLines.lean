import DeploymentRecords.Proofs.SourceFields
import DeploymentRecords.Proofs.Tidy

/-! # Pages by their lines

No header and no label holds a line feed, so a page can be searched line by line: what is found in
front of a line feed does not depend on what follows it, and otherwise the search begins anew behind
it. Three equations say this of a search, of the end of a section and of the address of a label;
nothing else about the readers of a page is used where pages are compared. -/

namespace DeploymentRecords

namespace Text

/-- A reader never takes `d`: it makes the same of a text in front of `d`, whatever follows. -/
def Local (d : Char) (read : Text → Option Text) : Prop :=
  ∀ s t, read (s ++ d :: t) = (read s).map (· ++ d :: t)

variable {d : Char} {mark header s : Text} {read : Text → Option Text}

theorem isWord_ascii {c : Char} (h : c.toNat < 128) : isWord c = (c.isAlphanum || c = '_') :=
  ascii_forall (p := fun c => isWord c = (c.isAlphanum || c = '_')) (by decide +kernel) h

theorem local_after? (h : d ∉ mark) : Local d (after? mark) := by
  intro s t
  induction mark generalizing s with
  | nil => rfl
  | cons c mark ih =>
    simp only [List.mem_cons, not_or] at h
    cases s with
    | nil => simp [after?, Ne.symm h.1]
    | cons e s =>
      by_cases hce : c = e
      · simpa [after?, hce] using ih h.2 s
      · simp [after?, hce]

theorem local_afterFolded? (h : ∀ c ∈ header, fold c ≠ fold d) : Local d (afterFolded? header) := by
  intro s t
  induction header generalizing s with
  | nil => rfl
  | cons c header ih =>
    rw [List.forall_mem_cons] at h
    cases s with
    | nil => simp [afterFolded?, h.1]
    | cons e s =>
      by_cases hce : fold c = fold e
      · simpa [afterFolded?, hce] using ih h.2 s
      · simp [afterFolded?, hce]

/-- A search goes on behind a character that its reader never takes. -/
theorem Local.search? (h : Local d read) (hnil : read [] = none) (s t : Text) :
    search? read (s ++ d :: t) = ((search? read s).map (· ++ d :: t)).or (search? read t) := by
  induction s with
  | nil =>
    have hd : read (d :: t) = none := by simpa [hnil] using h [] t
    simp [Text.search?, hd, hnil]
  | cons c s ih =>
    rw [List.cons_append, Text.search?, Text.search?, ← List.cons_append, h (c :: s) t]
    cases read (c :: s) with
    | none => exact ih
    | some rest => rfl

theorem contains_append_cons (hd : d ∉ mark) (hne : mark ≠ []) (s t : Text) :
    contains mark (s ++ d :: t) = (contains mark s || contains mark t) := by
  have hnil : after? mark [] = none := by
    obtain ⟨c, mark, rfl⟩ := List.exists_cons_of_ne_nil hne
    rfl
  rw [contains, (local_after? hd).search? hnil]
  cases hs : search? (after? mark) s <;> simp [contains, hs]

/-- What lies behind the first occurrence of a folded text. -/
theorem afterFolded?_eq_some {s rest : Text} (h : afterFolded? header s = some rest) :
    ∃ found, s = found ++ rest ∧ found.map fold = header.map fold := by
  induction header generalizing s with
  | nil => exact ⟨[], Option.some.inj h, rfl⟩
  | cons c header ih =>
    cases s with
    | nil => cases h
    | cons e s =>
      rw [afterFolded?] at h
      split at h
      · next hce =>
        obtain ⟨found, rfl, hfound⟩ := ih h
        exact ⟨e :: found, rfl, by rw [List.map_cons, List.map_cons, hfound, hce]⟩
      · cases h

theorem afterFolded?_append {found : Text} (h : found.map fold = header.map fold) (s : Text) :
    afterFolded? header (found ++ s) = some s := by
  induction header generalizing found with
  | nil =>
    obtain rfl : found = [] := by simpa using h
    rfl
  | cons c header ih =>
    obtain ⟨d, found, rfl, hd, hfound⟩ := List.map_eq_cons_iff.mp h
    rw [List.cons_append, afterFolded?, if_pos hd.symm, ih hfound]

/-- A text that matches a header character by character, letter case aside. -/
def Titles (header found : Text) : Prop := found.map fold = header.map fold

theorem Titles.length_eq {found found' : Text} (h : Titles header found) (h' : Titles header found') :
    found.length = found'.length := by
  have := congrArg List.length (h.trans h'.symm)
  simpa using this

theorem takes_afterFolded? (header : Text) :
    Takes (afterFolded? header) (Titles header) fun _ after => after := by
  intro s rest
  constructor
  · intro hread
    obtain ⟨found, hs, hfound⟩ := afterFolded?_eq_some hread
    exact ⟨found, rest, hs, hfound, rfl⟩
  · rintro ⟨found, _, rfl, hfound, rfl⟩
    exact afterFolded?_append hfound rest

def HoldsFolded (header s : Text) : Prop :=
  ∃ before found after, s = before ++ (found ++ after) ∧ found.map fold = header.map fold

theorem holdsFolded_iff : HoldsFolded header s ↔ (search? (afterFolded? header) s).isSome := by
  rw [Option.isSome_iff_ne_none, ne_eq, (takes_afterFolded? header).search?_eq_none_iff]
  constructor
  · rintro ⟨before, found, after, hs, hfound⟩ hlacks
    exact hlacks before found after hs hfound
  · intro hholds
    obtain ⟨before, found, after, hpart⟩ := (takes_afterFolded? header).exists_first hholds
    exact ⟨before, found, after, hpart.split, hpart.holds⟩

instance : Decidable (HoldsFolded header s) := decidable_of_iff _ holdsFolded_iff.symm

theorem afterFolded?_nil (h : header ≠ []) : afterFolded? header [] = none := by
  obtain ⟨c, header, rfl⟩ := List.exists_cons_of_ne_nil h
  rfl

/-- Only letters have another character as their folding. -/
theorem foldRuns_image : ∀ run ∈ foldRuns, 0x41 ≤ run.image := by decide +kernel

theorem eq_of_fold_eq {c : Char} (hpos : 0 < d.toNat) (hlow : d.toNat < 0x41)
    (hd : fold d = d) (h : fold c = fold d) : c = d := by
  rw [hd, fold] at h
  cases hi : imageOf? c.toNat foldRuns with
  | none => simpa [hi] using h
  | some m =>
    exfalso
    obtain ⟨run, hr, -, -, hm⟩ := imageOf?_some hi
    have himage := foldRuns_image run hr
    have hmd : Char.ofNat m = d := by simpa [hi] using h
    have hmv := toNat_of_ofNat_eq hmd
    omega

theorem fold_newline {c : Char} (h : fold c = fold '\n') : c = '\n' :=
  eq_of_fold_eq (by decide) (by decide) (by decide +kernel) h

theorem lines_cons {c : Char} {s l : Text} {ls : List Text} (hc : c ≠ '\n')
    (hs : c = '\r' → s.head? ≠ some '\n') (h : lines s = l :: ls) :
    lines (c :: s) = (c :: l) :: ls := by
  cases s with
  | nil => cases h
  | cons e s =>
    by_cases hr : c = '\r'
    · have he : e ≠ '\n' := fun he => hs hr (by rw [he]; rfl)
      simp [lines, hr, he, h]
    · simp [lines, hr, h]

theorem lines_append_newline (s t : Text) :
    lines (s ++ '\n' :: t) = lines (s ++ ['\n']) ++ lines t := by
  fun_induction lines s with
  | case1 => rfl
  | case2 s ih => simpa [lines] using ih
  | case3 s ih => simpa [lines] using ih
  | case4 c s hc hcr heq ih =>
    obtain rfl := lines_eq_nil_iff.mp heq
    by_cases hr : c = '\r'
    · subst hr
      rfl
    · simp [lines, hr]
  | case5 c s hc hcr l ls heq ih =>
    have hne : s ≠ [] := fun h => by simp [h, lines] at heq
    obtain ⟨e, s, rfl⟩ := List.exists_cons_of_ne_nil hne
    have hstop : ∀ u, c = '\r' → (e :: s ++ u).head? ≠ some '\n' := by
      intro u hr he
      exact hcr s hr (by rw [Option.some.inj he])
    obtain ⟨k, ks, hk⟩ := List.exists_cons_of_ne_nil
      (mt lines_eq_nil_iff.mp (List.append_ne_nil_of_left_ne_nil hne ['\n']))
    rw [hk] at ih
    rw [List.cons_append, lines_cons hc (hstop _) ih, List.cons_append, lines_cons hc (hstop _) hk]
    rfl

theorem prefix_of_lines {l : Text} {ls : List Text} (h : lines s = l :: ls) : ∃ t, s = l ++ t := by
  fun_induction lines s generalizing l ls with
  | case1 => cases h
  | case2 s ih => exact ⟨_, by rw [← (List.cons.inj h).1]; rfl⟩
  | case3 s ih => exact ⟨_, by rw [← (List.cons.inj h).1]; rfl⟩
  | case4 c s _ _ heq => exact ⟨s, by rw [← (List.cons.inj h).1]; rfl⟩
  | case5 c s _ _ k ks heq ih =>
    obtain ⟨t, rfl⟩ := ih heq
    exact ⟨t, by rw [← (List.cons.inj h).1]; rfl⟩

theorem infix_of_mem_lines {l : Text} (h : l ∈ lines s) : ∃ before after, s = before ++ l ++ after := by
  fun_induction lines s generalizing l with
  | case1 => cases h
  | case2 s ih =>
    rcases List.mem_cons.mp h with rfl | h
    · exact ⟨[], '\n' :: s, rfl⟩
    · obtain ⟨before, after, hs⟩ := ih h
      exact ⟨'\n' :: before, after, by rw [List.cons_append, List.cons_append, ← hs]⟩
  | case3 s ih =>
    rcases List.mem_cons.mp h with rfl | h
    · exact ⟨[], '\r' :: '\n' :: s, rfl⟩
    · obtain ⟨before, after, hs⟩ := ih h
      exact ⟨'\r' :: '\n' :: before, after, by
        rw [List.cons_append, List.cons_append, List.cons_append, List.cons_append, ← hs]⟩
  | case4 c s _ _ heq =>
    obtain rfl := List.mem_singleton.mp h
    exact ⟨[], s, rfl⟩
  | case5 c s _ _ k ks heq ih =>
    rcases List.mem_cons.mp h with rfl | h
    · obtain ⟨t, rfl⟩ := prefix_of_lines heq
      exact ⟨[], t, rfl⟩
    · obtain ⟨before, after, hs⟩ := ih (by rw [heq]; exact List.mem_cons_of_mem k h)
      exact ⟨c :: before, after, by rw [List.cons_append, List.cons_append, ← hs]⟩

end Text

namespace Documentation

open Text

variable {label : Label} {header s t : Text}

theorem labels_oneLine : ∀ label ∈ labels, label.name ≠ [] ∧ '\n' ∉ label.name := by decide

theorem startsWord_append (s t : Text) : startsWord (s ++ '\n' :: t) = startsWord s := by
  cases s with
  | nil => exact isWord_ascii (by decide : '\n'.toNat < 128)
  | cons c s => rfl

theorem Label.after?_append (h : '\n' ∉ label.name) (b : Bool) (s t : Text) :
    label.after? b (s ++ '\n' :: t) = (label.after? b s).map (· ++ '\n' :: t) := by
  simp only [Label.after?, local_after? h s t]
  cases Text.after? label.name s with
  | none => rfl
  | some rest =>
    simp only [Option.map_some, startsWord_append]
    split <;> rfl

theorem addressOnLine?_append (s t : Text) : addressOnLine? (s ++ '\n' :: t) = addressOnLine? s := by
  have hline : (s ++ '\n' :: t).takeWhile (· ≠ '\n') = s.takeWhile (· ≠ '\n') := by
    induction s with
    | nil => rfl
    | cons c s ih => simp only [List.cons_append, List.takeWhile_cons, ih]
  rw [addressOnLine?, addressOnLine?, hline]

/-- The address of a label is the one on the first line that has one. -/
theorem addressOf?_append (hlabel : label ∈ labels) (b : Bool) (s t : Text) :
    addressOf? label b (s ++ '\n' :: t) = (addressOf? label b s).or (addressOf? label false t) := by
  obtain ⟨hne, hname⟩ := labels_oneLine label hlabel
  have hnil : Text.after? label.name [] = none := by
    obtain ⟨c, name, hcons⟩ := List.exists_cons_of_ne_nil hne
    rw [hcons]
    rfl
  induction s generalizing b with
  | nil =>
    have hnone : label.after? b ('\n' :: t) = none := by
      simpa [Label.after?, hnil] using Label.after?_append hname b [] t
    have hword : isWord '\n' = false := isWord_ascii (by decide)
    simp only [List.nil_append, addressOf?, hnone, Option.bind_none, hword, Option.none_or]
  | cons c s ih =>
    have hhere : (label.after? b (c :: (s ++ '\n' :: t))).bind addressOnLine? =
        (label.after? b (c :: s)).bind addressOnLine? := by
      rw [← List.cons_append, Label.after?_append hname]
      cases label.after? b (c :: s) with
      | none => rfl
      | some rest => exact addressOnLine?_append rest t
    rw [List.cons_append, addressOf?, addressOf?, hhere]
    cases (label.after? b (c :: s)).bind addressOnLine? with
    | none => exact ih _
    | some address => rfl

def untilSection (s : Text) : Text :=
  match cut? sectionEnd s with
  | some (inside, _) => inside
  | none => s

theorem untilSection_cons (c : Char) (s : Text) : untilSection (c :: s) =
    if (Text.after? sectionEnd (c :: s)).isSome then [] else c :: untilSection s := by
  rw [untilSection, cut?]
  cases Text.after? sectionEnd (c :: s) with
  | some rest => rfl
  | none =>
    rw [untilSection]
    cases cut? sectionEnd s <;> rfl

/-- A section ends in front of a line feed behind which a heading begins. -/
theorem untilSection_append (s t : Text) : untilSection (s ++ '\n' :: t) =
    if (cut? sectionEnd s).isSome then untilSection s
    else if (Text.after? "###".toList t).isSome then s else s ++ '\n' :: untilSection t := by
  induction s with
  | nil =>
    rw [List.nil_append, untilSection_cons]
    rfl
  | cons c s ih =>
    have hhere : (Text.after? sectionEnd (c :: (s ++ '\n' :: t))).isSome =
        (Text.after? sectionEnd (c :: s)).isSome := by
      have hlocal : Text.after? "###".toList (s ++ '\n' :: t) =
          (Text.after? "###".toList s).map (· ++ '\n' :: t) := local_after? (by decide) s t
      simp only [String.reduceToList] at hlocal
      simp only [sectionEnd, String.reduceToList, Text.after?, hlocal]
      split
      · exact Option.isSome_map
      · rfl
    rw [List.cons_append, untilSection_cons, hhere, ih, untilSection_cons, cut?]
    cases Text.after? sectionEnd (c :: s) with
    | some rest => simp
    | none =>
      simp only [Option.isSome_none, Bool.false_eq_true, if_false, Option.isSome_map]
      split
      · rfl
      · split <;> rfl

theorem section?_eq (content header : Text) : section? content header =
    (search? (afterFolded? header) content).map untilSection := rfl

def tableOf (inside : Text) : AddressTable :=
  AddressTable.ofList (labels.map fun label =>
    (label.field, (addressOf? label false inside).getD []))

theorem read_eq (content header : Text) : read content header =
    ((search? (afterFolded? header) content).map fun rest => tableOf (untilSection rest)).getD [] := by
  rw [read, section?_eq]
  cases search? (afterFolded? header) content with
  | none => rfl
  | some rest => rw [Option.map_some, Option.map_some, Option.getD_some, tableOf]

theorem tableOf_congr
    (h : ∀ label ∈ labels, addressOf? label false s = addressOf? label false t) :
    tableOf s = tableOf t := by
  rw [tableOf, tableOf]
  congr 1
  exact List.map_congr_left fun label hlabel => by rw [h label hlabel]

/-- The search for a header goes on behind a line without it. -/
theorem search?_header (hne : header ≠ []) (hline : '\n' ∉ header) (s t : Text) :
    search? (afterFolded? header) (s ++ '\n' :: t) =
      ((search? (afterFolded? header) s).map (· ++ '\n' :: t)).or
        (search? (afterFolded? header) t) := by
  refine (local_afterFolded? fun c hc hfold => ?_).search? (afterFolded?_nil hne) s t
  exact hline (fold_newline hfold ▸ hc)

theorem placeholders_eq_nil (h : contains "TODO".toList s = false) : placeholders s = [] := by
  refine List.filter_eq_nil_iff.mpr fun l hl hmark => ?_
  obtain ⟨before, after, rfl⟩ := infix_of_mem_lines hl
  obtain ⟨u, v, rfl⟩ := contains_iff.mp hmark
  rw [contains_iff.mpr ⟨before ++ u, v ++ after, by simp [placeholderMark]⟩] at h
  cases h

end Documentation

end DeploymentRecords
