import DeploymentRecords.Proofs.Recasing

/-! # Pages without regard to letter case

A page in which addresses are spelt in other letter cases lists the same addresses under every
header. -/

namespace DeploymentRecords

open Text Number

namespace Recased

variable {b : Bool} {s t : Text}

theorem stops_takeWhile (p : Char → Bool) (h : Stops isWord s) : Stops isWord (s.takeWhile p) := by
  cases s with
  | nil => exact h
  | cons c s =>
    rw [List.takeWhile_cons]
    split
    · simpa using h
    · simp

theorem line (h : Recased b s t) : Recased b (s.takeWhile (· ≠ '\n')) (t.takeWhile (· ≠ '\n')) := by
  induction h with
  | nil => exact .nil
  | same c _ ih =>
    rw [List.takeWhile_cons, List.takeWhile_cons]
    split
    · exact .same c ih
    · exact .nil
  | mark _ ih => exact .mark ih
  | digit hd _ ih =>
    rw [List.takeWhile_cons_of_pos (by simpa using hd.ne_newline),
      List.takeWhile_cons_of_pos (by simpa using hd.symm.ne_newline)]
    exact .digit hd ih
  | stop hs _ ih => exact .stop (stops_takeWhile _ hs) ih

theorem addressOnLine?_eq (h : Recased b s t) :
    Documentation.addressOnLine? s = Documentation.addressOnLine? t := by
  have hsearch : Option.Rel (· = ·) (Documentation.addressOnLine? s) (Documentation.addressOnLine? t) := by
    refine h.line.search?_rel fun b s t h => ?_
    rcases rel_cases h.read?_rel with ⟨hs, ht⟩ | ⟨p, q, hs, ht, haddress, -⟩
    · rw [hs, ht]
      exact .none
    · rw [hs, ht]
      exact .some haddress
  rcases rel_cases hsearch with ⟨hs, ht⟩ | ⟨_, _, hs, ht, rfl⟩
  · rw [hs, ht]
  · rw [hs, ht]

theorem startsWord_eq (h : Recased b s t) : Documentation.startsWord s = Documentation.startsWord t := by
  rcases h.uncons with ⟨rfl, rfl⟩ | ⟨c, d, s, t, b, rfl, rfl, -, rfl | hcd⟩
  · rfl
  · rfl
  · exact hcd.isWord_left.trans hcd.symm.isWord_left.symm

theorem labels_breaks : ∀ label ∈ Documentation.labels, 'x' ∉ label.name ∧ Breaks label.name := by
  have hchars : Documentation.labels.all (fun label => !label.name.elem 'x' &&
      (label.name.dropWhile isHexDigit).head?.any isWord) = true := by decide +kernel
  intro label hlabel
  have hlabel := List.all_eq_true.mp hchars label hlabel
  rw [Bool.and_eq_true, Bool.not_eq_true'] at hlabel
  obtain ⟨hx, hhead⟩ := hlabel
  obtain ⟨k, hk, hword⟩ := (Option.any_eq_true _ _).mp hhead
  obtain ⟨rest, hrest⟩ := List.head?_eq_some_iff.mp hk
  refine ⟨fun hm => ?_, k, rest, hrest, hword⟩
  rw [List.elem_iff.mpr hm] at hx
  cases hx

theorem label_rel {label : Documentation.Label} (hlabel : label ∈ Documentation.labels) (afterWord : Bool)
    (h : Recased b s t) :
    Option.Rel (Recased false) (label.after? afterWord s) (label.after? afterWord t) := by
  obtain ⟨hx, hbreaks⟩ := labels_breaks label hlabel
  rw [Documentation.Label.after?, Documentation.Label.after?]
  rcases rel_cases (after?_rel hx hbreaks h) with ⟨hs, ht⟩ | ⟨u, v, hs, ht, h⟩
  · rw [hs, ht]
    exact .none
  · simp only [hs, ht, h.startsWord_eq]
    split
    · exact .none
    · exact .some h

theorem addressOf?_eq {label : Documentation.Label} (hlabel : label ∈ Documentation.labels)
    (afterWord : Bool) (h : Recased b s t) :
    Documentation.addressOf? label afterWord s = Documentation.addressOf? label afterWord t := by
  have hhere : ∀ {b s t} afterWord, Recased b s t →
      (label.after? afterWord s).bind Documentation.addressOnLine? =
        (label.after? afterWord t).bind Documentation.addressOnLine? := by
    intro b s t afterWord h
    rcases rel_cases (label_rel hlabel afterWord h) with ⟨hs, ht⟩ | ⟨u, v, hs, ht, h⟩
    · rw [hs, ht]
    · rw [hs, ht]
      exact h.addressOnLine?_eq
  induction h generalizing afterWord with
  | nil => rfl
  | same c h ih =>
    rw [Documentation.addressOf?, Documentation.addressOf?, hhere afterWord (.same c h), ih]
  | mark h ih =>
    rw [Documentation.addressOf?, Documentation.addressOf?, hhere afterWord (.mark h), ih]
  | digit hd h ih =>
    rw [Documentation.addressOf?, Documentation.addressOf?, hhere afterWord (.digit hd h), ih,
      hd.isWord_left, hd.symm.isWord_left]
  | stop _ _ ih => exact ih afterWord

theorem untilSection (h : Recased b s t) :
    Recased b (Documentation.untilSection s) (Documentation.untilSection t) := by
  have hend : ∀ {b s t}, Recased b s t → (Text.after? Documentation.sectionEnd s).isSome =
      (Text.after? Documentation.sectionEnd t).isSome := fun h =>
    rel_isSome (after?_rel_cons (by decide) (isWord_ascii (by decide)) h)
  induction h with
  | nil => exact .nil
  | same c h ih =>
    rw [Documentation.untilSection_cons, Documentation.untilSection_cons, hend (.same c h)]
    split
    · exact .nil
    · exact .same c ih
  | mark h ih =>
    rw [Documentation.untilSection_cons, Documentation.untilSection_cons]
    exact .mark ih
  | @digit s t c d hd h ih =>
    have hno : ∀ {e : Char} {u : Text}, e ≠ '\n' →
        (Text.after? Documentation.sectionEnd (e :: u)).isSome = false := by
      intro e u he
      simp [Documentation.sectionEnd, Text.after?, Ne.symm he]
    rw [Documentation.untilSection_cons, Documentation.untilSection_cons, hno hd.ne_newline,
      hno hd.symm.ne_newline]
    exact .digit hd ih
  | @stop s t hs h ih =>
    refine .stop ?_ ih
    cases s with
    | nil => exact hs
    | cons c s =>
      rw [Documentation.untilSection_cons]
      split
      · simp
      · simpa using hs

theorem afterFolded?_rel (header : Text) (h : Recased b s t) :
    Option.Rel (fun u v => ∃ b', Recased b' u v) (afterFolded? header s) (afterFolded? header t) := by
  induction header generalizing b s t with
  | nil => exact .some ⟨b, h⟩
  | cons e header ih =>
    rcases h.uncons with ⟨rfl, rfl⟩ | ⟨c, d, s, t, b, rfl, rfl, h, hcd⟩
    · exact .none
    have hfold : fold c = fold d := hcd.elim (congrArg fold) SameDigit.fold_eq
    rw [afterFolded?, afterFolded?, hfold]
    split
    · exact ih h
    · exact .none

theorem documentation_eq (header : Text) (h : Recased b s t) :
    Documentation.read s header = Documentation.read t header := by
  rw [Documentation.read_eq, Documentation.read_eq]
  rcases rel_cases (h.search?_rel fun _ _ _ h => afterFolded?_rel header h) with
    ⟨hs, ht⟩ | ⟨u, v, hs, ht, b', h⟩
  · rw [hs, ht]
  · simp only [hs, ht, Option.map_some, Option.getD_some]
    exact Documentation.tableOf_congr fun label hlabel => addressOf?_eq hlabel false h.untilSection

end Recased

end DeploymentRecords
