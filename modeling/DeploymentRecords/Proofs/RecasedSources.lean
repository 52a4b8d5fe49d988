import DeploymentRecords.Proofs.Recasing

/-! # Source files without regard to letter case

A source file in which addresses are spelt in other letter cases gives every constant the same
addresses. -/

namespace DeploymentRecords

open Text Number

def SourceTable.addressed (s : Text) : List (Text × Text) :=
  (fields s).map fun (name, value) => (name, addressIn value)

namespace Recased

variable {b : Bool} {s t : Text}

theorem upperRuns_image : ∀ run ∈ upperRuns,
    0x78 < run.image ∨ run.image + (run.last - run.first) < 0x78 := by decide +kernel

theorem longUppers_image : ∀ p ∈ longUppers, ∀ n ∈ p.2, Char.ofNat n ≠ 'x' := by decide +kernel

theorem mark_not_mem_upper (s : Text) : 'x' ∉ upper s := by
  intro h
  obtain ⟨c, -, hc⟩ := List.mem_flatMap.mp h
  unfold upperChar at hc
  split at hc
  · next ns hlong =>
    obtain ⟨n, hn, hx⟩ := List.mem_map.mp hc
    obtain ⟨before, after, hsplit, -⟩ := List.lookup_eq_some_iff.mp hlong
    exact longUppers_image (c.toNat, ns) (by rw [hsplit]; simp) n hn hx
  · rw [List.mem_singleton] at hc
    cases hi : imageOf? c.toNat upperRuns with
    | none =>
      have hx : c = 'x' := by simpa [hi] using hc.symm
      subst hx
      exact absurd hi (by decide)
    | some m =>
      obtain ⟨run, hr, hlow, hhigh, hm⟩ := imageOf?_some hi
      have himage := upperRuns_image run hr
      have hmx : Char.ofNat m = 'x' := by simpa [hi] using hc.symm
      have hvalue : m = 0x78 := by
        by_cases hvalid : m.isValidChar
        · rw [Char.ofNat, dif_pos hvalid] at hmx
          exact congrArg Char.toNat hmx
        · rw [Char.ofNat, dif_neg hvalid] at hmx
          exact absurd hmx (by decide)
      omega

theorem skipBlanks (h : Recased false s t) :
    Recased false (SourceTable.skipBlanks s) (SourceTable.skipBlanks t) := by
  generalize hb : false = b at h
  induction h with
  | nil => exact .nil
  | same c h ih =>
    rw [SourceTable.skipBlanks, SourceTable.skipBlanks, List.dropWhile_cons, List.dropWhile_cons]
    split
    · exact ih rfl
    · exact .same c (hb ▸ h)
  | mark h => exact .mark h
  | digit => cases hb
  | stop => cases hb

theorem afterTokens?_rel {tokens : List Text} (hx : ∀ token ∈ tokens, 'x' ∉ token)
    (h : Recased false s t) : Option.Rel (Recased false) (SourceTable.afterTokens? tokens s)
      (SourceTable.afterTokens? tokens t) := by
  induction tokens generalizing s t with
  | nil => exact .some h
  | cons token tokens ih =>
    rw [List.forall_mem_cons] at hx
    exact rel_bind (after?_congr hx.1 h.skipBlanks) fun _ _ h => ih hx.2 h

theorem afterHead?_rel (constant : Text) (h : Recased b s t) : Option.Rel (Recased false)
    (SourceTable.afterHead? (upper constant) s) (SourceTable.afterHead? (upper constant) t) := by
  have hx : 'x' ∉ "pub const ".toList ++ upper constant := by
    rw [List.mem_append, not_or]
    exact ⟨by decide, mark_not_mem_upper constant⟩
  have hbreaks : Breaks ("pub const ".toList ++ upper constant) := ⟨'p', _, rfl, isWord_ascii (by decide)⟩
  exact rel_bind (after?_rel hx hbreaks h) fun _ _ h => afterTokens?_rel (by decide) h

/-- Texts are cut at the same place if the mark begins outside of words. -/
theorem cut?_rel {k : Char} {mark : Text} (hx : 'x' ∉ k :: mark) (hk : isWord k = false)
    (h : Recased b s t) : Option.Rel (fun p q => Recased b p.1 q.1 ∧ Recased false p.2 q.2)
      (cut? (k :: mark) s) (cut? (k :: mark) t) := by
  have hcons : ∀ {b b' c d s t}, (∀ {u v}, Recased b u v → Recased b' (c :: u) (d :: v)) →
      after? (k :: mark) (c :: s) = none → after? (k :: mark) (d :: t) = none →
      Option.Rel (fun p q => Recased b p.1 q.1 ∧ Recased false p.2 q.2) (cut? (k :: mark) s)
        (cut? (k :: mark) t) →
      Option.Rel (fun p q => Recased b' p.1 q.1 ∧ Recased false p.2 q.2) (cut? (k :: mark) (c :: s))
        (cut? (k :: mark) (d :: t)) := by
    intro b b' c d s t hstep hs ht hrest
    rw [cut?, cut?, hs, ht]
    rcases rel_cases hrest with ⟨hs, ht⟩ | ⟨p, q, hs, ht, hp, hq⟩
    · rw [hs, ht]
      exact .none
    · rw [hs, ht]
      exact .some ⟨hstep hp, hq⟩
  have hne : ∀ {c u}, isWord c = true → after? (k :: mark) (c :: u) = none := by
    intro c u hc
    have hkc : k ≠ c := by
      rintro rfl
      rw [hk] at hc
      cases hc
    rw [after?, if_neg hkc]
  -- outside of words both texts have the mark or none has; inside no mark begins
  induction h with
  | nil => exact .none
  | same c h ih =>
    rcases rel_cases (after?_rel_cons hx hk (.same c h)) with ⟨hs, ht⟩ | ⟨u, v, hs, ht, huv⟩
    · exact hcons (.same c) hs ht ih
    · rw [cut?, cut?, hs, ht]
      exact .some ⟨.nil, huv⟩
  | mark h ih =>
    have hmark : isWord 'x' = true := isWord_ascii (by decide)
    exact hcons .mark (hne hmark) (hne hmark) ih
  | digit hd h ih => exact hcons (.digit hd) (hne hd.isWord_left) (hne hd.symm.isWord_left) ih
  | stop hs h ih =>
    rcases rel_cases ih with ⟨hs', ht'⟩ | ⟨⟨before, rest⟩, q, hs', ht', hp, hq⟩
    · rw [hs', ht']
      exact .none
    · rw [hs', ht']
      refine .some ⟨.stop ?_ hp, hq⟩
      rw [eq_of_cut? hs', List.append_assoc] at hs
      exact stops_of_append hs

theorem trimEnd_cons {c : Char} (hc : isBlank c = false) (s : Text) : trimEnd (c :: s) = c :: trimEnd s := by
  rw [trimEnd]
  split
  · next h => rw [h, if_neg (by simp [hc])]
  · rfl

theorem stops_trimEnd (h : Stops isWord s) : Stops isWord (trimEnd s) := by
  cases s with
  | nil => exact h
  | cons c s =>
    rw [trimEnd]
    split
    · split
      · simp
      · simpa using h
    · simpa using h

theorem trimEnd_rel (h : Recased b s t) : Recased b (trimEnd s) (trimEnd t) := by
  induction h with
  | nil => exact .nil
  | same c h ih =>
    rw [trimEnd, trimEnd]
    have hnil := ih.eq_nil_iff
    split
    · next hs =>
      rw [hnil.mp hs]
      split
      · exact .nil
      · exact .same c .nil
    · next hs =>
      split
      · next ht => exact absurd (hnil.mpr ht) hs
      · exact .same c ih
  | mark h ih =>
    rw [trimEnd_cons (by decide), trimEnd_cons (by decide)]
    exact .mark ih
  | digit hd h ih =>
    rw [trimEnd_cons hd.isBlank_left, trimEnd_cons hd.symm.isBlank_left]
    exact .digit hd ih
  | stop hs h ih => exact .stop (stops_trimEnd hs) ih

theorem eq_of_mark_not_mem (h : Recased false s t) (hx : 'x' ∉ s) : t = s := by
  generalize hb : false = b at h
  induction h with
  | nil => rfl
  | same c h ih => rw [ih (fun hm => hx (List.mem_cons_of_mem c hm)) rfl]
  | mark h => exact absurd List.mem_cons_self hx
  | digit => cases hb
  | stop => cases hb

theorem readMacro?_eq (h : Recased b s t) :
    Option.Rel (· = ·) (SourceTable.readMacro? s) (SourceTable.readMacro? t) := by
  have hopen : Option.Rel (Recased false)
      ((after? "address!(".toList s).bind (SourceTable.afterTokens? [['"']]))
      ((after? "address!(".toList t).bind (SourceTable.afterTokens? [['"']])) :=
    rel_bind (after?_rel (by decide) ⟨'r', _, rfl, isWord_ascii (by decide)⟩ h) fun _ _ h =>
      afterTokens?_rel (by decide) h
  rw [SourceTable.readMacro?, SourceTable.readMacro?]
  rcases rel_cases hopen with ⟨hs, ht⟩ | ⟨u, v, hs, ht, h⟩
  · rw [hs, ht]
    exact .none
  rw [hs, ht]
  rcases rel_cases h.read?_rel with ⟨hu, hv⟩ | ⟨⟨address, u'⟩, ⟨_, v'⟩, hu, hv, rfl, b', h⟩
  · simp only [hu, hv]
    exact .none
  simp only [hu, hv]
  refine rel_bind (after?_rel_cons (by decide) (isWord_ascii (by decide)) h) fun u v h => ?_
  rcases rel_cases (afterTokens?_rel (by decide : ∀ token ∈ [[')']], 'x' ∉ token) h) with
    ⟨hu, hv⟩ | ⟨_, _, hu, hv, -⟩
  · rw [hu, hv]
    exact .none
  · rw [hu, hv]
    exact .some rfl

theorem addressIn_eq (h : Recased false s t) : SourceTable.addressIn s = SourceTable.addressIn t := by
  have htrim : Recased false (trim s) (trim t) := trimEnd_rel h.skipBlanks
  have hnone : trim s = "None".toList ↔ trim t = "None".toList :=
    ⟨fun he => he ▸ htrim.eq_of_mark_not_mem (by rw [he]; decide),
      fun he => he ▸ htrim.symm.eq_of_mark_not_mem (by rw [he]; decide)⟩
  simp only [SourceTable.addressIn]
  by_cases hs : trim s = "None".toList
  · rw [if_pos hs, if_pos (hnone.mp hs)]
  rw [if_neg hs, if_neg (mt hnone.mpr hs)]
  rcases rel_cases (htrim.search?_rel fun _ _ _ h => h.readMacro?_eq) with ⟨hs, ht⟩ | ⟨_, _, hs, ht, rfl⟩
  · rw [hs, ht]
  · rw [hs, ht]

theorem readValue?_rel (h : Recased false s t) :
    Option.Rel (fun p q => Recased false p.1 q.1 ∧ Recased false p.2 q.2) (SourceTable.readValue? s)
      (SourceTable.readValue? t) := by
  have hskip := h.skipBlanks
  rw [SourceTable.readValue?, SourceTable.readValue?]
  generalize SourceTable.skipBlanks s = u at hskip
  generalize SourceTable.skipBlanks t = v at hskip
  cases hskip with
  | nil => exact .none
  | mark h => exact .none
  | same c h =>
    by_cases hc : c = ':'
    · subst hc
      rcases rel_cases (cut?_rel (by decide : 'x' ∉ [',']) (isWord_ascii (by decide)) h) with
        ⟨hu, hv⟩ | ⟨⟨p, r⟩, ⟨q, r'⟩, hu, hv, hpq, hr⟩
      · simp only [hu, hv]
        exact .none
      · simp only [hu, hv]
        cases hpq with
        | nil => exact .none
        | same c hpq => exact .some ⟨.same c hpq, hr⟩
        | mark hpq => exact .some ⟨.mark hpq, hr⟩
    · split
      · next heq => exact absurd (List.cons.inj heq).1 hc
      · split
        · next heq => exact absurd (List.cons.inj heq).1 hc
        · exact .none

theorem word_inside {w v r : Text} (hw : ∀ c ∈ w, isWord c = true) (hv : Stops isWord v)
    (h : Recased true (w ++ v) r) : ∃ w' v', r = w' ++ v' ∧ Recased false v v' ∧
      (∀ c ∈ w, isHexDigit c = true) ∧ ∀ c ∈ w', isHexDigit c = true := by
  induction w generalizing r with
  | nil =>
    cases h with
    | digit hd => exact absurd (stops_cons.mp hv) (by simp [hd.isWord_left])
    | stop _ h => exact ⟨[], r, rfl, h, by simp, by simp⟩
  | cons c w ih =>
    rw [List.forall_mem_cons] at hw
    cases h with
    | digit hd h =>
      obtain ⟨w', v', rfl, hvv, hleft, hright⟩ := ih hw.2 h
      exact ⟨_ :: w', v', rfl, hvv, by simpa [hd.left] using hleft, by simpa [hd.right] using hright⟩
    | stop hs => exact absurd (stops_cons.mp hs) (by simp [hw.1])

theorem not_isFieldName_of_last {w : Text} (h : ∃ c, w.getLast? = some c ∧ c ≠ 's') :
    SourceTable.isFieldName w = false := by
  obtain ⟨c, hc, hne⟩ := h
  cases hw : SourceTable.isFieldName w with
  | false => rfl
  | true =>
    obtain ⟨u, -, rfl⟩ := SourceTable.isFieldName_iff.mp hw
    have hlast : SourceTable.fieldSuffix.getLast? = some 's' := by decide
    rw [List.getLast?_append, hlast] at hc
    exact absurd (Option.some.inj hc).symm hne

/-- A word stays as it is, or it ends in a run of digits and is no field name in either text. -/
theorem word {w v r : Text} (hw : ∀ c ∈ w, isWord c = true) (hv : Stops isWord v)
    (h : Recased false (w ++ v) r) : ∃ w' v', r = w' ++ v' ∧ Recased false v v' ∧
      (∀ c ∈ w', isWord c = true) ∧ (w' = [] ↔ w = []) ∧
      (w' = w ∨ (∃ c, w.getLast? = some c ∧ c ≠ 's') ∧ ∃ c, w'.getLast? = some c ∧ c ≠ 's') := by
  induction w generalizing r with
  | nil => exact ⟨[], r, rfl, h, by simp, Iff.rfl, Or.inl rfl⟩
  | cons c w ih =>
    rw [List.forall_mem_cons] at hw
    cases h with
    | same _ h =>
      obtain ⟨w', v', rfl, hvv, hw', hnil, hlast⟩ := ih hw.2 h
      refine ⟨c :: w', v', rfl, hvv, by simpa [hw.1] using hw', by simp, ?_⟩
      rcases hlast with rfl | ⟨⟨d, hd, hds⟩, e, he, hes⟩
      · exact Or.inl rfl
      · exact Or.inr ⟨⟨d, by rw [List.getLast?_cons, hd]; rfl, hds⟩, e, by rw [List.getLast?_cons, he]; rfl, hes⟩
    | mark h =>
      obtain ⟨w', v', rfl, hvv, hleft, hright⟩ := word_inside hw.2 hv h
      have hlast : ∀ u : Text, (∀ c ∈ u, isHexDigit c = true) →
          ∃ c, ('x' :: u).getLast? = some c ∧ c ≠ 's' := by
        intro u hu
        cases hl : u.getLast? with
        | none => exact ⟨'x', by rw [List.getLast?_cons, hl]; rfl, by decide⟩
        | some c =>
          refine ⟨c, by rw [List.getLast?_cons, hl]; rfl, ?_⟩
          rintro rfl
          exact absurd (hu _ (List.mem_of_getLast? hl)) (by decide)
      refine ⟨'x' :: w', v', rfl, hvv, ?_, by simp, Or.inr ⟨hlast w hleft, hlast w' hright⟩⟩
      rw [List.forall_mem_cons]
      exact ⟨hw.1, fun c hc => SameDigit.isWord_of_isHexDigit (hright c hc)⟩

theorem gap {u r q : Text} (hu : ∀ c ∈ u, isWord c = false) (h : Recased false (u ++ r) q) :
    ∃ r', q = u ++ r' ∧ Recased false r r' := by
  induction u generalizing q with
  | nil => exact ⟨q, rfl, h⟩
  | cons c u ih =>
    rw [List.forall_mem_cons] at hu
    cases h with
    | same _ h =>
      obtain ⟨r', rfl, hr⟩ := ih hu.2 h
      exact ⟨r', rfl, hr⟩
    | mark h =>
      have hmark : isWord 'x' = true := isWord_ascii (by decide)
      rw [hmark] at hu
      cases hu.1

theorem addressed_eq {s t : Text} (h : Recased false s t) :
    SourceTable.addressed s = SourceTable.addressed t := by
  rcases SourceTable.split_word s with hs | ⟨u, w, v, rfl, hu, hne, hw, hv⟩
  · have hx : 'x' ∉ s := fun hm => by
      have hmark : isWord 'x' = true := isWord_ascii (by decide)
      rw [hs 'x' hm] at hmark
      cases hmark
    rw [h.eq_of_mark_not_mem hx]
  obtain ⟨r, rfl, hr⟩ := gap hu h
  obtain ⟨w', v', rfl, hvv, hw', hnil, hlast⟩ := word hw hv hr
  have hshort : v.length < (u ++ (w ++ v)).length := by
    have := List.length_pos_iff.mpr hne
    simp only [List.length_append]
    omega
  have hbehind : SourceTable.addressed v = SourceTable.addressed v' := addressed_eq hvv
  rw [SourceTable.addressed, SourceTable.addressed, SourceTable.fields_word hu hne hw hv,
    SourceTable.fields_word hu (mt hnil.mp hne) hw' (hvv.stops hv), SourceTable.fieldsFrom,
    SourceTable.fieldsFrom]
  rcases hlast with rfl | ⟨hleft, hright⟩
  · by_cases hname : SourceTable.isFieldName w'
    · rw [if_pos hname, if_pos hname]
      rcases rel_cases hvv.readValue?_rel with ⟨hs, ht⟩ | ⟨⟨a, next⟩, ⟨a', next'⟩, hs, ht, ha, hnext⟩
      · simp only [hs, ht]
        exact hbehind
      · have hlength := SourceTable.length_of_readValue? hs
        have hrest : SourceTable.addressed next = SourceTable.addressed next' := addressed_eq hnext
        simp only [hs, ht, List.map_cons, ha.addressIn_eq]
        exact congrArg _ hrest
    · rw [if_neg hname, if_neg hname]
      exact hbehind
  · rw [if_neg (by simp [not_isFieldName_of_last hleft]), if_neg (by simp [not_isFieldName_of_last hright])]
    exact hbehind
termination_by s.length

theorem source_eq (constant : Text) (h : Recased false s t) :
    SourceTable.read s constant = SourceTable.read t constant := by
  have hblock : Option.Rel (Recased false) (SourceTable.block? s constant) (SourceTable.block? t constant) := by
    rw [SourceTable.block?, SourceTable.block?]
    rcases rel_cases (h.search?_rel fun _ _ _ h => afterHead?_rel constant h) with
      ⟨hs, ht⟩ | ⟨u, v, hs, ht, h⟩
    · rw [hs, ht]
      exact .none
    rw [hs, ht]
    rcases rel_cases (cut?_rel (by decide : 'x' ∉ ['\x7d', ';']) (isWord_ascii (by decide)) h) with
      ⟨hu, hv⟩ | ⟨p, q, hu, hv, hp, -⟩
    · simp only [String.reduceToList, hu, hv]
      exact .none
    · simp only [String.reduceToList, hu, hv]
      exact .some hp
  rw [SourceTable.read, SourceTable.read]
  rcases rel_cases hblock with ⟨hs, ht⟩ | ⟨u, v, hs, ht, h⟩
  · rw [hs, ht]
  · simp only [hs, ht]
    exact congrArg AddressTable.ofList h.addressed_eq

end Recased

end DeploymentRecords
