import DeploymentRecords.Proofs.Tidy
import DeploymentRecords.Toml.Quoted

/-! # Strings anywhere

What a reader of strings takes reads the same in front of any other text, unless that text begins
with a quote. -/

namespace DeploymentRecords.Toml

open Text Number

def isQuote (c : Char) : Bool := c = '"' || c = '\''

theorem isBlank_of_isHexDigit {c : Char} (h : isHexDigit c = true) : isBlank c = false :=
  ascii_forall (p := fun c => isHexDigit c = true → isBlank c = false) (by decide)
    (ascii_of_isHexDigit h) h

theorem eq_cons_of_map {read : Option (Text × Text)} {c : Char} {t r : Text}
    (h : (read.map fun (t, r) => (c :: t, r)) = some (t, r)) :
    ∃ t', read = some (t', r) ∧ t = c :: t' := by
  obtain ⟨⟨t', r'⟩, hread, he⟩ := Option.map_eq_some_iff.mp h
  cases he
  exact ⟨t', hread, rfl⟩

theorem newline_not_isPrintable {c : Char} (h : isPrintable c = true) : c ≠ '\n' := by
  rintro rfl
  exact absurd h (by decide)

theorem readCode?_local {n : Nat} {c : Char} {s r : Text} (h : readCode? n s = some (c, r)) :
    ∃ w, s = w ++ r ∧ (∀ d ∈ w, isBlank d = false) ∧ ∀ t, readCode? n (w ++ t) = some (c, t) := by
  simp only [readCode?] at h
  split at h
  · next hcode =>
    obtain ⟨hlength, hdigits, hvalid⟩ := hcode
    obtain ⟨rfl, rfl⟩ := Prod.mk.inj (Option.some.inj h)
    refine ⟨s.take n, (List.take_append_drop n s).symm, fun d hd => ?_, fun t => ?_⟩
    · exact isBlank_of_isHexDigit (List.all_eq_true.mp hdigits d hd)
    · rw [readCode?, List.take_left' hlength, List.drop_left' hlength,
        if_pos ⟨hlength, hdigits, hvalid⟩]
  · cases h

theorem readEscape?_local {c : Char} {s r : Text} (h : readEscape? s = some (c, r)) :
    ∃ w, w ≠ [] ∧ s = w ++ r ∧ (∀ d ∈ w, isBlank d = false) ∧
      ∀ t, readEscape? (w ++ t) = some (c, t) := by
  fun_cases readEscape? s <;> simp only [readEscape?, Option.some.injEq, Prod.mk.injEq,
    reduceCtorEq] at h
  case case8 s =>
    obtain ⟨w, rfl, hblank, hread⟩ := readCode?_local h
    refine ⟨'u' :: w, by simp, rfl, ?_, hread⟩
    rw [List.forall_mem_cons]
    exact ⟨by decide, hblank⟩
  case case9 s =>
    obtain ⟨w, rfl, hblank, hread⟩ := readCode?_local h
    refine ⟨'U' :: w, by simp, rfl, ?_, hread⟩
    rw [List.forall_mem_cons]
    exact ⟨by decide, hblank⟩
  all_goals
    obtain ⟨rfl, rfl⟩ := h
    exact ⟨[_], by simp, rfl, List.forall_mem_singleton.mpr (by decide), fun t => rfl⟩

theorem afterBreak?_escape {c : Char} {s r : Text} (h : readEscape? s = some (c, r)) :
    afterBreak? s = none := by
  fun_cases readEscape? s <;> simp only [readEscape?, reduceCtorEq] at h <;>
    simp [afterBreak?, afterNewline?, isSpace]

theorem readBasic?_escape {c : Char} {s r : Text} (h : readEscape? s = some (c, r)) :
    readBasic? ('\\' :: s) = (readBasic? r).map fun (t, r) => (c :: t, r) := by
  rw [readBasic?]
  split
  · next heq =>
    obtain ⟨rfl, rfl⟩ := Prod.mk.inj (Option.some.inj (h.symm.trans heq))
    rfl
  · next heq => cases h.symm.trans heq

theorem readBasic?_cons {c : Char} {s : Text} (hquote : c ≠ '"') (hescape : c ≠ '\\')
    (hc : isPrintable c = true) :
    readBasic? (c :: s) = (readBasic? s).map fun (t, r) => (c :: t, r) := by
  rw [readBasic?.eq_4 _ _ hquote hescape, if_pos hc]

theorem readBasic?_local {s t r : Text} (h : readBasic? s = some (t, r)) :
    ∃ w, s = w ++ '"' :: r ∧ '\n' ∉ w ∧ ∀ r', readBasic? (w ++ '"' :: r') = some (t, r') := by
  fun_induction readBasic? s generalizing t with
  | case1 => cases h
  | case2 s =>
    cases h
    exact ⟨[], rfl, by simp, fun r' => by rw [List.nil_append, readBasic?]⟩
  | case3 s c s' hescape ih =>
    obtain ⟨t, ht, rfl⟩ := eq_cons_of_map h
    obtain ⟨w, rfl, hline, hread⟩ := ih ht
    obtain ⟨e, -, rfl, hblank, hlocal⟩ := readEscape?_local hescape
    refine ⟨'\\' :: (e ++ w), by simp, ?_, fun r' => ?_⟩
    · have he : '\n' ∉ e := fun hm => absurd (hblank _ hm) (by decide)
      simp [he, hline]
    · rw [List.cons_append, List.append_assoc, readBasic?_escape (hlocal _), hread]
      rfl
  | case4 s => cases h
  | case5 c s hquote hescape hc ih =>
    obtain ⟨t, ht, rfl⟩ := eq_cons_of_map h
    obtain ⟨w, rfl, hline, hread⟩ := ih ht
    refine ⟨c :: w, rfl, ?_, fun r' => ?_⟩
    · simpa [hline] using (newline_not_isPrintable hc).symm
    · rw [List.cons_append, readBasic?_cons hquote hescape hc, hread]
      rfl
  | case6 => cases h

theorem readLiteral?_cons {c : Char} {s : Text} (hquote : c ≠ '\'') (hc : isPrintable c = true) :
    readLiteral? (c :: s) = (readLiteral? s).map fun (t, r) => (c :: t, r) := by
  rw [readLiteral?.eq_3 _ _ hquote, if_pos hc]

theorem readLiteral?_local {s t r : Text} (h : readLiteral? s = some (t, r)) :
    ∃ w, s = w ++ '\'' :: r ∧ '\n' ∉ w ∧ ∀ r', readLiteral? (w ++ '\'' :: r') = some (t, r') := by
  fun_induction readLiteral? s generalizing t with
  | case1 => cases h
  | case2 s =>
    cases h
    exact ⟨[], rfl, by simp, fun r' => rfl⟩
  | case3 c s hquote hc ih =>
    obtain ⟨t, ht, rfl⟩ := eq_cons_of_map h
    obtain ⟨w, rfl, hline, hread⟩ := ih ht
    refine ⟨c :: w, rfl, ?_, fun r' => ?_⟩
    · simpa [hline] using (newline_not_isPrintable hc).symm
    · rw [List.cons_append, readLiteral?_cons hquote hc, hread]
      rfl
  | case4 => cases h

def Triple (q : Char) (s : Text) : Prop := ∃ t, s = q :: q :: q :: t

theorem not_triple {q c : Char} {s : Text} (h : ∀ t, c = q → s ≠ q :: q :: t) :
    ¬ Triple q (c :: s) := by
  rintro ⟨t, ht⟩
  exact h t (List.cons.inj ht).1 (List.cons.inj ht).2

theorem readMultiBasic?_cons {c : Char} {s : Text} (hquotes : ¬ Triple '"' (c :: s))
    (hescape : c ≠ '\\') (hc : c = '\n' ∨ isPrintable c = true) :
    readMultiBasic? (c :: s) = (readMultiBasic? s).map fun (t, r) => (c :: t, r) := by
  have hreturn : c ≠ '\r' := by
    rintro rfl
    exact absurd hc (by decide)
  rw [readMultiBasic?.eq_7 _ _ (fun t e hs => hquotes ⟨_, by rw [e, hs]⟩)
    (fun t e hs => hquotes ⟨_, by rw [e, hs]⟩) (fun t e hs => hquotes ⟨_, by rw [e, hs]⟩) hescape
    (fun t e _ => hreturn e), if_pos hc]

theorem readMultiBasic?_newline {n : Text} (hn : n = ['\n'] ∨ n = ['\r', '\n']) (s : Text) :
    readMultiBasic? (n ++ s) = (readMultiBasic? s).map fun (t, r) => ('\n' :: t, r) := by
  rcases hn with rfl | rfl
  · exact readMultiBasic?_cons (not_triple fun _ hc _ => absurd hc (by decide)) (by decide) (Or.inl rfl)
  · exact readMultiBasic?.eq_6 s

theorem readMultiBasic?_break {s r : Text} (h : afterBreak? s = some r) :
    readMultiBasic? ('\\' :: s) = readMultiBasic? r := by
  rw [readMultiBasic?]
  split
  · next heq => rw [Option.some.inj (h.symm.trans heq)]
  · next heq => cases h.symm.trans heq

theorem readMultiBasic?_escape {c : Char} {s r : Text} (h : readEscape? s = some (c, r)) :
    readMultiBasic? ('\\' :: s) = (readMultiBasic? r).map fun (t, r) => (c :: t, r) := by
  rw [readMultiBasic?]
  split
  · next heq => cases (afterBreak?_escape h).symm.trans heq
  · split
    · next heq =>
      obtain ⟨rfl, rfl⟩ := Prod.mk.inj (Option.some.inj (h.symm.trans heq))
      rfl
    · next heq => cases h.symm.trans heq

theorem triple_append {q : Char} {w r r' : Text} (hr' : Stops isQuote r') (hq : isQuote q = true)
    (h : Triple q (w ++ q :: r')) : Triple q (w ++ q :: r) := by
  obtain ⟨t, ht⟩ := h
  have hhead : ∀ t, r' ≠ q :: t := by
    rintro t rfl
    rw [stops_cons, hq] at hr'
    cases hr'
  rcases w with _ | ⟨c, _ | ⟨d, _ | ⟨e, w⟩⟩⟩
  · exact absurd (List.cons.inj ht).2 (hhead _)
  · exact absurd (List.cons.inj (List.cons.inj ht).2).2 (hhead _)
  · simp only [List.cons_append, List.nil_append, List.cons.injEq] at ht ⊢
    exact ⟨r, by simp [ht.1, ht.2.1]⟩
  · simp only [List.cons_append, List.cons.injEq] at ht ⊢
    exact ⟨w ++ q :: r, by simp [ht.1, ht.2.1, ht.2.2.1]⟩

theorem stops_four {r : Text} (h : Stops isQuote r) (t : Text) : r ≠ '"' :: t := by
  rintro rfl
  exact absurd h (by simp [isQuote])

def skipped : List Text := [[' '], ['\t'], ['\n'], ['\r', '\n']]

theorem skip_eq_self_iff {s : Text} :
    afterBreak?.skip s = s ↔ ∀ p ∈ skipped, ∀ t, s ≠ p ++ t := by
  constructor
  · rintro h p hp t rfl
    have hlength := length_afterBreak?_skip t
    simp only [skipped, List.mem_cons, List.not_mem_nil, or_false] at hp
    have hshort : (afterBreak?.skip t).length = (p ++ t).length := by
      rcases hp with rfl | rfl | rfl | rfl <;> exact congrArg List.length h
    have : 0 < p.length := by rcases hp with rfl | rfl | rfl | rfl <;> decide
    rw [List.length_append] at hshort
    omega
  · intro h
    simp only [skipped, List.forall_mem_cons] at h
    exact afterBreak?.skip.eq_5 s h.1 h.2.1 h.2.2.1 h.2.2.2.1

/-- Where the blanks behind a line-ending backslash end they end in front of other text too. -/
theorem skip_append {w r : Text} (r' : Text) {q : Char} (hq : isQuote q = true)
    (h : afterBreak?.skip (w ++ q :: r) = w ++ q :: r) :
    afterBreak?.skip (w ++ q :: r') = w ++ q :: r' := by
  rw [skip_eq_self_iff] at h ⊢
  intro p hp t ht
  have hquotes : ∀ p ∈ skipped, ∀ c ∈ p, isQuote c = false := by simp [skipped, isQuote]
  have hmem : q ∉ p := fun hm => by simp [hquotes p hp q hm] at hq
  obtain ⟨x, rfl⟩ := prefix_of_append_eq hmem ht
  exact h p hp (x ++ q :: r) (by simp)

theorem skip_skip (s : Text) : afterBreak?.skip (afterBreak?.skip s) = afterBreak?.skip s := by
  fun_induction afterBreak?.skip s with
  | case1 s ih => exact ih
  | case2 s ih => exact ih
  | case3 s ih => exact ih
  | case4 s ih => exact ih
  | case5 s h1 h2 h3 h4 => exact afterBreak?.skip.eq_5 s h1 h2 h3 h4

theorem exists_append_skip (s : Text) : ∃ w, s = w ++ afterBreak?.skip s ∧
    ∀ t, afterBreak?.skip (w ++ t) = afterBreak?.skip t := by
  fun_induction afterBreak?.skip s with
  | case1 s ih =>
    obtain ⟨w, hw, hskip⟩ := ih
    exact ⟨' ' :: w, by rw [List.cons_append, ← hw], hskip⟩
  | case2 s ih =>
    obtain ⟨w, hw, hskip⟩ := ih
    exact ⟨'\t' :: w, by rw [List.cons_append, ← hw], hskip⟩
  | case3 s ih =>
    obtain ⟨w, hw, hskip⟩ := ih
    exact ⟨'\n' :: w, by rw [List.cons_append, ← hw], hskip⟩
  | case4 s ih =>
    obtain ⟨w, hw, hskip⟩ := ih
    exact ⟨'\r' :: '\n' :: w, by rw [List.cons_append, List.cons_append, ← hw], hskip⟩
  | case5 s => exact ⟨[], rfl, fun t => rfl⟩

theorem exists_append_afterNewline? {s r : Text} (h : afterNewline? s = some r) :
    ∃ w, (w = ['\n'] ∨ w = ['\r', '\n']) ∧ s = w ++ r := by
  fun_cases afterNewline? s with
  | case1 s => exact ⟨_, Or.inl rfl, by rw [← Option.some.inj h]; rfl⟩
  | case2 s => exact ⟨_, Or.inr rfl, by rw [← Option.some.inj h]; rfl⟩
  | case3 => simp_all [afterNewline?]

theorem afterNewline?_append {w : Text} (hw : w = ['\n'] ∨ w = ['\r', '\n']) (r : Text) :
    afterNewline? (w ++ r) = some r := by
  rcases hw with rfl | rfl <;> rfl

theorem stops_newline {w : Text} (hw : w = ['\n'] ∨ w = ['\r', '\n']) (r : Text) :
    Stops isSpace (w ++ r) := by
  rcases hw with rfl | rfl <;> simp <;> decide

theorem afterBreak?_local {s r : Text} (h : afterBreak? s = some r) :
    afterBreak?.skip r = r ∧ ∃ w, s = w ++ r ∧
      ∀ t, afterBreak?.skip t = t → afterBreak? (w ++ t) = some t := by
  obtain ⟨u, hu, rfl⟩ := Option.map_eq_some_iff.mp h
  refine ⟨skip_skip u, ?_⟩
  obtain ⟨n, hn, hs⟩ := exists_append_afterNewline? hu
  obtain ⟨w, hw, hskip⟩ := exists_append_skip u
  refine ⟨s.takeWhile isSpace ++ (n ++ w), ?_, fun t ht => ?_⟩
  · rw [List.append_assoc, List.append_assoc, ← hw, ← hs, List.takeWhile_append_dropWhile]
  · rw [afterBreak?, List.append_assoc, List.append_assoc,
      dropWhile_run (List.all_eq_true.mp List.all_takeWhile) (stops_newline hn _),
      afterNewline?_append hn, Option.map_some, hskip, ht]

theorem readMultiBasic?_local {s t r : Text} (h : readMultiBasic? s = some (t, r)) :
    ∃ w, s = w ++ '"' :: r ∧
      ∀ r', Stops isQuote r' → readMultiBasic? (w ++ '"' :: r') = some (t, r') := by
  fun_induction readMultiBasic? s generalizing t with
  | case1 => cases h
  | case2 s =>
    cases h
    refine ⟨['"', '"', '"', '"'], rfl, fun r' hr' => ?_⟩
    exact readMultiBasic?.eq_2 _
  | case3 s =>
    cases h
    refine ⟨['"', '"', '"'], rfl, fun r' hr' => ?_⟩
    exact readMultiBasic?.eq_3 _ (stops_four hr')
  | case4 s =>
    cases h
    refine ⟨['"', '"'], rfl, fun r' hr' => ?_⟩
    exact readMultiBasic?.eq_4 _ (fun t e => stops_four hr' _ e) (stops_four hr')
  | case5 s r₁ hbreak ih =>
    obtain ⟨w, rfl, hread⟩ := ih h
    obtain ⟨hsettled, v, rfl, hlocal⟩ := afterBreak?_local hbreak
    refine ⟨'\\' :: (v ++ w), by simp, fun r' hr' => ?_⟩
    rw [List.cons_append, List.append_assoc,
      readMultiBasic?_break (hlocal _ (skip_append r' (by decide) hsettled)), hread r' hr']
  | case6 s hbreak c s' hescape ih =>
    obtain ⟨t, ht, rfl⟩ := eq_cons_of_map h
    obtain ⟨w, rfl, hread⟩ := ih ht
    obtain ⟨e, -, rfl, -, hlocal⟩ := readEscape?_local hescape
    refine ⟨'\\' :: (e ++ w), by simp, fun r' hr' => ?_⟩
    rw [List.cons_append, List.append_assoc, readMultiBasic?_escape (hlocal _), hread r' hr']
    rfl
  | case7 => cases h
  | case8 s ih =>
    obtain ⟨t, ht, rfl⟩ := eq_cons_of_map h
    obtain ⟨w, rfl, hread⟩ := ih ht
    refine ⟨'\r' :: '\n' :: w, by simp, fun r' hr' => ?_⟩
    rw [List.cons_append, List.cons_append, readMultiBasic?.eq_6, hread r' hr']
    rfl
  | case9 c s h5 h4 h3 hescape hreturn hc ih =>
    obtain ⟨t, ht, rfl⟩ := eq_cons_of_map h
    obtain ⟨w, rfl, hread⟩ := ih ht
    refine ⟨c :: w, rfl, fun r' hr' => ?_⟩
    have hquotes : ¬ Triple '"' (c :: (w ++ '"' :: r')) := fun htriple =>
      not_triple h3 (triple_append (w := c :: w) hr' (by decide) htriple)
    rw [List.cons_append, readMultiBasic?_cons hquotes hescape hc, hread r' hr']
    rfl
  | case10 => cases h

theorem readMultiLiteral?_cons {c : Char} {s : Text} (hquotes : ¬ Triple '\'' (c :: s))
    (hc : c = '\n' ∨ isPrintable c = true) :
    readMultiLiteral? (c :: s) = (readMultiLiteral? s).map fun (t, r) => (c :: t, r) := by
  have hreturn : c ≠ '\r' := by
    rintro rfl
    exact absurd hc (by decide)
  rw [readMultiLiteral?.eq_6 _ _ (fun t e hs => hquotes ⟨_, by rw [e, hs]⟩)
    (fun t e hs => hquotes ⟨_, by rw [e, hs]⟩) (fun t e hs => hquotes ⟨_, by rw [e, hs]⟩)
    (fun t e _ => hreturn e), if_pos hc]

theorem readMultiLiteral?_newline {n : Text} (hn : n = ['\n'] ∨ n = ['\r', '\n']) (s : Text) :
    readMultiLiteral? (n ++ s) = (readMultiLiteral? s).map fun (t, r) => ('\n' :: t, r) := by
  rcases hn with rfl | rfl
  · exact readMultiLiteral?_cons (not_triple fun _ hc _ => absurd hc (by decide)) (Or.inl rfl)
  · exact readMultiLiteral?.eq_5 s

theorem readMultiLiteral?_local {s t r : Text} (h : readMultiLiteral? s = some (t, r)) :
    ∃ w, s = w ++ '\'' :: r ∧
      ∀ r', Stops isQuote r' → readMultiLiteral? (w ++ '\'' :: r') = some (t, r') := by
  have hfour : ∀ {r' : Text}, Stops isQuote r' → ∀ t, r' ≠ '\'' :: t := by
    rintro r' hr' t rfl
    exact absurd hr' (by simp [isQuote])
  fun_induction readMultiLiteral? s generalizing t with
  | case1 => cases h
  | case2 s =>
    cases h
    exact ⟨['\'', '\'', '\'', '\''], rfl, fun r' _ => rfl⟩
  | case3 s =>
    cases h
    exact ⟨['\'', '\'', '\''], rfl, fun r' hr' => readMultiLiteral?.eq_3 _ (hfour hr')⟩
  | case4 s =>
    cases h
    exact ⟨['\'', '\''], rfl, fun r' hr' =>
      readMultiLiteral?.eq_4 _ (fun t e => hfour hr' _ e) (hfour hr')⟩
  | case5 s ih =>
    obtain ⟨t, ht, rfl⟩ := eq_cons_of_map h
    obtain ⟨w, rfl, hread⟩ := ih ht
    refine ⟨'\r' :: '\n' :: w, by simp, fun r' hr' => ?_⟩
    rw [List.cons_append, List.cons_append, readMultiLiteral?.eq_5, hread r' hr']
    rfl
  | case6 c s h5 h4 h3 hreturn hc ih =>
    obtain ⟨t, ht, rfl⟩ := eq_cons_of_map h
    obtain ⟨w, rfl, hread⟩ := ih ht
    refine ⟨c :: w, rfl, fun r' hr' => ?_⟩
    have hquotes : ¬ Triple '\'' (c :: (w ++ '\'' :: r')) := fun htriple =>
      not_triple h3 (triple_append (w := c :: w) hr' (by decide) htriple)
    rw [List.cons_append, readMultiLiteral?_cons hquotes hc, hread r' hr']
    rfl
  | case7 => cases h

end DeploymentRecords.Toml
