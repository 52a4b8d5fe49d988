import DeploymentRecords.Proofs.StringLocality

/-! # Strings in tidy texts

Stripping may change what a string on several lines means, but what was a string stays one and ends
at the same place. `Spells` collects what a written string is to everything around it. -/

namespace DeploymentRecords.Toml

open Text

variable {s t r u w : Text} {q : Char}

theorem triple_of_strip (hq : q ≠ '\n') (h : Triple q (strip s)) : Triple q s := by
  obtain ⟨t, ht⟩ := h
  obtain ⟨s₁, rfl, h₁⟩ := cons_of_strip_eq ht hq
  obtain ⟨s₂, rfl, h₂⟩ := cons_of_strip_eq h₁ hq
  obtain ⟨s₃, rfl, h₃⟩ := cons_of_strip_eq h₂ hq
  exact ⟨s₃, rfl⟩

theorem strip_quote (hq : isQuote q = true) (s : Text) : strip (q :: s) = q :: strip s := by
  have : q = '"' ∨ q = '\'' := by simpa [isQuote] using hq
  rcases this with rfl | rfl <;> exact strip_cons (Or.inl (by decide))

theorem not_cons_strip (hq : isQuote q = true) (h : ∀ t, s ≠ q :: t) (t : Text) :
    strip s ≠ q :: t := by
  intro ht
  obtain ⟨r, rfl, -⟩ := cons_of_strip_eq ht (by rintro rfl; exact absurd hq (by decide))
  exact h r rfl

theorem isBlank_of_isSpace {c : Char} (h : isSpace c = true) : isBlank c = true ∧ c ≠ '\n' := by
  have : c = ' ' ∨ c = '\t' := by simpa [isSpace] using h
  rcases this with rfl | rfl <;> decide

theorem strip_spaces_newline {b n : Text} (hb : ∀ c ∈ b, isSpace c = true)
    (hn : n = ['\n'] ∨ n = ['\r', '\n']) (s : Text) : strip (b ++ (n ++ s)) = '\n' :: strip s := by
  induction b with
  | nil =>
    rcases hn with rfl | rfl
    · exact strip_newline
    · exact strip_blank_newline (by decide) (by decide)
  | cons c b ih =>
    have ih := ih fun d hd => hb d (List.mem_cons_of_mem c hd)
    obtain ⟨hblank, hne⟩ := isBlank_of_isSpace (hb c List.mem_cons_self)
    rw [List.cons_append, strip, if_pos ⟨hblank, hne, by rw [ih]; rfl⟩, ih]

theorem skip_strip (s : Text) :
    afterBreak?.skip (strip (afterBreak?.skip s)) = afterBreak?.skip (strip s) := by
  fun_induction afterBreak?.skip s with
  | case1 s ih =>
    rw [ih]
    rcases strip_cons_cases ' ' s with h | ⟨-, -, h, -⟩
    · rw [h, afterBreak?.skip]
    · rw [h]
  | case2 s ih =>
    rw [ih]
    rcases strip_cons_cases '\t' s with h | ⟨-, -, h, -⟩
    · rw [h, afterBreak?.skip]
    · rw [h]
  | case3 s ih => rw [ih, strip_newline, afterBreak?.skip]
  | case4 s ih =>
    rw [ih, strip_blank_newline (by decide) (by decide), afterBreak?.skip]
  | case5 => rfl

theorem afterBreak?_strip (h : afterBreak? s = some r) :
    afterBreak? (strip s) = some (afterBreak?.skip (strip r)) := by
  obtain ⟨u, hu, rfl⟩ := Option.map_eq_some_iff.mp h
  obtain ⟨n, hn, hs⟩ := exists_append_afterNewline? hu
  have hsplit : s = s.takeWhile isSpace ++ (n ++ u) := by rw [← hs, List.takeWhile_append_dropWhile]
  rw [hsplit, strip_spaces_newline (List.all_eq_true.mp List.all_takeWhile) hn, skip_strip]
  rfl

theorem readMultiBasic?_skip (h : readMultiBasic? s = some (t, r)) :
    ∃ t', readMultiBasic? (afterBreak?.skip s) = some (t', r) := by
  have htail : ∀ {c : Char} {s t : Text}, c ≠ '"' → c ≠ '\\' → (c = '\n' ∨ isPrintable c = true) →
      readMultiBasic? (c :: s) = some (t, r) → ∃ t', readMultiBasic? s = some (t', r) := by
    intro c s t hquote hescape hc h
    rw [readMultiBasic?_cons (not_triple fun _ hc _ => hquote hc) hescape hc] at h
    obtain ⟨t', ht, -⟩ := eq_cons_of_map h
    exact ⟨t', ht⟩
  fun_induction afterBreak?.skip s generalizing t with
  | case1 s ih =>
    obtain ⟨t', ht⟩ := htail (by decide) (by decide) (by decide) h
    exact ih ht
  | case2 s ih =>
    obtain ⟨t', ht⟩ := htail (by decide) (by decide) (by decide) h
    exact ih ht
  | case3 s ih =>
    obtain ⟨t', ht⟩ := htail (by decide) (by decide) (by decide) h
    exact ih ht
  | case4 s ih =>
    rw [readMultiBasic?.eq_6] at h
    obtain ⟨t', ht, -⟩ := eq_cons_of_map h
    exact ih ht
  | case5 => exact ⟨t, h⟩

/-- A kept character reads as before, a dropped one is not read. -/
theorem readMultiBasic?_strip_cons {c : Char} {t' : Text} (hquotes : ¬ Triple '"' (c :: s))
    (hescape : c ≠ '\\') (hc : c = '\n' ∨ isPrintable c = true)
    (h : readMultiBasic? (strip s) = some (t', strip r)) :
    ∃ t', readMultiBasic? (strip (c :: s)) = some (t', strip r) := by
  rcases strip_cons_cases c s with hkeep | ⟨-, -, hdrop, -⟩
  · have hquotes' : ¬ Triple '"' (c :: strip s) := fun htriple =>
      hquotes (triple_of_strip (by decide) (hkeep ▸ htriple))
    exact ⟨c :: t', by rw [hkeep, readMultiBasic?_cons hquotes' hescape hc, h]; rfl⟩
  · exact ⟨t', by rw [hdrop, h]⟩

theorem readMultiBasic?_strip (h : readMultiBasic? s = some (t, r)) :
    ∃ t', readMultiBasic? (strip s) = some (t', strip r) := by
  have hq : isQuote '"' = true := rfl
  fun_induction readMultiBasic? s generalizing t with
  | case1 => cases h
  | case2 s =>
    cases h
    simp only [strip_quote hq]
    exact ⟨_, readMultiBasic?.eq_2 _⟩
  | case3 s hfive =>
    cases h
    simp only [strip_quote hq]
    exact ⟨_, readMultiBasic?.eq_3 _ (not_cons_strip hq hfive)⟩
  | case4 s hfive hfour =>
    cases h
    simp only [strip_quote hq]
    have hfour' := not_cons_strip hq hfour
    exact ⟨_, readMultiBasic?.eq_4 _ (fun t e => hfour' _ e) hfour'⟩
  | case5 s r₁ hbreak ih =>
    obtain ⟨t₁, h₁⟩ := ih h
    obtain ⟨t₂, h₂⟩ := readMultiBasic?_skip h₁
    refine ⟨t₂, ?_⟩
    rw [strip_cons (Or.inl (by decide)), readMultiBasic?_break (afterBreak?_strip hbreak), h₂]
  | case6 s hbreak c s' hescape ih =>
    obtain ⟨t₁, ht, -⟩ := eq_cons_of_map h
    obtain ⟨t₂, h₂⟩ := ih ht
    obtain ⟨e, -, rfl, hblank, hlocal⟩ := readEscape?_local hescape
    refine ⟨c :: t₂, ?_⟩
    rw [strip_cons (Or.inl (by decide)), (solid_of_all hblank).strip_append,
      readMultiBasic?_escape (hlocal _), h₂]
    rfl
  | case7 => cases h
  | case8 s ih =>
    obtain ⟨t₁, ht, -⟩ := eq_cons_of_map h
    obtain ⟨t₂, h₂⟩ := ih ht
    refine ⟨'\n' :: t₂, ?_⟩
    rw [strip_blank_newline (by decide) (by decide),
      readMultiBasic?_cons (not_triple fun _ hc _ => absurd hc (by decide)) (by decide)
        (Or.inl rfl), h₂]
    rfl
  | case9 c s h5 h4 h3 hescape hreturn hc ih =>
    obtain ⟨t₁, ht, -⟩ := eq_cons_of_map h
    obtain ⟨t₂, h₂⟩ := ih ht
    exact readMultiBasic?_strip_cons (not_triple h3)
      hescape hc h₂
  | case10 => cases h

theorem readMultiLiteral?_strip (h : readMultiLiteral? s = some (t, r)) :
    ∃ t', readMultiLiteral? (strip s) = some (t', strip r) := by
  have hq : isQuote '\'' = true := rfl
  fun_induction readMultiLiteral? s generalizing t with
  | case1 => cases h
  | case2 s =>
    cases h
    simp only [strip_quote hq]
    exact ⟨_, readMultiLiteral?.eq_2 _⟩
  | case3 s hfive =>
    cases h
    simp only [strip_quote hq]
    exact ⟨_, readMultiLiteral?.eq_3 _ (not_cons_strip hq hfive)⟩
  | case4 s hfive hfour =>
    cases h
    simp only [strip_quote hq]
    have hfour' := not_cons_strip hq hfour
    exact ⟨_, readMultiLiteral?.eq_4 _ (fun t e => hfour' _ e) hfour'⟩
  | case5 s ih =>
    obtain ⟨t₁, ht, -⟩ := eq_cons_of_map h
    obtain ⟨t₂, h₂⟩ := ih ht
    refine ⟨'\n' :: t₂, ?_⟩
    rw [strip_blank_newline (by decide) (by decide),
      readMultiLiteral?_cons (not_triple fun _ hc _ => absurd hc (by decide)) (Or.inl rfl), h₂]
    rfl
  | case6 c s h5 h4 h3 hreturn hc ih =>
    obtain ⟨t₁, ht, -⟩ := eq_cons_of_map h
    obtain ⟨t₂, h₂⟩ := ih ht
    rcases strip_cons_cases c s with hkeep | ⟨-, -, hdrop, -⟩
    · have hquotes : ¬ Triple '\'' (c :: strip s) := by
        intro htriple
        obtain ⟨t, ht⟩ := triple_of_strip (by decide) (hkeep ▸ htriple)
        exact h3 t (List.cons.inj ht).1 (List.cons.inj ht).2
      exact ⟨c :: t₂, by rw [hkeep, readMultiLiteral?_cons hquotes hc, h₂]; rfl⟩
    · exact ⟨t₂, by rw [hdrop, h₂]⟩
  | case7 => cases h

theorem dropNewline_local (s : Text) : ∃ n, s = n ++ dropNewline s ∧
    ∀ q w r r', isQuote q = true → dropNewline s = w ++ q :: r →
      dropNewline (n ++ (w ++ q :: r')) = w ++ q :: r' := by
  cases h : afterNewline? s with
  | none =>
    refine ⟨[], by simp [dropNewline, h], fun q w r r' hq hs => ?_⟩
    have hs : s = w ++ q :: r := by simpa [dropNewline, h] using hs
    suffices afterNewline? (w ++ q :: r') = none by simp [dropNewline, this]
    cases hafter : afterNewline? (w ++ q :: r') with
    | none => rfl
    | some t =>
      obtain ⟨n, hn, ht⟩ := exists_append_afterNewline? hafter
      have hquotes : ∀ c ∈ n, isQuote c = false := by rcases hn with rfl | rfl <;> simp [isQuote]
      have hmem : q ∉ n := fun hm => by simp [hquotes q hm] at hq
      obtain ⟨x, rfl⟩ := prefix_of_append_eq hmem ht
      rw [hs, List.append_assoc, afterNewline?_append hn] at h
      cases h
  | some t =>
    obtain ⟨n, hn, rfl⟩ := exists_append_afterNewline? h
    refine ⟨n, by simp [dropNewline, h], fun q w r r' hq hs => ?_⟩
    simp [dropNewline, afterNewline?_append hn]

theorem exists_dropNewline {read : Text → Option (Text × Text)}
    (hread : ∀ {n}, n = ['\n'] ∨ n = ['\r', '\n'] → ∀ s,
      read (n ++ s) = (read s).map fun (t, r) => ('\n' :: t, r))
    (h : read s = some (t, r)) : ∃ t', read (dropNewline s) = some (t', r) := by
  cases hafter : afterNewline? s with
  | none => exact ⟨t, by simpa [dropNewline, hafter] using h⟩
  | some u =>
    obtain ⟨n, hn, rfl⟩ := exists_append_afterNewline? hafter
    rw [hread hn] at h
    obtain ⟨t', ht, -⟩ := eq_cons_of_map h
    exact ⟨t', by rw [dropNewline, hafter, Option.getD_some, ht]⟩

/-- Stripping first changes nothing for what follows a dropped line break. -/
theorem dropNewline_strip (s : Text) :
    dropNewline (strip (dropNewline s)) = dropNewline (strip s) ∨
      dropNewline (strip s) = strip (dropNewline s) := by
  cases hafter : afterNewline? s with
  | none => exact Or.inl (by simp [dropNewline, hafter])
  | some u =>
    obtain ⟨n, hn, rfl⟩ := exists_append_afterNewline? hafter
    have := strip_spaces_newline (b := []) (by simp) hn u
    rw [List.nil_append] at this
    have hnext : afterNewline? ('\n' :: strip u) = some (strip u) := rfl
    exact Or.inr (by simp [dropNewline, hafter, this, hnext])

theorem readString?_basic (h : ¬ Triple '"' ('"' :: s)) : readString? ('"' :: s) = readBasic? s :=
  readString?.eq_2 s fun t e => h ⟨t, by rw [e]⟩

theorem readString?_literal (h : ¬ Triple '\'' ('\'' :: s)) :
    readString? ('\'' :: s) = readLiteral? s :=
  readString?.eq_4 s fun t e => h ⟨t, by rw [e]⟩

structure Spells (w t : Text) : Prop where
  opening : ∃ q v, isQuote q = true ∧ w = q :: v
  closing : ∃ v q, isQuote q = true ∧ w = v ++ [q]
  reads : ∀ r, Stops isQuote r → readString? (w ++ r) = some (t, r)

section

variable {read : Text → Option (Text × Text)} (hq : isQuote q = true)

include hq

theorem spells_multi (hread : ∀ s, readString? (q :: q :: q :: s) = read (dropNewline s))
    (hlocal : ∀ {s t r}, read s = some (t, r) → ∃ w, s = w ++ q :: r ∧
      ∀ r', Stops isQuote r' → read (w ++ q :: r') = some (t, r'))
    (h : readString? (q :: q :: q :: s) = some (t, r)) :
    ∃ w, q :: q :: q :: s = w ++ r ∧ Spells w t := by
  rw [hread] at h
  obtain ⟨n, hs, hdrop⟩ := dropNewline_local s
  obtain ⟨w, hw, hlocal⟩ := hlocal h
  refine ⟨[q, q, q] ++ (n ++ (w ++ [q])), ?_, ⟨_, _, hq, rfl⟩, ⟨[q, q, q] ++ (n ++ w), q, hq, by simp⟩,
    fun r' hr' => ?_⟩
  · rw [hs, hw]
    simp
  · have := hdrop q w r r' hq hw
    simp only [List.append_assoc, List.cons_append, List.nil_append, hread, this]
    exact hlocal r' hr'

theorem readString?_multi_strip (hread : ∀ s, readString? (q :: q :: q :: s) = read (dropNewline s))
    (hnewline : ∀ {n}, n = ['\n'] ∨ n = ['\r', '\n'] → ∀ s,
      read (n ++ s) = (read s).map fun (t, r) => ('\n' :: t, r))
    (hstrip : ∀ {s t r}, read s = some (t, r) → ∃ t', read (strip s) = some (t', strip r))
    (h : readString? (q :: q :: q :: s) = some (t, r)) :
    ∃ t', readString? (strip (q :: q :: q :: s)) = some (t', strip r) := by
  rw [hread] at h
  obtain ⟨t₁, h₁⟩ := hstrip h
  simp only [strip_quote hq, hread]
  rcases dropNewline_strip s with hs | hs
  · rw [← hs]
    exact exists_dropNewline hnewline h₁
  · exact ⟨t₁, by rw [hs, h₁]⟩

variable (hread : ∀ {s}, ¬ Triple q (q :: s) → readString? (q :: s) = read s)
  (hlocal : ∀ {s t r}, read s = some (t, r) → ∃ w, s = w ++ q :: r ∧ '\n' ∉ w ∧
    ∀ r', read (w ++ q :: r') = some (t, r'))
  (hthree : ¬ Triple q (q :: s)) (h : readString? (q :: s) = some (t, r))

include hread hlocal hthree h

theorem spells_single : ∃ w, q :: s = w ++ r ∧ Spells w t := by
  rw [hread hthree] at h
  obtain ⟨w, rfl, -, hlocal⟩ := hlocal h
  refine ⟨q :: (w ++ [q]), by simp, ⟨_, _, hq, rfl⟩, ⟨q :: w, q, hq, rfl⟩, fun r' hr' => ?_⟩
  have hquotes : ¬ Triple q (q :: (w ++ q :: r')) := fun htriple =>
    hthree (triple_append (w := q :: w) hr' hq htriple)
  rw [List.cons_append, List.append_assoc, List.singleton_append, hread hquotes, hlocal]

theorem readString?_single_strip : readString? (strip (q :: s)) = some (t, strip r) := by
  rw [hread hthree] at h
  obtain ⟨w, rfl, hline, hlocal⟩ := hlocal h
  have hblank : isBlank q = false := by
    have : q = '"' ∨ q = '\'' := by simpa [isQuote] using hq
    rcases this with rfl | rfl <;> decide
  have hnewline : q ≠ '\n' := by
    rintro rfl
    exact absurd hblank (by decide)
  have hsolid : Solid (w ++ [q]) := ⟨by simpa [hline] using hnewline.symm, by simpa using hblank⟩
  have hstrip : strip (q :: (w ++ q :: r)) = q :: (w ++ q :: strip r) := by
    have := hsolid.strip_append (s := r)
    rw [strip_quote hq]
    simpa using this
  rw [hstrip, hread, hlocal]
  rw [← hstrip]
  exact fun htriple => hthree (triple_of_strip hnewline htriple)

end

theorem spells_of_readString? (h : readString? s = some (t, r)) : ∃ w, s = w ++ r ∧ Spells w t := by
  fun_cases readString? s with
  | case1 s => exact spells_multi rfl (fun s => by rw [readString?]) readMultiBasic?_local h
  | case2 s hthree =>
    exact spells_single rfl readString?_basic readBasic?_local (not_triple fun t _ => hthree t) h
  | case3 s => exact spells_multi rfl (fun s => by rw [readString?]) readMultiLiteral?_local h
  | case4 s hthree =>
    exact spells_single rfl readString?_literal readLiteral?_local (not_triple fun t _ => hthree t) h
  | case5 => simp_all [readString?]

theorem readString?_strip (h : readString? s = some (t, r)) :
    ∃ t', readString? (strip s) = some (t', strip r) := by
  fun_cases readString? s with
  | case1 s =>
    exact readString?_multi_strip rfl (fun s => by rw [readString?]) readMultiBasic?_newline
      readMultiBasic?_strip h
  | case2 s hthree =>
    exact ⟨t, readString?_single_strip rfl readString?_basic readBasic?_local
      (not_triple fun t _ => hthree t) h⟩
  | case3 s =>
    exact readString?_multi_strip rfl (fun s => by rw [readString?]) readMultiLiteral?_newline
      readMultiLiteral?_strip h
  | case4 s hthree =>
    exact ⟨t, readString?_single_strip rfl readString?_literal readLiteral?_local
      (not_triple fun t _ => hthree t) h⟩
  | case5 => simp_all [readString?]

def settled (w : Text) : Text := ((readString? (strip w)).map (·.1)).getD []

theorem Spells.readString? (h : Spells w t) (hr : Stops isQuote r) :
    readString? (strip (w ++ r)) = some (settled w, strip r) := by
  have hself := h.reads [] stops_nil
  rw [List.append_nil] at hself
  obtain ⟨t', ht⟩ := readString?_strip hself
  obtain ⟨v, q, hq, rfl⟩ := h.closing
  obtain ⟨w', hw, hspells⟩ := spells_of_readString? ht
  rw [strip_nil, List.append_nil] at hw
  have hsettled : settled (v ++ [q]) = t' := by simp [settled, ht]
  have hkeep : isBlank q = false ∨ q = '\n' := by
    have : q = '"' ∨ q = '\'' := by simpa [isQuote] using hq
    rcases this with rfl | rfl <;> exact Or.inl (by decide)
  rw [List.append_assoc, List.singleton_append, strip_append_cons hkeep, hw, hsettled]
  exact hspells.reads _ (stops_strip (by decide) hr)

/-- Strings in which stripping finds nothing to drop keep their meaning. -/
theorem Spells.settled_eq (h : Spells w t) (hw : strip w = w) : settled w = t := by
  have := h.reads [] stops_nil
  rw [List.append_nil] at this
  simp [settled, hw, this]

end DeploymentRecords.Toml
