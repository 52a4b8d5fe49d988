import DeploymentRecords.Proofs.StringTidy

/-! # Quoting

A new string is read back from the form that is chosen for it, whatever it holds. Stripping leaves
that form alone unless the string itself has white space in front of a line feed. -/

namespace DeploymentRecords.Toml

open Text Number

variable {s r : Text} {c : Char}

theorem fourHex_ascii (hc : c.toNat < 128) : (fourHex c.toNat).length = 4 ∧
    (fourHex c.toNat).all isHexDigit = true ∧ ofDigits 16 (fourHex c.toNat) = c.toNat :=
  ascii_forall (p := fun c => (fourHex c.toNat).length = 4 ∧
    (fourHex c.toNat).all isHexDigit = true ∧ ofDigits 16 (fourHex c.toNat) = c.toNat)
    (by decide +kernel) hc

theorem readEscape?_fourHex (hc : c.toNat < 128) (t : Text) :
    readEscape? ('u' :: (fourHex c.toNat ++ t)) = some (c, t) := by
  obtain ⟨hlength, hdigits, hvalue⟩ := fourHex_ascii hc
  rw [readEscape?, readCode?, List.take_left' hlength, List.drop_left' hlength, hvalue,
    if_pos ⟨hlength, hdigits, c.valid⟩, Char.ofNat_toNat]

theorem ascii_of_isControl (h : isControl c = true) : c.toNat < 128 := by
  simp only [isControl, Bool.or_eq_true, Bool.and_eq_true, decide_eq_true_eq] at h
  rcases h with ⟨⟨h, -⟩, -⟩ | rfl
  · exact Nat.lt_trans (UInt32.lt_iff_toNat_lt.mp h) (by decide)
  · decide

theorem isPrintable_of_not_isControl (h : isControl c = false) (hc : c ≠ '\n') :
    isPrintable c = true := by
  simp only [isControl, Bool.or_eq_false_iff, Bool.and_eq_false_iff, decide_eq_false_iff_not,
    ne_eq, Decidable.not_not] at h
  obtain ⟨(h | h) | h, hdelete⟩ := h
  · have : ' ' ≤ c := Char.not_lt.mp h
    simp [isPrintable, this, hdelete]
  · simp [isPrintable, h]
  · exact absurd h hc

theorem escape_cases (multi : Bool) (quotes : Nat) (c : Char) :
    (∃ e, escape multi quotes c = '\\' :: e ∧ ∀ t, readEscape? (e ++ t) = some (c, t)) ∨
    escape multi quotes c = [c] ∧ c ≠ '\\' ∧ (c = '"' → multi = true ∧ quotes < 2) ∧
      (c = '\n' ∧ multi = true ∨ c ≠ '\n' ∧ isPrintable c = true) := by
  unfold escape
  split
  · next hc =>
    subst hc
    split
    · next h => exact Or.inr ⟨rfl, by decide, fun _ => h, Or.inr (by decide)⟩
    · exact Or.inl ⟨['"'], rfl, fun t => rfl⟩
  · next hquote =>
    split
    · next hc => exact Or.inl ⟨['b'], rfl, fun t => by rw [hc]; rfl⟩
    · split
      · next hc => exact Or.inl ⟨['t'], rfl, fun t => by rw [hc]; rfl⟩
      · split
        · next hc =>
          subst hc
          split
          · next h => exact Or.inr ⟨rfl, by decide, fun e => absurd e hquote, Or.inl ⟨rfl, h⟩⟩
          · exact Or.inl ⟨['n'], rfl, fun t => rfl⟩
        · next hnewline =>
          split
          · next hc => exact Or.inl ⟨['f'], rfl, fun t => by rw [hc]; rfl⟩
          · split
            · next hc => exact Or.inl ⟨['r'], rfl, fun t => by rw [hc]; rfl⟩
            · split
              · next hc => exact Or.inl ⟨['\\'], rfl, fun t => by rw [hc]; rfl⟩
              · next hescape =>
                split
                · next hc =>
                  exact Or.inl ⟨'u' :: fourHex c.toNat, rfl,
                    readEscape?_fourHex (ascii_of_isControl hc)⟩
                · next hc =>
                  have := isPrintable_of_not_isControl (by simpa using hc) hnewline
                  exact Or.inr ⟨rfl, hescape, fun e => absurd e hquote, Or.inr ⟨hnewline, this⟩⟩

theorem readBasic?_escapeFrom (quotes : Nat) (s r : Text) :
    readBasic? (escapeFrom false quotes s ++ '"' :: r) = some (s, r) := by
  induction s generalizing quotes with
  | nil => rw [escapeFrom, List.nil_append, readBasic?]
  | cons c s ih =>
    rw [escapeFrom, List.append_assoc]
    rcases escape_cases false quotes c with ⟨e, he, hread⟩ | ⟨he, hescape, hquote, hc⟩
    · rw [he, List.cons_append, readBasic?_escape (hread _), ih]
      rfl
    · have hquote : c ≠ '"' := fun h => by simpa using (hquote h).1
      have hc : isPrintable c = true := by simpa using hc.resolve_left (by simp) |>.2
      rw [he, List.singleton_append, readBasic?_cons hquote hescape hc, ih]
      rfl

theorem readMultiBasic?_quote {t : Text} (h : ¬ Triple '"' ('"' :: t)) :
    readMultiBasic? ('"' :: t) = (readMultiBasic? t).map fun (t, r) => ('"' :: t, r) :=
  readMultiBasic?_cons h (by decide) (by decide)

/-- Unescaped quotes come in twos at most, so the closing three are found behind the text. -/
theorem readMultiBasic?_escapeFrom (hr : Stops isQuote r) (s : Text) :
    let text (quotes : Nat) := escapeFrom true quotes s ++ ('"' :: '"' :: '"' :: r)
    readMultiBasic? (text 0) = some (s, r) ∧
    readMultiBasic? ('"' :: text 1) = some ('"' :: s, r) ∧
    readMultiBasic? ('"' :: '"' :: text 2) = some ('"' :: '"' :: s, r) := by
  have hfour := stops_four hr
  have hnot : ∀ {c d : Char} {t : Text}, d ≠ '"' → ¬ Triple '"' (c :: d :: t) :=
    fun hd => not_triple fun _ _ ht => hd (List.cons.inj ht).1
  have hnot' : ∀ {c d e : Char} {t : Text}, e ≠ '"' → ¬ Triple '"' (c :: d :: e :: t) :=
    fun he => not_triple fun _ _ ht => he (List.cons.inj (List.cons.inj ht).2).1
  -- with the number of quotes that stand unescaped in front, which the escapes keep below three
  induction s with
  | nil =>
    refine ⟨readMultiBasic?.eq_4 _ (fun t e => hfour _ e) hfour, ?_, ?_⟩
    · exact readMultiBasic?.eq_3 _ hfour
    · exact readMultiBasic?.eq_2 _
  | cons c s ih =>
    obtain ⟨ih₀, ih₁, ih₂⟩ := ih
    by_cases hc : c = '"'
    · subst hc
      have h₀ : escapeFrom true 0 ('"' :: s) = '"' :: escapeFrom true 1 s := rfl
      have h₁ : escapeFrom true 1 ('"' :: s) = '"' :: escapeFrom true 2 s := rfl
      have h₂ : escapeFrom true 2 ('"' :: s) = '\\' :: '"' :: escapeFrom true 0 s := rfl
      simp only [h₀, h₁, h₂, List.cons_append]
      refine ⟨ih₁, ih₂, ?_⟩
      rw [readMultiBasic?_quote (hnot' (by decide)), readMultiBasic?_quote (hnot (by decide)),
        readMultiBasic?_escape (c := '"') (r := escapeFrom true 0 s ++ '"' :: '"' :: '"' :: r) rfl, ih₀]
      rfl
    · -- behind any other character the count of quotes starts again
      obtain ⟨d, v, hd, hwritten, hread⟩ : ∃ d v, d ≠ '"' ∧
          (∀ quotes, escapeFrom true quotes (c :: s) = d :: (v ++ escapeFrom true 0 s)) ∧
          readMultiBasic? (d :: (v ++ (escapeFrom true 0 s ++ '"' :: '"' :: '"' :: r))) =
            some (c :: s, r) := by
        have hany : ∀ quotes, escape true quotes c = escape true 0 c := by
          intro quotes
          simp [escape, hc]
        rcases escape_cases true 0 c with ⟨e, he, hread⟩ | ⟨he, hescape, -, hprint⟩
        · refine ⟨'\\', e, by decide, fun quotes => by simp [escapeFrom, hany, he], ?_⟩
          rw [readMultiBasic?_escape (hread _), ih₀]
          rfl
        · refine ⟨c, [], hc, fun quotes => by simp [escapeFrom, hany, he, hc], ?_⟩
          rw [readMultiBasic?_cons (not_triple fun _ he _ => hc he) hescape
            (hprint.imp And.left And.right), List.nil_append, ih₀]
          rfl
      simp only [hwritten, List.cons_append, List.append_assoc]
      refine ⟨hread, ?_, ?_⟩
      · rw [readMultiBasic?_quote (hnot hd), hread]
        rfl
      · rw [readMultiBasic?_quote (hnot' hd), readMultiBasic?_quote (hnot hd), hread]
        rfl

theorem readLiteral?_append (h : ∀ c ∈ s, c ≠ '\'' ∧ isPrintable c = true) (r : Text) :
    readLiteral? (s ++ '\'' :: r) = some (s, r) := by
  induction s with
  | nil => rfl
  | cons c s ih =>
    obtain ⟨hquote, hc⟩ := h c List.mem_cons_self
    rw [List.cons_append, readLiteral?_cons hquote hc, ih fun d hd => h d (List.mem_cons_of_mem c hd)]
    rfl

theorem readMultiLiteral?_append (h : ∀ c ∈ s, c = '\n' ∨ isPrintable c = true)
    (hquotes : ∀ u t, s ≠ u ++ '\'' :: '\'' :: '\'' :: t) (hr : Stops isQuote r) :
    readMultiLiteral? (s ++ '\'' :: '\'' :: '\'' :: r) = some (s, r) := by
  have hfour : ∀ t, r ≠ '\'' :: t := by
    rintro t rfl
    exact absurd hr (by simp [isQuote])
  induction s with
  | nil => exact readMultiLiteral?.eq_4 _ (fun t e => hfour _ e) hfour
  | cons c s ih =>
    have ih := ih (fun d hd => h d (List.mem_cons_of_mem c hd))
      fun u t e => hquotes (c :: u) t (by rw [e, List.cons_append])
    by_cases htriple : Triple '\'' (c :: s ++ '\'' :: '\'' :: '\'' :: r)
    · -- quotes at the end of the string run on into the closing ones
      obtain ⟨t, ht⟩ := htriple
      rcases s with _ | ⟨d, _ | ⟨e, s⟩⟩
      · obtain ⟨rfl, -⟩ := List.cons.inj ht
        exact readMultiLiteral?.eq_3 _ hfour
      · simp only [List.cons_append, List.cons.injEq] at ht
        rw [ht.1, ht.2.1]
        exact readMultiLiteral?.eq_2 _
      · simp only [List.cons_append, List.cons.injEq] at ht
        exact absurd (by rw [ht.1, ht.2.1, ht.2.2.1]; rfl) (hquotes [] s)
    · rw [List.cons_append] at htriple ⊢
      rw [readMultiLiteral?_cons htriple (h c List.mem_cons_self), ih]
      rfl

theorem fits_of_choose {form : Form} (hform : form = .literal ∨ form = .multiLiteral)
    (h : Form.choose s = form) : form.fits s = true := by
  unfold Form.choose at h
  split at h
  · next heq =>
    have := List.find?_some heq
    rwa [h] at this
  · rcases hform with rfl | rfl <;> split at h <;> cases h

theorem Form.literal_printable (h : Form.literal.fits s = true) :
    ∀ c ∈ s, c ≠ '\'' ∧ c ≠ '\n' ∧ isPrintable c = true := by
  intro c hc
  have := List.all_eq_true.mp h c hc
  simp only [Bool.and_eq_true, decide_eq_true_eq, Bool.not_eq_true'] at this
  exact ⟨this.1.2, this.2, isPrintable_of_not_isControl this.1.1 this.2⟩

theorem Form.multiLiteral_printable (h : Form.multiLiteral.fits s = true) :
    ∀ c ∈ s, c = '\n' ∨ isPrintable c = true := by
  simp only [Form.fits, Bool.and_eq_true, List.all_eq_true, Bool.not_eq_true'] at h
  intro c hc
  by_cases hnewline : c = '\n'
  · exact Or.inl hnewline
  · exact Or.inr (isPrintable_of_not_isControl (h.1 c hc) hnewline)

theorem Form.multiLiteral_quotes (h : Form.multiLiteral.fits s = true) (u t : Text) :
    s ≠ u ++ '\'' :: '\'' :: '\'' :: t := by
  simp only [Form.fits, Bool.and_eq_true, Bool.not_eq_true'] at h
  rintro rfl
  rw [contains_iff.mpr ⟨u, t, by simp⟩] at h
  cases h.2

/-- The line break behind opening quotes is the one that was put there. -/
theorem dropNewline_opening {t : Text} (h : '\n' ∉ s → afterNewline? t = none) :
    dropNewline (opening s ++ t) = t := by
  unfold opening
  split
  · rfl
  · next hs => simp [dropNewline, h hs]

theorem afterNewline?_cons (hnewline : c ≠ '\n') (hreturn : c ≠ '\r') (t : Text) :
    afterNewline? (c :: t) = none :=
  afterNewline?.eq_3 _ (fun _ e => hnewline (List.cons.inj e).1)
    fun _ e => hreturn (List.cons.inj e).1

theorem ne_return_of_isPrintable (h : isPrintable c = true) : c ≠ '\r' := by
  rintro rfl
  exact absurd h (by decide)

theorem Form.readString?_basic (hr : Stops isQuote r) (s : Text) :
    readString? (Form.basic.write s ++ r) = some (s, r) := by
  have hread := readBasic?_escapeFrom 0 s r
  have hquotes : ¬ Triple '"' ('"' :: (escapeFrom false 0 s ++ '"' :: r)) := by
    rintro ⟨t, ht⟩
    have ht := (List.cons.inj ht).2
    cases s with
    | nil => exact stops_four hr t (List.cons.inj ht).2
    | cons c s =>
      rw [escapeFrom] at ht
      rcases escape_cases false 0 c with ⟨e, he, -⟩ | ⟨he, -, hquote, -⟩
      · rw [he] at ht
        exact absurd (List.cons.inj ht).1 (by decide)
      · rw [he] at ht
        simpa using (hquote (List.cons.inj ht).1).1
  rw [Form.write, List.cons_append, List.cons_append, List.append_assoc, List.singleton_append,
    Toml.readString?_basic hquotes, hread]

theorem Form.readString?_literal (hr : Stops isQuote r) (h : Form.literal.fits s = true) :
    readString? (Form.literal.write s ++ r) = some (s, r) := by
  have hprint := Form.literal_printable h
  have hquotes : ¬ Triple '\'' ('\'' :: (s ++ '\'' :: r)) := by
    rintro ⟨t, ht⟩
    have ht := (List.cons.inj ht).2
    cases s with
    | nil =>
      rw [(List.cons.inj ht).2] at hr
      exact absurd hr (by simp [isQuote])
    | cons c s => exact (hprint c List.mem_cons_self).1 (List.cons.inj ht).1
  rw [Form.write, List.cons_append, List.cons_append, List.append_assoc, List.singleton_append,
    Toml.readString?_literal hquotes,
    readLiteral?_append fun c hc => ⟨(hprint c hc).1, (hprint c hc).2.2⟩]

theorem Form.readString?_multiBasic (hr : Stops isQuote r) (s : Text) :
    readString? (Form.multiBasic.write s ++ r) = some (s, r) := by
  have hdrop : dropNewline (opening s ++ (escapeFrom true 0 s ++ '"' :: '"' :: '"' :: r)) =
      escapeFrom true 0 s ++ '"' :: '"' :: '"' :: r := by
    refine dropNewline_opening fun hnewline => ?_
    cases s with
    | nil => rfl
    | cons c s =>
      rw [escapeFrom]
      rcases escape_cases true 0 c with ⟨e, he, -⟩ | ⟨he, -, -, hc⟩
      · rw [he]
        exact afterNewline?_cons (by decide) (by decide) _
      · rw [he]
        obtain ⟨hne, hc⟩ := hc.resolve_left fun h => hnewline (by simp [h.1])
        exact afterNewline?_cons hne (ne_return_of_isPrintable hc) _
  simp only [Form.write, List.append_assoc, List.cons_append, List.nil_append, Toml.readString?, hdrop]
  exact (readMultiBasic?_escapeFrom hr s).1

theorem Form.readString?_multiLiteral (hr : Stops isQuote r)
    (h : Form.multiLiteral.fits s = true) :
    readString? (Form.multiLiteral.write s ++ r) = some (s, r) := by
  have hprint := Form.multiLiteral_printable h
  have hdrop : dropNewline (opening s ++ (s ++ '\'' :: '\'' :: '\'' :: r)) =
      s ++ '\'' :: '\'' :: '\'' :: r := by
    refine dropNewline_opening fun hnewline => ?_
    cases s with
    | nil => rfl
    | cons c s =>
      have hne : c ≠ '\n' := fun e => hnewline (by simp [e])
      have hc := (hprint c List.mem_cons_self).resolve_left hne
      exact afterNewline?_cons hne (ne_return_of_isPrintable hc) _
  simp only [Form.write, List.append_assoc, List.cons_append, List.nil_append, Toml.readString?, hdrop]
  exact readMultiLiteral?_append hprint (Form.multiLiteral_quotes h) hr

/-- Every string reads back from its quoted form. -/
theorem readString?_quote (hr : Stops isQuote r) (s : Text) :
    readString? (quote s ++ r) = some (s, r) := by
  rw [quote]
  cases h : Form.choose s with
  | basic => exact Form.readString?_basic hr s
  | literal => exact Form.readString?_literal hr (fits_of_choose (Or.inl rfl) h)
  | multiBasic => exact Form.readString?_multiBasic hr s
  | multiLiteral => exact Form.readString?_multiLiteral hr (fits_of_choose (Or.inr rfl) h)

theorem spells_quote (s : Text) : Spells (quote s) s := by
  have := readString?_quote stops_nil s
  rw [List.append_nil] at this
  obtain ⟨w, hw, hspells⟩ := spells_of_readString? this
  rw [hw, List.append_nil]
  exact hspells

theorem newline_not_mem_escapeFrom {multi : Bool} (quotes : Nat) (h : multi = true → '\n' ∉ s) :
    '\n' ∉ escapeFrom multi quotes s := by
  induction s generalizing quotes with
  | nil => exact List.not_mem_nil
  | cons c s ih =>
    rw [escapeFrom, List.mem_append, not_or]
    refine ⟨?_, ih _ fun hmulti hm => h hmulti (List.mem_cons_of_mem c hm)⟩
    rcases escape_cases multi quotes c with ⟨e, he, hread⟩ | ⟨he, -, -, hc⟩
    · have hread := hread []
      rw [List.append_nil] at hread
      obtain ⟨w, -, rfl, hblank, -⟩ := readEscape?_local hread
      rw [he, List.append_nil, List.mem_cons, not_or]
      exact ⟨by decide, fun hm => absurd (hblank _ hm) (by decide)⟩
    · rw [he, List.mem_singleton]
      rcases hc with ⟨rfl, hmulti⟩ | ⟨hc, -⟩
      · exact absurd List.mem_cons_self (h hmulti)
      · exact hc.symm

/-- A string on one line is quoted on one line. -/
theorem newline_not_mem_quote (h : '\n' ∉ s) : '\n' ∉ quote s := by
  have hopening : opening s = [] := if_neg h
  have hescape : ∀ multi, '\n' ∉ escapeFrom multi 0 s := fun _ => newline_not_mem_escapeFrom 0 fun _ => h
  rw [quote]
  cases Form.choose s with
  | basic => simp [Form.write, hescape false]
  | literal => simp [Form.write, h]
  | multiBasic => simp [Form.write, hopening, hescape true]
  | multiLiteral => simp [Form.write, hopening, h]

/-- No white space but line feeds stands in front of a line feed. -/
def Tight : Text → Prop
  | [] => True
  | c :: s => (isBlank c = true → c ≠ '\n' → s.head? ≠ some '\n') ∧ Tight s

instance decidableTight : (s : Text) → Decidable (Tight s)
  | [] => isTrue trivial
  | _ :: s => @instDecidableAnd _ _ inferInstance (decidableTight s)

theorem tight_iff : Tight s ↔
    ∀ u c t, s = u ++ c :: '\n' :: t → isBlank c = true → c = '\n' := by
  induction s with
  | nil => simp [Tight]
  | cons d s ih =>
    rw [Tight, ih]
    constructor
    · rintro ⟨hd, hs⟩ u c t hsplit hblank
      cases u with
      | nil =>
        obtain ⟨rfl, rfl⟩ := List.cons.inj hsplit
        by_cases hc : d = '\n'
        · exact hc
        · exact absurd rfl (hd hblank hc)
      | cons e u => exact hs u c t (List.cons.inj hsplit).2 hblank
    · intro h
      refine ⟨fun hblank hd hhead => ?_, fun u c t hsplit => h (d :: u) c t (by rw [hsplit]; rfl)⟩
      obtain ⟨t, rfl⟩ := List.head?_eq_some_iff.mp hhead
      exact hd (h [] d t rfl hblank)

theorem Tight.strip_append {q : Char} (hs : Tight s) (hq : isBlank q = false) (r : Text) :
    strip (s ++ q :: r) = s ++ q :: strip r := by
  induction s with
  | nil => exact strip_cons (Or.inl hq)
  | cons c s ih =>
    rw [List.cons_append, strip, ih hs.2, if_neg]
    · rfl
    · rintro ⟨hblank, hc, hhead⟩
      have := hs.1 hblank hc
      cases s with
      | nil => exact absurd hq (by simp [show q = '\n' from hhead]; decide)
      | cons d s => exact this (by simpa using hhead)

theorem tight_append {w : Text} (hw : ∀ c ∈ w, isBlank c = false) (hs : Tight s) :
    Tight (w ++ s) := by
  induction w with
  | nil => exact hs
  | cons c w ih =>
    refine ⟨fun hblank => ?_, ih fun d hd => hw d (List.mem_cons_of_mem c hd)⟩
    rw [hw c List.mem_cons_self] at hblank
    cases hblank

theorem tight_escapeFrom (multi : Bool) (quotes : Nat) (hs : Tight s) :
    Tight (escapeFrom multi quotes s) := by
  induction s generalizing quotes with
  | nil => trivial
  | cons c s ih =>
    rw [escapeFrom]
    rcases escape_cases multi quotes c with ⟨e, he, hread⟩ | ⟨he, -, -, -⟩
    · have hread := hread []
      rw [List.append_nil] at hread
      obtain ⟨w, -, rfl, hblank, -⟩ := readEscape?_local hread
      rw [he, List.append_nil]
      refine tight_append ?_ (ih _ hs.2)
      rw [List.forall_mem_cons]
      exact ⟨by decide, hblank⟩
    · rw [he]
      refine ⟨fun hblank hc hhead => hs.1 hblank hc ?_, ih _ hs.2⟩
      -- only a line feed is written as one
      cases s with
      | nil => cases hhead
      | cons d s =>
        rw [escapeFrom] at hhead
        rcases escape_cases multi (if [c] = ['"'] then quotes + 1 else 0) d with
          ⟨e, he, -⟩ | ⟨he, -⟩
        · rw [he] at hhead
          exact absurd hhead (by simp)
        · rw [he] at hhead
          exact hhead

theorem strip_quote_eq (hs : Tight s) : strip (quote s) = quote s := by
  have hq : isBlank '"' = false ∧ isBlank '\'' = false := by decide
  have hopening : ∀ {t : Text}, Tight t → Tight (opening s ++ t) := by
    intro t ht
    unfold opening
    split
    · exact ⟨fun _ h => absurd rfl h, ht⟩
    · exact ht
  rw [quote]
  cases h : Form.choose s with
  | basic =>
    have := (tight_escapeFrom false 0 hs).strip_append hq.1 []
    rw [Form.write, List.cons_append, Toml.strip_quote rfl, this]
    rfl
  | literal =>
    have := hs.strip_append hq.2 []
    rw [Form.write, List.cons_append, Toml.strip_quote rfl, this]
    rfl
  | multiBasic =>
    have := (hopening (tight_escapeFrom true 0 hs)).strip_append hq.1 ['"', '"']
    simp only [Form.write, List.append_assoc, List.cons_append, List.nil_append] at this ⊢
    rw [Toml.strip_quote rfl, Toml.strip_quote rfl, Toml.strip_quote rfl, this]
    rfl
  | multiLiteral =>
    have := (hopening hs).strip_append hq.2 ['\'', '\'']
    simp only [Form.write, List.append_assoc, List.cons_append, List.nil_append] at this ⊢
    rw [Toml.strip_quote rfl, Toml.strip_quote rfl, Toml.strip_quote rfl, this]
    rfl

theorem settled_quote (hs : Tight s) : settled (quote s) = s :=
  (spells_quote s).settled_eq (strip_quote_eq hs)

end DeploymentRecords.Toml
