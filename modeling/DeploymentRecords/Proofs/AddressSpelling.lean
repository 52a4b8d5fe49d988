import DeploymentRecords.Documentation
import DeploymentRecords.SourceTable

/-! # Spellings of addresses

An address is kept in one canonical spelling: `0x` and forty lower-case digits. The lower case of
a text is canonical only if the text already spells an address in ASCII, and both readers of
address tables yield canonical addresses or nothing. -/

namespace DeploymentRecords

open Number

def isLowerHexDigit (c : Char) : Bool := isDigit c || ('a' ≤ c && c ≤ 'f')

namespace Address

def Canonical (s : Text) : Prop :=
  ∃ digits : Text, digits.length = digitCount ∧ digits.all isLowerHexDigit = true ∧
    s = '0' :: 'x' :: digits

/-- An address in any letter case, its mark included. -/
def Spelled (s : Text) : Prop :=
  ∃ mark digits, (mark = 'x' ∨ mark = 'X') ∧ digits.length = digitCount ∧
    digits.all isHexDigit = true ∧ s = '0' :: mark :: digits

end Address

namespace Text

theorem imageOf?_some {n m : Nat} {runs : List CharRun} (h : imageOf? n runs = some m) :
    ∃ run ∈ runs, run.first ≤ n ∧ n ≤ run.last ∧ m = run.image + (n - run.first) := by
  induction runs with
  | nil => cases h
  | cons run runs ih =>
    simp only [imageOf?] at h
    split at h
    · cases h
    · next hlow =>
      split at h
      · next hrun => exact ⟨run, by simp, by omega, hrun.1, (Option.some.inj h).symm⟩
      · obtain ⟨r, hr, hb⟩ := ih h
        exact ⟨r, by simp [hr], hb⟩

/-- Only ASCII capitals and the Kelvin sign have an ASCII letter as their lower case. -/
theorem lowerRuns_ascii_image : ∀ run ∈ lowerRuns,
    run.image < 128 → run.first = 0x41 ∧ run.last = 0x5A ∧ run.image = 0x61 ∨
      run.first = 0x212A ∧ run.last = 0x212A ∧ run.image = 0x6B := by
  decide +kernel

theorem ascii_forall {p : Char → Prop} (h : ∀ n : Fin 128, p (Char.ofNat n)) {c : Char}
    (hc : c.toNat < 128) : p c := by
  have := h ⟨c.toNat, hc⟩
  rwa [Char.ofNat_toNat] at this

theorem toNat_of_ofNat_eq {n : Nat} {c : Char} (h : Char.ofNat n = c) : c.toNat = n ∨ c.toNat = 0 := by
  subst h
  by_cases hvalid : n.isValidChar
  · exact Or.inl (by rw [Char.ofNat, dif_pos hvalid]; rfl)
  · exact Or.inr (by rw [Char.ofNat, dif_neg hvalid]; rfl)

theorem lowerChar_ascii {c : Char} (h : c.toNat < 128) : lowerChar c = [c.toLower] :=
  ascii_forall (p := fun c => lowerChar c = [c.toLower]) (by decide +kernel) h

/-- Capitals of ASCII apart, only the Kelvin sign has an ASCII character as its lower case. -/
theorem ascii_of_lowerChar {c d : Char} (hpos : 0 < d.toNat) (hascii : d.toNat < 128)
    (hk : d ≠ 'k') (h : lowerChar c = [d]) : c.toNat < 128 ∧ c.toLower = d := by
  by_cases hc : c.toNat < 128
  · rw [lowerChar_ascii hc] at h
    exact ⟨hc, by simpa using h⟩
  exfalso
  unfold lowerChar at h
  split at h
  · simp at h
  · cases hi : imageOf? c.toNat lowerRuns with
    | none =>
      have : c = d := by simpa [hi] using h
      exact hc (this ▸ hascii)
    | some m =>
      obtain ⟨run, hr, hlow, hhigh, hm⟩ := imageOf?_some hi
      have hmd : Char.ofNat m = d := by simpa [hi] using h
      have hmv := toNat_of_ofNat_eq hmd
      rcases lowerRuns_ascii_image run hr (by omega) with ⟨h1, h2, h3⟩ | ⟨h1, h2, h3⟩
      · omega
      · have hkelvin : d.toNat = 'k'.toNat := by
          have : 'k'.toNat = 0x6B := rfl
          omega
        exact hk (Char.toNat_inj.mp hkelvin)

theorem lowerFrom_ascii {s : Text} (h : ∀ c ∈ s, c.toNat < 128) (b : Bool) :
    lowerFrom b s = s.map Char.toLower := by
  induction s generalizing b with
  | nil => rfl
  | cons c s ih =>
    have hc : c.toNat < 128 := h c (by simp)
    have hsigma : c ≠ 'Σ' := by
      rintro rfl
      exact absurd hc (by decide)
    simp only [lowerFrom, hsigma, if_false, lowerChar_ascii hc]
    rw [ih fun d hd => h d (by simp [hd])]
    rfl

/-- A text whose lower case is ASCII without `k` is ASCII itself. -/
theorem ascii_of_lowerFrom {s : Text} {b : Bool}
    (h : ∀ d ∈ lowerFrom b s, 0 < d.toNat ∧ d.toNat < 128 ∧ d ≠ 'k') :
    ∀ c ∈ s, c.toNat < 128 := by
  induction s generalizing b with
  | nil => simp
  | cons c s ih =>
    simp only [lowerFrom, List.mem_append] at h
    have hrest := ih fun d hd => h d (Or.inr hd)
    have hhead : c.toNat < 128 := by
      by_cases hsigma : c = 'Σ'
      · exfalso
        simp only [hsigma, if_true] at h
        split at h
        · exact absurd (h 'ς' (by simp)).2.1 (by decide)
        · exact absurd (h 'σ' (by simp)).2.1 (by decide)
      simp only [hsigma, if_false] at h
      by_cases hdot : c = 'İ'
      · exfalso
        subst hdot
        exact absurd (h '\u0307' (Or.inl (by decide))).2.1 (by decide)
      · obtain ⟨d, hd⟩ : ∃ d, lowerChar c = [d] := by
          unfold lowerChar
          rw [if_neg hdot]
          exact ⟨_, rfl⟩
        obtain ⟨hpos, hlt, hk⟩ := h d (by simp [hd])
        exact (ascii_of_lowerChar hpos hlt hk hd).1
    intro d hd
    rcases List.mem_cons.mp hd with rfl | hd
    · exact hhead
    · exact hrest d hd

end Text

theorem ascii_of_isHexDigit {c : Char} (h : isHexDigit c = true) : c.toNat < 128 := by
  simp only [isHexDigit, isDigit, Bool.or_eq_true, Bool.and_eq_true, decide_eq_true_eq,
    Char.le_def, UInt32.le_iff_toNat_le] at h
  rcases h with (⟨-, h⟩ | ⟨-, h⟩) | ⟨-, h⟩
  · exact Nat.lt_of_le_of_lt h (by decide)
  · exact Nat.lt_of_le_of_lt h (by decide)
  · exact Nat.lt_of_le_of_lt h (by decide)

theorem isHexDigit_of_lower {c : Char} (h : isLowerHexDigit c = true) : isHexDigit c = true := by
  simp only [isLowerHexDigit, isHexDigit, Bool.or_eq_true] at h ⊢
  exact Or.inl h

theorem isLowerHexDigit_toLower {c : Char} (hc : c.toNat < 128) :
    isLowerHexDigit c.toLower = isHexDigit c :=
  Text.ascii_forall (p := fun c => isLowerHexDigit c.toLower = isHexDigit c) (by decide) hc

theorem ne_k_of_isLowerHexDigit {c : Char} (h : isLowerHexDigit c = true) :
    0 < c.toNat ∧ c.toNat < 128 ∧ c ≠ 'k' :=
  Text.ascii_forall
    (p := fun c => isLowerHexDigit c = true → 0 < c.toNat ∧ c.toNat < 128 ∧ c ≠ 'k')
    (by decide) (ascii_of_isHexDigit (isHexDigit_of_lower h)) h

namespace Address

theorem Canonical.ne_nil {s : Text} (h : Canonical s) : s ≠ [] := by
  obtain ⟨_, -, -, rfl⟩ := h
  simp

theorem Canonical.spelled {s : Text} (h : Canonical s) : Spelled s := by
  obtain ⟨digits, hlength, hdigits, rfl⟩ := h
  refine ⟨'x', digits, Or.inl rfl, hlength, ?_, rfl⟩
  rw [List.all_eq_true] at hdigits ⊢
  exact fun c hc => isHexDigit_of_lower (hdigits c hc)

theorem Spelled.ascii {s : Text} (h : Spelled s) : ∀ c ∈ s, c.toNat < 128 := by
  obtain ⟨mark, digits, hmark, -, hdigits, rfl⟩ := h
  rw [List.all_eq_true] at hdigits
  simp only [List.mem_cons]
  rintro c (rfl | rfl | hc)
  · decide
  · rcases hmark with rfl | rfl <;> decide
  · exact ascii_of_isHexDigit (hdigits c hc)

theorem Spelled.canonical_lower {s : Text} (h : Spelled s) : Canonical (Text.lower s) := by
  have hascii := h.ascii
  obtain ⟨mark, digits, hmark, hlength, hdigits, rfl⟩ := h
  rw [List.all_eq_true] at hdigits
  refine ⟨digits.map Char.toLower, by simpa using hlength, ?_, ?_⟩
  · simp only [List.all_map, List.all_eq_true, Function.comp]
    intro c hc
    rw [isLowerHexDigit_toLower (ascii_of_isHexDigit (hdigits c hc))]
    exact hdigits c hc
  · rw [Text.lower, Text.lowerFrom_ascii hascii]
    rcases hmark with rfl | rfl <;> rfl

/-- Lower case makes an address of nothing but an address. -/
theorem canonical_lower_iff {s : Text} : Canonical (Text.lower s) ↔ Spelled s := by
  refine ⟨fun h => ?_, Spelled.canonical_lower⟩
  obtain ⟨digits, hlength, hdigits, hs⟩ := h
  rw [List.all_eq_true] at hdigits
  have hascii : ∀ c ∈ s, c.toNat < 128 := by
    apply Text.ascii_of_lowerFrom (b := false)
    intro d hd
    have hd : d ∈ '0' :: 'x' :: digits := hs ▸ hd
    simp only [List.mem_cons] at hd
    rcases hd with rfl | rfl | hd
    · decide
    · decide
    · exact ne_k_of_isLowerHexDigit (hdigits d hd)
  rw [Text.lower, Text.lowerFrom_ascii hascii] at hs
  obtain ⟨zero, rest, rfl, hzero, hrest⟩ := List.map_eq_cons_iff.mp hs
  obtain ⟨mark, tail, rfl, hmark, htail⟩ := List.map_eq_cons_iff.mp hrest
  have hz : zero = '0' := Text.ascii_forall (p := fun c => c.toLower = '0' → c = '0')
    (by decide) (hascii zero (by simp)) hzero
  have hm : mark = 'x' ∨ mark = 'X' :=
    Text.ascii_forall (p := fun c => c.toLower = 'x' → c = 'x' ∨ c = 'X')
      (by decide) (hascii mark (by simp)) hmark
  refine ⟨mark, tail, hm, by rw [← hlength, ← htail, List.length_map], ?_, by rw [hz]⟩
  rw [List.all_eq_true]
  intro c hc
  rw [← isLowerHexDigit_toLower (hascii c (by simp [hc]))]
  exact hdigits _ (htail ▸ List.mem_map_of_mem hc)

theorem Canonical.lower_eq {s : Text} (h : Canonical s) : Text.lower s = s := by
  have hascii := h.spelled.ascii
  obtain ⟨digits, -, hdigits, rfl⟩ := h
  have hdigit : ∀ c ∈ digits, c.toLower = c := by
    intro c hc
    exact Text.ascii_forall (p := fun c => isLowerHexDigit c = true → c.toLower = c) (by decide)
      (hascii c (by simp [hc])) (List.all_eq_true.mp hdigits c hc)
  rw [Text.lower, Text.lowerFrom_ascii hascii, List.map_cons, List.map_cons, List.map_congr_left hdigit,
    List.map_id']
  rfl

theorem canonical_of_read? {s address rest : Text} (h : read? s = some (address, rest)) :
    Canonical address := by
  obtain ⟨digits, hlength, hdigits, -, rfl⟩ := eq_of_read? h
  rw [List.all_eq_true] at hdigits
  refine ⟨digits.map Char.toLower, by simpa using hlength, ?_, rfl⟩
  simp only [List.all_map, List.all_eq_true, Function.comp]
  intro c hc
  rw [isLowerHexDigit_toLower (ascii_of_isHexDigit (hdigits c hc))]
  exact hdigits c hc

end Address

end DeploymentRecords
