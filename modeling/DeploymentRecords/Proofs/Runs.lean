import DeploymentRecords.Proofs.AddressSpelling

/-! # Runs of characters

A run is taken whole when what follows it begins with a character outside its class. The classes
that matter are white space, which no word holds, and ASCII identifiers, which are words. -/

namespace DeploymentRecords.Text

def Stops (p : Char → Bool) (s : Text) : Prop := ∀ c, s.head? = some c → p c = false

variable {p : Char → Bool} {w s : Text}

@[simp] theorem stops_nil : Stops p [] := by simp [Stops]

@[simp] theorem stops_cons {c : Char} : Stops p (c :: s) ↔ p c = false := by simp [Stops]

theorem stops_append (hs : Stops p s) (hne : s ≠ []) (t : Text) : Stops p (s ++ t) := by
  obtain ⟨c, s, rfl⟩ := List.exists_cons_of_ne_nil hne
  exact stops_cons.mpr (stops_cons.mp hs)

theorem stops_of_append {t : Text} (h : Stops p (s ++ t)) : Stops p s := by
  cases s with
  | nil => exact stops_nil
  | cons c s => exact stops_cons.mpr (stops_cons.mp h)

theorem stops_dropWhile (p : Char → Bool) (s : Text) : Stops p (s.dropWhile p) := by
  intro c hc
  have := List.head?_dropWhile_not p s
  rw [hc] at this
  simpa using this

theorem takeWhile_run (hw : ∀ c ∈ w, p c = true) (hs : Stops p s) : (w ++ s).takeWhile p = w := by
  rw [List.takeWhile_append_of_pos hw]
  cases s with
  | nil => simp
  | cons c s => simp [stops_cons.mp hs]

theorem dropWhile_run (hw : ∀ c ∈ w, p c = true) (hs : Stops p s) : (w ++ s).dropWhile p = s := by
  rw [List.dropWhile_append_of_pos hw]
  cases s with
  | nil => simp
  | cons c s => simp [stops_cons.mp hs]

/-- What a text begins with ends before a character that it does not hold. -/
theorem prefix_of_append_eq {a mark s r : Text} {d : Char} (hd : d ∉ mark)
    (h : a ++ d :: s = mark ++ r) : ∃ x, a = mark ++ x := by
  rcases List.append_eq_append_iff.mp h with ⟨x, hx, hr⟩ | ⟨x, hx, -⟩
  · cases x with
    | nil => exact ⟨[], by simpa using hx.symm⟩
    | cons e x =>
      obtain ⟨rfl, -⟩ := List.cons.inj hr
      exact absurd (by simp [hx]) hd
  · exact ⟨x, hx⟩

theorem mem_blankRanges {c : Char} (h : isBlank c = true) : c.toNat ∈
    [0x9, 0xA, 0xB, 0xC, 0xD, 0x20, 0x85, 0xA0, 0x1680, 0x2000, 0x2001, 0x2002, 0x2003, 0x2004,
      0x2005, 0x2006, 0x2007, 0x2008, 0x2009, 0x200A, 0x2028, 0x2029, 0x202F, 0x205F, 0x3000] := by
  obtain ⟨r, hr, hlow, hhigh⟩ := inRanges_sound h
  simp only [blankRanges, List.mem_cons, List.not_mem_nil, or_false] at hr ⊢
  rcases hr with rfl | rfl | rfl | rfl | rfl | rfl | rfl | rfl | rfl | rfl <;> simp at hlow hhigh <;>
    omega

theorem isWord_of_isBlank {c : Char} (h : isBlank c = true) : isWord c = false := by
  have key : ∀ n ∈ [0x9, 0xA, 0xB, 0xC, 0xD, 0x20, 0x85, 0xA0, 0x1680, 0x2000, 0x2001, 0x2002,
      0x2003, 0x2004, 0x2005, 0x2006, 0x2007, 0x2008, 0x2009, 0x200A, 0x2028, 0x2029, 0x202F,
      0x205F, 0x3000], inRanges n wordRanges = false := by decide +kernel
  exact key _ (mem_blankRanges h)

def isNameChar (c : Char) : Bool := c.isAlphanum || c = '_'

theorem ascii_of_isNameChar {c : Char} (h : isNameChar c = true) : c.toNat < 128 := by
  delta isNameChar Char.isAlphanum Char.isAlpha Char.isUpper Char.isLower Char.isDigit at h
  simp only [Bool.or_eq_true, Bool.and_eq_true, decide_eq_true_eq, UInt32.le_iff_toNat_le] at h
  rcases h with ((⟨-, h⟩ | ⟨-, h⟩) | ⟨-, h⟩) | rfl
  · exact Nat.lt_of_le_of_lt h (by decide)
  · exact Nat.lt_of_le_of_lt h (by decide)
  · exact Nat.lt_of_le_of_lt h (by decide)
  · decide

theorem isWord_of_isNameChar {c : Char} (h : isNameChar c = true) : isWord c = true :=
  ascii_forall (p := fun c => isNameChar c = true → isWord c = true) (by decide +kernel)
    (ascii_of_isNameChar h) h

theorem not_isBlank_of_isNameChar {c : Char} (h : isNameChar c = true) : isBlank c = false := by
  cases hb : isBlank c with
  | false => rfl
  | true => exact absurd (isWord_of_isBlank hb) (by simp [isWord_of_isNameChar h])

end DeploymentRecords.Text
