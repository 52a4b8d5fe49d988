import DeploymentRecords.Proofs.PageLines

/-! # Digits in another letter case

Two texts are compared that differ in the letter case of hexadecimal digits only, and there only in
runs of digits that follow an `x` and reach to the end of their word. No token of a source file and no
label of a page can take part of such a run: it holds no `x`, and where it begins with digits a letter
that is none follows them in the same word. So every reader makes the same step in both texts. -/

namespace DeploymentRecords

open Text Number

structure SameDigit (c d : Char) : Prop where
  left : isHexDigit c = true
  right : isHexDigit d = true
  lower : c.toLower = d.toLower

/-- Texts that differ in letter case inside runs of digits. The flag says whether the texts begin
inside such a run. -/
inductive Recased : Bool → Text → Text → Prop
  | nil : Recased false [] []
  | same {s t : Text} (c : Char) : Recased false s t → Recased false (c :: s) (c :: t)
  | mark {s t : Text} : Recased true s t → Recased false ('x' :: s) ('x' :: t)
  | digit {s t : Text} {c d : Char} : SameDigit c d → Recased true s t → Recased true (c :: s) (d :: t)
  | stop {s t : Text} : Stops isWord s → Recased false s t → Recased true s t

namespace SameDigit

variable {c d : Char}

theorem symm (h : SameDigit c d) : SameDigit d c := ⟨h.right, h.left, h.lower.symm⟩

theorem isWord_of_isHexDigit (h : isHexDigit c = true) : isWord c = true :=
  (isWord_ascii (ascii_of_isHexDigit h)).trans (ascii_forall
    (p := fun c => isHexDigit c = true → (c.isAlphanum || c = '_') = true) (by decide)
    (ascii_of_isHexDigit h) h)

theorem isWord_left (h : SameDigit c d) : isWord c = true := isWord_of_isHexDigit h.left

theorem isBlank_left (h : SameDigit c d) : isBlank c = false := by
  cases hb : isBlank c with
  | false => rfl
  | true =>
    have := isWord_of_isBlank hb
    rw [h.isWord_left] at this
    cases this

theorem ne_newline (h : SameDigit c d) : c ≠ '\n' := by
  rintro rfl
  exact absurd h.left (by decide)

theorem eq_zero (h : SameDigit '0' d) : d = '0' :=
  ascii_forall (p := fun d => '0'.toLower = d.toLower → d = '0') (by decide)
    (ascii_of_isHexDigit h.right) h.lower

theorem fold_toLower : ∀ n : Fin 128, isHexDigit (Char.ofNat n) = true →
    fold (Char.ofNat n) = (Char.ofNat n).toLower := by decide +kernel

theorem fold_eq (h : SameDigit c d) : fold c = fold d := by
  have key : ∀ e, isHexDigit e = true → fold e = e.toLower := fun e he =>
    ascii_forall (p := fun e => isHexDigit e = true → fold e = e.toLower) fold_toLower
      (ascii_of_isHexDigit he) he
  rw [key c h.left, key d h.right, h.lower]

end SameDigit

namespace Recased

variable {b : Bool} {s t u v : Text} {token : Text}

theorem refl (s : Text) : Recased false s s := by
  induction s with
  | nil => exact .nil
  | cons c s ih => exact .same c ih

theorem stops (h : Recased b s t) (hs : Stops isWord s) : Stops isWord t := by
  induction h with
  | nil => exact hs
  | same c _ _ => simpa using hs
  | mark _ _ =>
    have hmark : isWord 'x' = true := isWord_ascii (by decide)
    rw [stops_cons, hmark] at hs
    cases hs
  | digit hd _ _ => exact absurd (stops_cons.mp hs) (by simp [hd.isWord_left])
  | stop _ _ ih => exact ih hs

theorem symm (h : Recased b s t) : Recased b t s := by
  induction h with
  | nil => exact .nil
  | same c _ ih => exact .same c ih
  | mark _ ih => exact .mark ih
  | digit hd _ ih => exact .digit hd.symm ih
  | stop hs h ih => exact .stop (h.stops hs) ih

theorem uncons (h : Recased b s t) : s = [] ∧ t = [] ∨
    ∃ c d s' t' b', s = c :: s' ∧ t = d :: t' ∧ Recased b' s' t' ∧ (c = d ∨ SameDigit c d) := by
  induction h with
  | nil => exact Or.inl ⟨rfl, rfl⟩
  | same c h _ => exact Or.inr ⟨c, c, _, _, _, rfl, rfl, h, Or.inl rfl⟩
  | mark h _ => exact Or.inr ⟨_, _, _, _, _, rfl, rfl, h, Or.inl rfl⟩
  | digit hd h _ => exact Or.inr ⟨_, _, _, _, _, rfl, rfl, h, Or.inr hd⟩
  | stop _ _ ih => exact ih

theorem eq_nil_iff (h : Recased b s t) : s = [] ↔ t = [] := by
  rcases h.uncons with ⟨rfl, rfl⟩ | ⟨c, d, s', t', b', rfl, rfl, -, -⟩
  · exact Iff.rfl
  · simp

theorem append (h : Recased b s t) (hu : Stops isWord u) (huv : Recased false u v) :
    Recased b (s ++ u) (t ++ v) := by
  induction h with
  | nil => exact huv
  | same c _ ih => exact .same c ih
  | mark _ ih => exact .mark ih
  | digit hd _ ih => exact .digit hd ih
  | @stop s t hs h ih =>
    refine .stop ?_ ih
    cases s with
    | nil => exact hu
    | cons c s => simpa using hs

theorem same_append (w : Text) (h : Recased false s t) : Recased false (w ++ s) (w ++ t) := by
  induction w with
  | nil => exact h
  | cons c w ih => exact .same c ih

theorem drop (h : Recased b s t) (n : Nat) : ∃ b', Recased b' (s.drop n) (t.drop n) := by
  induction n generalizing b s t with
  | zero => exact ⟨b, h⟩
  | succ n ih =>
    rcases h.uncons with ⟨rfl, rfl⟩ | ⟨c, d, s', t', b', rfl, rfl, h', -⟩
    · exact ⟨false, .nil⟩
    · exact ih h'

theorem rel_bind {α β γ δ : Type} {R : α → β → Prop} {S : γ → δ → Prop} {o : Option α} {o' : Option β}
    {f : α → Option γ} {g : β → Option δ} (h : Option.Rel R o o')
    (hf : ∀ x y, R x y → Option.Rel S (f x) (g y)) : Option.Rel S (o.bind f) (o'.bind g) := by
  cases h with
  | none => exact .none
  | some h => exact hf _ _ h

theorem rel_cases {α β : Type} {R : α → β → Prop} {o : Option α} {o' : Option β} (h : Option.Rel R o o') :
    o = none ∧ o' = none ∨ ∃ x y, o = some x ∧ o' = some y ∧ R x y := by
  cases h with
  | none => exact Or.inl ⟨rfl, rfl⟩
  | some h => exact Or.inr ⟨_, _, rfl, rfl, h⟩

theorem rel_isSome {α β : Type} {R : α → β → Prop} {o : Option α} {o' : Option β}
    (h : Option.Rel R o o') : o.isSome = o'.isSome := by
  cases h <;> rfl

/-- Outside of runs a token without `x` is found in both texts or in none. -/
theorem after?_congr (hx : 'x' ∉ token) (h : Recased false s t) :
    Option.Rel (Recased false) (after? token s) (after? token t) := by
  induction token generalizing s t with
  | nil => exact .some h
  | cons e token ih =>
    simp only [List.mem_cons, not_or] at hx
    cases h with
    | nil => exact .none
    | same c h =>
      rw [after?, after?]
      split
      · exact ih hx.2 h
      · exact .none
    | mark h =>
      rw [after?, after?, if_neg (Ne.symm hx.1), if_neg (Ne.symm hx.1)]
      exact .none

/-- The first character of a token that is no digit is part of a word. -/
def Breaks (token : Text) : Prop := ∃ k rest, token.dropWhile isHexDigit = k :: rest ∧ isWord k = true

theorem after?_inside (htoken : Breaks token) (h : Recased true s t) : after? token s = none := by
  obtain ⟨k, rest, hdrop, hk⟩ := htoken
  induction token generalizing s t with
  | nil => cases hdrop
  | cons e token ih =>
    have hword : isWord e = true := by
      by_cases he : isHexDigit e = true
      · exact SameDigit.isWord_of_isHexDigit he
      · rw [List.dropWhile_cons_of_neg he] at hdrop
        rw [(List.cons.inj hdrop).1]
        exact hk
    cases h with
    | @digit s t c d hd h =>
      rw [after?]
      split
      · next hec =>
        subst hec
        rw [List.dropWhile_cons_of_pos hd.left] at hdrop
        exact ih h hdrop
      · rfl
    | stop hs h =>
      cases s with
      | nil => rfl
      | cons c s =>
        have hec : e ≠ c := by
          rintro rfl
          rw [stops_cons, hword] at hs
          cases hs
        rw [after?, if_neg hec]

theorem after?_rel (hx : 'x' ∉ token) (htoken : Breaks token) (h : Recased b s t) :
    Option.Rel (Recased false) (after? token s) (after? token t) := by
  cases b with
  | false => exact after?_congr hx h
  | true =>
    rw [after?_inside htoken h, after?_inside htoken h.symm]
    exact .none

theorem after?_rel_cons {k : Char} (hx : 'x' ∉ k :: token) (hk : isWord k = false) (h : Recased b s t) :
    Option.Rel (Recased false) (after? (k :: token) s) (after? (k :: token) t) := by
  cases h with
  | nil => exact after?_congr hx .nil
  | same c h => exact after?_congr hx (.same c h)
  | mark h => exact after?_congr hx (.mark h)
  | stop _ h => exact after?_congr hx h
  | digit hd h =>
    have hne : ∀ {c d}, SameDigit c d → k ≠ c := by
      rintro c d hd rfl
      rw [hd.isWord_left] at hk
      cases hk
    rw [after?, after?, if_neg (hne hd), if_neg (hne hd.symm)]
    exact .none

/-- A search succeeds at the same place if its reader does in every pair of texts. -/
theorem search?_rel {α β : Type} {R : α → β → Prop} {read : Text → Option α} {read' : Text → Option β}
    (hread : ∀ b s t, Recased b s t → Option.Rel R (read s) (read' t)) (h : Recased b s t) :
    Option.Rel R (search? read s) (search? read' t) := by
  have hcons : ∀ {b c d s t}, Recased b (c :: s) (d :: t) → Option.Rel R (search? read s) (search? read' t) →
      Option.Rel R (search? read (c :: s)) (search? read' (d :: t)) := by
    intro b c d s t hwhole hrest
    rw [search?, search?]
    rcases rel_cases (hread b _ _ hwhole) with ⟨hs, ht⟩ | ⟨x, y, hs, ht, hxy⟩
    · rw [hs, ht]
      exact hrest
    · rw [hs, ht]
      exact .some hxy
  induction h with
  | nil => exact hread false [] [] .nil
  | same c h ih => exact hcons (.same c h) ih
  | mark h ih => exact hcons (.mark h) ih
  | digit hd h ih => exact hcons (.digit hd h) ih
  | stop _ _ ih => exact ih

theorem contains_eq (hx : 'x' ∉ token) (htoken : Breaks token) (h : Recased b s t) :
    contains token s = contains token t := by
  exact rel_isSome (h.search?_rel fun b s t h => after?_rel hx htoken h)

theorem map_eq (h : Recased b s t) :
    s.map Char.toLower = t.map Char.toLower ∧ s.map isHexDigit = t.map isHexDigit := by
  induction h with
  | nil => exact ⟨rfl, rfl⟩
  | same c _ ih => simp [ih]
  | mark _ ih => simp [ih]
  | digit hd _ ih => simp [ih, hd.lower, hd.left, hd.right]
  | stop _ _ ih => exact ih

theorem after?_step {R : Text → Text → Prop} {k : Char} (hk : ∀ {c d}, SameDigit c d → k = c → k = d)
    (htoken : ∀ b s t, Recased b s t → Option.Rel R (after? token s) (after? token t))
    (h : Recased b s t) : Option.Rel R (after? (k :: token) s) (after? (k :: token) t) := by
  rcases h.uncons with ⟨rfl, rfl⟩ | ⟨c, d, s, t, b, rfl, rfl, h, hcd⟩
  · exact .none
  have hiff : k = c ↔ k = d := by
    rcases hcd with rfl | hcd
    · exact Iff.rfl
    · exact ⟨hk hcd, hk hcd.symm⟩
  rw [after?, after?]
  by_cases hc : k = c
  · rw [if_pos hc, if_pos (hiff.mp hc)]
    exact htoken b s t h
  · rw [if_neg hc, if_neg (mt hiff.mpr hc)]
    exact .none

theorem after?_mark (h : Recased b s t) :
    Option.Rel (fun u v => ∃ b', Recased b' u v) (after? ['0', 'x'] s) (after? ['0', 'x'] t) := by
  refine after?_step (fun hcd hc => ?_) (fun _ _ _ => after?_step (fun hcd hc => ?_) fun b _ _ h => ?_) h
  · exact (hc ▸ hcd).eq_zero.symm
  · exact absurd (hc ▸ hcd.left) (by decide)
  · exact .some ⟨b, h⟩

theorem read?_rel (h : Recased b s t) :
    Option.Rel (fun p q => p.1 = q.1 ∧ ∃ b', Recased b' p.2 q.2) (Address.read? s) (Address.read? t) := by
  rw [Address.read?, Address.read?]
  rcases rel_cases h.after?_mark with ⟨hs, ht⟩ | ⟨u, v, hs, ht, b', h⟩
  · rw [hs, ht]
    exact .none
  · obtain ⟨hlower, hdigits⟩ := h.map_eq
    have htake : (u.take Address.digitCount).map Char.toLower = (v.take Address.digitCount).map Char.toLower := by
      rw [List.map_take, List.map_take, hlower]
    have hall : (u.take Address.digitCount).all isHexDigit = (v.take Address.digitCount).all isHexDigit := by
      have hmap : (u.take Address.digitCount).map isHexDigit = (v.take Address.digitCount).map isHexDigit := by
        rw [List.map_take, List.map_take, hdigits]
      have hid : ∀ w : Text, w.all isHexDigit = (w.map isHexDigit).all id := fun w => by
        rw [List.all_map]
        rfl
      rw [hid, hmap, ← hid]
    have hlength : (u.take Address.digitCount).length = (v.take Address.digitCount).length := by
      simpa using congrArg List.length htake
    simp only [hs, ht, hall, hlength, htake]
    split
    · exact .some ⟨rfl, h.drop _⟩
    · exact .none

end Recased

end DeploymentRecords
