import DeploymentRecords.Proofs.AddressTables
import DeploymentRecords.Proofs.Runs

/-! # Files of constants

A source file is written here as a list of constants with other text between them, and a constant
as a list of entries. The block that is found for a name is that of the constant with this name,
whatever white space, order of items, spelling of the name or names that begin one another. -/

namespace DeploymentRecords

open Text

structure Entry where
  lead : Text
  name : Text
  beforeColon : Text
  afterColon : Text
  value : Text
  lead_ne_nil : lead ≠ []
  name_ne_nil : name ≠ []
  value_ne_nil : value ≠ []
  lead_blank : ∀ c ∈ lead, isBlank c = true
  name_chars : ∀ c ∈ name, isNameChar c = true
  beforeColon_blank : ∀ c ∈ beforeColon, isBlank c = true
  afterColon_blank : ∀ c ∈ afterColon, isBlank c = true
  value_chars : ',' ∉ value ∧ ';' ∉ value
  value_quiet : contains "pub const".toList value = false
  /-- Only the value of an address field may mention one. -/
  value_untracked : (¬ ∃ w, w ≠ [] ∧ name = w ++ "_address".toList) →
    contains "_address".toList value = false

namespace Entry

/-- An entry for an address: its name is more than `_address` and ends in it. -/
def Tracked (e : Entry) : Prop := ∃ w, w ≠ [] ∧ e.name = w ++ "_address".toList

def text (e : Entry) : Text :=
  e.lead ++ (e.name ++ (e.beforeColon ++ ':' :: (e.afterColon ++ (e.value ++ [',']))))

end Entry

/-- `pub const NAME: Deployment = Deployment { … };` behind other text. -/
structure Constant where
  before : Text
  name : Text
  beforeColon : Text
  beforeType : Text
  beforeEquals : Text
  beforeValue : Text
  beforeBrace : Text
  entries : List Entry
  beforeEnd : Text
  before_quiet : contains "pub const".toList before = false
  name_ne_nil : name ≠ []
  name_chars : ∀ c ∈ name, c.isUpper = true ∨ c.isDigit = true ∨ c = '_'
  beforeColon_blank : ∀ c ∈ beforeColon, isBlank c = true
  beforeType_blank : ∀ c ∈ beforeType, isBlank c = true
  beforeEquals_blank : ∀ c ∈ beforeEquals, isBlank c = true
  beforeValue_blank : ∀ c ∈ beforeValue, isBlank c = true
  beforeBrace_blank : ∀ c ∈ beforeBrace, isBlank c = true
  beforeEnd_blank : ∀ c ∈ beforeEnd, isBlank c = true
  names_nodup : (entries.map Entry.name).Nodup

namespace Constant

def tokens (c : Constant) : List (Text × Text) :=
  [(c.beforeColon, ":".toList), (c.beforeType, "Deployment".toList), (c.beforeEquals, "=".toList),
   (c.beforeValue, "Deployment".toList), (c.beforeBrace, "\x7b".toList)]

def signature (c : Constant) : Text := c.tokens.flatMap fun (blanks, token) => blanks ++ token

def body (c : Constant) : Text := c.entries.flatMap Entry.text ++ c.beforeEnd

def text (c : Constant) : Text :=
  c.before ++ ("pub const ".toList ++ (c.name ++ (c.signature ++ (c.body ++ "\x7d;".toList))))

end Constant

structure SourceFile where
  constants : List Constant
  trail : Text
  trail_quiet : contains "pub const".toList trail = false
  names_nodup : (constants.map Constant.name).Nodup

def SourceFile.text (file : SourceFile) : Text := file.constants.flatMap Constant.text ++ file.trail

/-- No `pub const` begins inside `a` when `s` follows it. -/
def Quiet (s a : Text) : Prop :=
  ∀ a₁ a₂, a = a₁ ++ a₂ → a₂ ≠ [] → after? "pub const".toList (a₂ ++ s) = none

theorem Quiet.append {s a b : Text} (ha : Quiet (b ++ s) a) (hb : Quiet s b) :
    Quiet s (a ++ b) := by
  intro x y hxy hy
  rcases List.append_eq_append_iff.mp hxy with ⟨z, rfl, hz⟩ | ⟨z, rfl, rfl⟩
  · exact hb z y hz hy
  · by_cases hz : z = []
    · subst hz
      exact hb [] b rfl hy
    · rw [List.append_assoc]
      exact ha x z rfl hz

theorem quiet_nil {s : Text} : Quiet s [] := by
  intro x y hxy hy
  exact absurd (List.append_eq_nil_iff.mp hxy.symm).2 hy

theorem quiet_cons {s a : Text} {c : Char} (hc : after? "pub const".toList (c :: (a ++ s)) = none)
    (ha : Quiet s a) : Quiet s (c :: a) := by
  intro x y hxy hy
  cases x with
  | nil =>
    rw [List.nil_append] at hxy
    subst hxy
    exact hc
  | cons d x => exact ha x y (List.cons.inj hxy).2 hy

theorem quiet_of_not_mem {s a : Text} (h : 'p' ∉ a) : Quiet s a := by
  induction a with
  | nil => exact quiet_nil
  | cons c a ih =>
    have hc : 'p' ≠ c := fun e => h (e ▸ List.mem_cons_self)
    exact quiet_cons (by simp [after?, hc]) (ih fun hm => h (List.mem_cons_of_mem c hm))

theorem quiet_of_blank {s a : Text} (h : ∀ c ∈ a, isBlank c = true) : Quiet s a :=
  quiet_of_not_mem fun hp => absurd (h 'p' hp) (by decide)

theorem quiet_of_contains {s a : Text} (h : contains "pub const".toList a = false)
    (hs : ∀ c, s.head? = some c → c ∉ "ub const".toList) : Quiet s a := by
  intro x y hxy hy
  cases hafter : after? "pub const".toList (y ++ s) with
  | none => rfl
  | some r =>
    have hno : ∀ z, y ≠ "pub const".toList ++ z := by
      rintro z rfl
      rw [contains_iff.mpr ⟨x, z, by simp [hxy]⟩] at h
      cases h
    have he : y ++ s = 'p' :: ("ub const".toList ++ r) := after?_eq_some_iff.mp hafter
    cases s with
    | nil => exact absurd (by simpa using he) (hno r)
    | cons d s =>
      cases y with
      | nil => exact absurd rfl hy
      | cons c y =>
        rw [List.cons_append, List.cons.injEq] at he
        obtain ⟨rfl, he⟩ := he
        obtain ⟨z, rfl⟩ := prefix_of_append_eq (hs d rfl) he
        exact absurd rfl (hno z)

/-- A name before a colon is no `pub`: white space does not lead from it to a second word. -/
theorem quiet_name {s name blanks : Text} (hname : ∀ c ∈ name, isNameChar c = true)
    (hblanks : ∀ c ∈ blanks, isBlank c = true) : Quiet (blanks ++ ':' :: s) name := by
  intro x y hxy hy
  cases hafter : after? "pub const".toList (y ++ (blanks ++ ':' :: s)) with
  | none => rfl
  | some r =>
    exfalso
    have he : "pub".toList ++ ' ' :: 'c' :: ("onst".toList ++ r) = y ++ (blanks ++ ':' :: s) :=
      (after?_eq_some_iff.mp hafter).symm
    have hspace : ' ' ∉ y := fun hm => absurd (hname ' ' (by simp [hxy, hm])) (by decide)
    obtain ⟨z, hz⟩ := prefix_of_append_eq hspace he
    rw [hz, List.append_assoc, List.append_cancel_left_eq] at he
    -- what is left of `pub` has to begin with white space or a colon, so nothing is left
    have hnil : z = [] := by
      cases z with
      | nil => rfl
      | cons c z =>
        have hc : c = 'p' ∨ c = 'u' ∨ c = 'b' := by
          have : c ∈ "pub".toList := by simp [hz]
          simpa using this
        cases blanks with
        | nil =>
          have hcolon : c = ':' := (List.cons.inj he).1
          rcases hc with rfl | rfl | rfl <;> exact absurd hcolon (by decide)
        | cons b blanks =>
          have hb : c = b := (List.cons.inj he).1
          have hblank : isBlank c = true := hb ▸ hblanks b (by simp)
          rcases hc with rfl | rfl | rfl <;> exact absurd hblank (by decide)
    subst hnil
    cases blanks with
    | nil => exact absurd (List.cons.inj he).1 (by decide)
    | cons b blanks =>
      have he := (List.cons.inj he).2
      cases blanks with
      | nil => exact absurd (List.cons.inj he).1 (by decide)
      | cons b' blanks =>
        have hb : 'c' = b' := (List.cons.inj he).1
        exact absurd (hb ▸ hblanks b' (by simp)) (by decide)

theorem after?_append_append (a b s : Text) : after? (a ++ b) (a ++ s) = after? b s := by
  induction a with
  | nil => rfl
  | cons c a ih => simpa [after?] using ih

namespace SourceTable

theorem afterTokens?_flatMap {tokens : List (Text × Text)} (rest : Text)
    (h : ∀ t ∈ tokens, (∀ c ∈ t.1, isBlank c = true) ∧ t.2 ≠ [] ∧ Stops isBlank t.2) :
    afterTokens? (tokens.map (·.2))
      (tokens.flatMap (fun (blanks, token) => blanks ++ token) ++ rest) = some rest := by
  induction tokens with
  | nil => rfl
  | cons t tokens ih =>
    obtain ⟨blanks, token⟩ := t
    obtain ⟨hblanks, hne, hstops⟩ := h (blanks, token) (by simp)
    obtain ⟨d, token, rfl⟩ := List.exists_cons_of_ne_nil hne
    simp only [List.flatMap_cons, List.append_assoc, List.map_cons, afterTokens?]
    have hskip : skipBlanks (blanks ++ ((d :: token) ++
        (tokens.flatMap (fun (blanks, token) => blanks ++ token) ++ rest))) =
        (d :: token) ++ (tokens.flatMap (fun (blanks, token) => blanks ++ token) ++ rest) :=
      dropWhile_run hblanks (by simpa using hstops)
    rw [hskip, after?_append, Option.bind_some]
    exact ih fun t ht => h t (List.mem_cons_of_mem _ ht)

theorem starts_of_afterHead? {constant s rest : Text} (h : afterHead? constant s = some rest) :
    ∃ r, after? "pub const".toList s = some r := by
  obtain ⟨r, hr, -⟩ := Option.bind_eq_some_iff.mp h
  have he := after?_eq_some_iff.mp hr
  exact ⟨' ' :: (constant ++ r), after?_eq_some_iff.mpr (by simpa using he)⟩

theorem search?_quiet {constant s a : Text} (h : Quiet s a) :
    search? (afterHead? constant) (a ++ s) = search? (afterHead? constant) s := by
  apply search?_append
  intro a₁ a₂ ha hne
  cases hhead : afterHead? constant (a₂ ++ s) with
  | none => rfl
  | some rest =>
    obtain ⟨r, hr⟩ := starts_of_afterHead? hhead
    rw [h a₁ a₂ ha hne] at hr
    cases hr

end SourceTable

theorem Entry.quiet (e : Entry) (s : Text) : Quiet s e.text := by
  have hvalue : Quiet (',' :: s) e.value :=
    quiet_of_contains e.value_quiet (by rintro c ⟨⟩; decide)
  have hname := quiet_name (s := e.afterColon ++ (e.value ++ ',' :: s)) e.name_chars
    e.beforeColon_blank
  refine (quiet_of_blank e.lead_blank).append (Quiet.append (by simpa using hname) ?_)
  refine (quiet_of_blank e.beforeColon_blank).append (quiet_cons (by simp [after?]) ?_)
  refine (quiet_of_blank e.afterColon_blank).append (Quiet.append (by simpa using hvalue) ?_)
  exact quiet_cons (by simp [after?]) quiet_nil

namespace Constant

variable (c : Constant)

theorem body_quiet (s : Text) : Quiet s c.body := by
  refine Quiet.append ?_ (quiet_of_blank c.beforeEnd_blank)
  induction c.entries with
  | nil => exact quiet_nil
  | cons e entries ih => exact (e.quiet _).append ih

theorem nameChars : ∀ d ∈ c.name, isNameChar d = true := by
  intro d hd
  show (d.isUpper || d.isLower || d.isDigit || decide (d = '_')) = true
  rcases c.name_chars d hd with h | h | rfl
  · simp [h]
  · simp [h]
  · decide

theorem tokens_spaced : ∀ t ∈ c.tokens,
    (∀ d ∈ t.1, isBlank d = true) ∧ t.2 ≠ [] ∧ Stops isBlank t.2 := by
  intro t ht
  simp only [tokens, List.mem_cons, List.not_mem_nil, or_false] at ht
  rcases ht with rfl | rfl | rfl | rfl | rfl
  · exact ⟨c.beforeColon_blank, by simp, by simp; decide⟩
  · exact ⟨c.beforeType_blank, by simp, by simp; decide⟩
  · exact ⟨c.beforeEquals_blank, by simp, by simp; decide⟩
  · exact ⟨c.beforeValue_blank, by simp, by simp; decide⟩
  · exact ⟨c.beforeBrace_blank, by simp, by simp; decide⟩

theorem afterHead?_self (rest : Text) :
    SourceTable.afterHead? c.name ("pub const ".toList ++ (c.name ++ (c.signature ++ rest))) =
      some rest := by
  rw [SourceTable.afterHead?, after?_append_append, after?_append, Option.bind_some]
  exact SourceTable.afterTokens?_flatMap rest c.tokens_spaced

/-- The head of a constant is not taken for that of another, also where one name begins the
other. -/
theorem afterHead?_other {name : Text} (hname : ∀ d ∈ name, isNameChar d = true)
    (hne : c.name ≠ name) (rest : Text) :
    SourceTable.afterHead? name ("pub const ".toList ++ (c.name ++ (c.signature ++ rest))) =
      none := by
  rw [SourceTable.afterHead?, after?_append_append]
  cases hafter : after? name (c.name ++ (c.signature ++ rest)) with
  | none => rfl
  | some r =>
    rw [Option.bind_some]
    have he := after?_eq_some_iff.mp hafter
    obtain ⟨d, t, hsignature, hd⟩ : ∃ d t, c.signature ++ rest = d :: t ∧ isNameChar d = false := by
      cases hb : c.beforeColon with
      | nil => exact ⟨':', _, by simp [signature, tokens, hb]; rfl, by decide⟩
      | cons d blanks =>
        refine ⟨d, _, by simp [signature, tokens, hb]; rfl, ?_⟩
        cases hd : isNameChar d with
        | false => rfl
        | true =>
          have := c.beforeColon_blank d (by simp [hb])
          rw [not_isBlank_of_isNameChar hd] at this
          cases this
    rw [hsignature] at he
    have hmem : d ∉ name := fun hm => by simp [hname d hm] at hd
    -- what is left of the longer name stands where the colon should be
    obtain ⟨x, hx⟩ := prefix_of_append_eq hmem he
    cases x with
    | nil => exact absurd (by simpa using hx) hne
    | cons e x =>
      have hechar : isNameChar e = true := c.nameChars e (by simp [hx])
      have hr : r = e :: (x ++ d :: t) := by
        rw [hx, List.append_assoc] at he
        exact (List.append_cancel_left he).symm
      have hskip : SourceTable.skipBlanks r = r := by
        rw [hr]
        exact List.dropWhile_cons_of_neg (by simp [not_isBlank_of_isNameChar hechar])
      have hcolon : after? ":".toList r = none := by
        have : ':' ≠ e := by
          rintro rfl
          exact absurd hechar (by decide)
        simp [hr, after?, this]
      rw [SourceTable.afterTokens?, hskip, hcolon, Option.bind_none]

theorem quiet_tokens {tokens : List (Text × Text)}
    (h : ∀ t ∈ tokens, (∀ d ∈ t.1, isBlank d = true) ∧ ∀ s, Quiet s t.2) (s : Text) :
    Quiet s (tokens.flatMap fun (blanks, token) => blanks ++ token) := by
  induction tokens with
  | nil => exact quiet_nil
  | cons t tokens ih =>
    obtain ⟨hblanks, htoken⟩ := h t (by simp)
    rw [List.flatMap_cons]
    exact ((quiet_of_blank hblanks).append (htoken _)).append
      (ih fun t ht => h t (List.mem_cons_of_mem _ ht))

theorem quiet_deployment (s : Text) : Quiet s "Deployment".toList := by
  rw [show "Deployment".toList = ['D', 'e'] ++ 'p' :: "loyment".toList from rfl]
  refine (quiet_of_not_mem (by decide)).append (quiet_cons ?_ (quiet_of_not_mem (by decide)))
  simp [after?]

theorem signature_quiet (s : Text) : Quiet s c.signature := by
  apply quiet_tokens
  intro t ht
  simp only [tokens, List.mem_cons, List.not_mem_nil, or_false] at ht
  rcases ht with rfl | rfl | rfl | rfl | rfl
  · exact ⟨c.beforeColon_blank, fun _ => quiet_of_not_mem (by simp)⟩
  · exact ⟨c.beforeType_blank, quiet_deployment⟩
  · exact ⟨c.beforeEquals_blank, fun _ => quiet_of_not_mem (by simp)⟩
  · exact ⟨c.beforeValue_blank, quiet_deployment⟩
  · exact ⟨c.beforeBrace_blank, fun _ => quiet_of_not_mem (by simp)⟩

/-- Behind its first letter a constant holds no other `pub const`. -/
theorem rest_quiet (s : Text) :
    Quiet s ("ub const ".toList ++ (c.name ++ (c.signature ++ (c.body ++ "\x7d;".toList)))) := by
  have hname : 'p' ∉ c.name := fun hm => by
    rcases c.name_chars 'p' hm with h | h | h <;> exact absurd h (by decide)
  refine (quiet_of_not_mem (by simp)).append ((quiet_of_not_mem hname).append ?_)
  refine (c.signature_quiet _).append ((c.body_quiet _).append (quiet_of_not_mem (by simp)))

/-- The search for a head passes over a constant of another name. -/
theorem search?_other {name : Text} (hname : ∀ d ∈ name, isNameChar d = true)
    (hne : c.name ≠ name) (s : Text) :
    search? (SourceTable.afterHead? name) (c.text ++ s) =
      search? (SourceTable.afterHead? name) s := by
  let rest := "ub const ".toList ++ (c.name ++ (c.signature ++ (c.body ++ "\x7d;".toList)))
  have htext : c.text ++ s = c.before ++ 'p' :: (rest ++ s) := by simp [text, rest]
  have hhead : SourceTable.afterHead? name ('p' :: (rest ++ s)) = none := by
    have := c.afterHead?_other hname hne (c.body ++ ("\x7d;".toList ++ s))
    simpa [rest] using this
  rw [htext, SourceTable.search?_quiet
    (quiet_of_contains c.before_quiet (by rintro d ⟨⟩; decide)), search?, hhead]
  exact SourceTable.search?_quiet (c.rest_quiet s)

theorem search?_others {name : Text} (hname : ∀ d ∈ name, isNameChar d = true)
    {constants : List Constant} (h : ∀ c ∈ constants, c.name ≠ name) (s : Text) :
    search? (SourceTable.afterHead? name) (constants.flatMap text ++ s) =
      search? (SourceTable.afterHead? name) s := by
  induction constants with
  | nil => rfl
  | cons c constants ih =>
    rw [List.flatMap_cons, List.append_assoc, c.search?_other hname (h c (by simp)),
      ih fun d hd => h d (by simp [hd])]

/-- The search for its own head stops at a constant. -/
theorem search?_self (s : Text) :
    search? (SourceTable.afterHead? c.name) (c.text ++ s) =
      some (c.body ++ ("\x7d;".toList ++ s)) := by
  let rest := "ub const ".toList ++ (c.name ++ (c.signature ++ (c.body ++ "\x7d;".toList)))
  have htext : c.text ++ s = c.before ++ 'p' :: (rest ++ s) := by simp [text, rest]
  have hhead : SourceTable.afterHead? c.name ('p' :: (rest ++ s)) =
      some (c.body ++ ("\x7d;".toList ++ s)) := by
    have := c.afterHead?_self (c.body ++ ("\x7d;".toList ++ s))
    simpa [rest] using this
  rw [htext, SourceTable.search?_quiet
    (quiet_of_contains c.before_quiet (by rintro d ⟨⟩; decide)), search?, hhead]

end Constant

theorem upperChar_ascii {c : Char} (h : c.toNat < 128) : upperChar c = [c.toUpper] :=
  ascii_forall (p := fun c => upperChar c = [c.toUpper]) (by decide +kernel) h

theorem upper_ascii {s : Text} (h : ∀ c ∈ s, c.toNat < 128) : upper s = s.map Char.toUpper := by
  induction s with
  | nil => rfl
  | cons c s ih =>
    have hs := ih fun d hd => h d (by simp [hd])
    rw [upper] at hs ⊢
    rw [List.flatMap_cons, upperChar_ascii (h c (by simp)), hs]
    rfl

theorem ascii_of_toUpper {c : Char} (h : c.toUpper.toNat < 128) : c.toNat < 128 := by
  unfold Char.toUpper at h
  split at h
  · next hc => exact Nat.lt_of_le_of_lt (UInt32.le_iff_toNat_le.mp hc.2) (by decide)
  · exact h

/-- Any spelling of a name of capitals is spelt in capitals as that name. -/
theorem upper_spelling {spelling name : Text} (h : spelling.map Char.toUpper = name)
    (hname : ∀ c ∈ name, isNameChar c = true) : upper spelling = name := by
  rw [upper_ascii, h]
  intro c hc
  exact ascii_of_toUpper (ascii_of_isNameChar (hname _ (h ▸ List.mem_map_of_mem hc)))

theorem cut?_char {d : Char} {a : Text} (h : d ∉ a) (s : Text) :
    cut? [d] (a ++ d :: s) = some (a, s) :=
  (cut?_eq_some_iff List.not_mem_nil).mpr ⟨rfl, not_contains_of_not_mem List.mem_cons_self h⟩

theorem cut?_of_not_mem {a s : Text} (h : ';' ∉ a) :
    cut? "\x7d;".toList (a ++ ("\x7d;".toList ++ s)) = some (a, s) :=
  (cut?_eq_some_iff (show '\x7d' ∉ [';'] by decide)).mpr
    ⟨rfl, not_contains_of_not_mem (show ';' ∈ "\x7d;".toList by decide) h⟩

theorem Entry.semicolon_not_mem (e : Entry) : ';' ∉ e.text := by
  have hblank : ∀ t : Text, (∀ c ∈ t, isBlank c = true) → ';' ∉ t :=
    fun t ht hm => absurd (ht ';' hm) (by decide)
  have hname : ';' ∉ e.name := fun hm => absurd (e.name_chars ';' hm) (by decide)
  simp [text, hblank _ e.lead_blank, hname, hblank _ e.beforeColon_blank,
    hblank _ e.afterColon_blank, e.value_chars.2]

theorem Constant.semicolon_not_mem (c : Constant) : ';' ∉ c.body := by
  intro hm
  rcases List.mem_append.mp hm with hm | hm
  · obtain ⟨e, -, he⟩ := List.mem_flatMap.mp hm
    exact e.semicolon_not_mem he
  · exact absurd (c.beforeEnd_blank ';' hm) (by decide)

theorem SourceFile.block?_text (file : SourceFile) {c : Constant} (hc : c ∈ file.constants)
    {spelling : Text} (hspelling : spelling.map Char.toUpper = c.name) :
    SourceTable.block? file.text spelling = some c.body := by
  obtain ⟨before, after, hsplit⟩ := List.append_of_mem hc
  have hnodup := file.names_nodup
  rw [hsplit, List.map_append, List.nodup_append] at hnodup
  have hsearch : search? (SourceTable.afterHead? c.name) file.text =
      some (c.body ++ ("\x7d;".toList ++ (after.flatMap Constant.text ++ file.trail))) := by
    have hother : ∀ d ∈ before, d.name ≠ c.name := fun d hd =>
      hnodup.2.2 d.name (List.mem_map_of_mem hd) c.name (by simp)
    rw [text, hsplit, List.flatMap_append, List.append_assoc,
      Constant.search?_others c.nameChars hother, List.flatMap_cons, List.append_assoc,
      c.search?_self]
  simp only [SourceTable.block?, upper_spelling hspelling c.nameChars, hsearch,
    cut?_of_not_mem c.semicolon_not_mem, Option.map_some]

theorem isNameChar_toUpper {c : Char} (h : isNameChar c = true) : isNameChar c.toUpper = true :=
  ascii_forall (p := fun c => isNameChar c = true → isNameChar c.toUpper = true) (by decide)
    (ascii_of_isNameChar h) h

theorem SourceFile.block?_unknown (file : SourceFile) {spelling : Text}
    (hchars : ∀ d ∈ spelling, isNameChar d = true)
    (hother : ∀ c ∈ file.constants, c.name ≠ spelling.map Char.toUpper) :
    SourceTable.block? file.text spelling = none := by
  have hupper : ∀ d ∈ spelling.map Char.toUpper, isNameChar d = true := by
    intro d hd
    obtain ⟨e, he, rfl⟩ := List.mem_map.mp hd
    exact isNameChar_toUpper (hchars e he)
  have htrail : search? (SourceTable.afterHead? (spelling.map Char.toUpper)) (file.trail ++ []) =
      none := by
    rw [SourceTable.search?_quiet (quiet_of_contains file.trail_quiet (by simp))]
    rfl
  rw [List.append_nil] at htrail
  rw [SourceTable.block?, upper_spelling rfl hupper, text, Constant.search?_others hupper hother,
    htrail]

end DeploymentRecords
