import DeploymentRecords.Proofs.SoundExpr
import Mathlib.Data.List.Forall2

/-! # Expressions in tidy texts

A sound expression reads back from a tidy text as an expression of the same value, but for strings
that stripping changes: these take the value that their stripped form spells. -/

namespace DeploymentRecords.Toml

open Text

def Scalar.settled (v : Scalar) (w : Text) : Scalar :=
  match v with
  | .string _ => .string (Toml.settled w)
  | v => v

namespace Expr

mutual

/-- The value with every string as its stripped form spells it. -/
def settledValue : Expr → Value
  | .scalar v w _ => .scalar (v.settled w)
  | .array elements _ _ _ => .array (settledElements elements)
  | .table entries _ _ _ => .table (settledEntries entries)

def settledElements : List Expr → List Value
  | [] => []
  | e :: es => e.settledValue :: settledElements es

def settledEntries : List (Key × Expr) → List (Text × Value)
  | [] => []
  | (key, e) :: entries => (key.name, e.settledValue) :: settledEntries entries

end

@[simp] theorem value_within (a : Option Surround) (e : Expr) : (e.within a).value = e.value := by
  cases e <;> simp only [within, value]

def core : Expr → Text
  | .scalar _ w _ => w
  | .array elements comma trail _ =>
    '[' :: (elementsText bare elements ++ ((if comma then [','] else []) ++ (trail ++ [']'])))
  | .table entries _ lead _ => '\x7b' :: (lead ++ (joinPairs (pairs [] entries) ++ ['\x7d']))

theorem text_eq (e : Expr) (default : Surround) :
    e.text default = (e.around.getD default).before ++ (e.core ++ (e.around.getD default).after) := by
  cases e <;> simp [text, core, around]

@[simp] theorem core_within (a : Option Surround) (e : Expr) : (e.within a).core = e.core := by
  cases e <;> rfl

/-- The last character of an expression stays in a tidy text. -/
theorem Sound.ends {depth budget : Nat} {e : Expr} (h : e.Sound depth budget) : Ends e.core := by
  match e with
  | .scalar v w around =>
    rw [Sound] at h
    rcases h with ⟨t, -, hspells⟩ | hword
    · obtain ⟨u, q, hq, rfl⟩ := hspells.closing
      exact ⟨u, q, rfl, Key.isBlank_of_isQuote hq⟩
    · obtain ⟨c, u, -, rfl⟩ := hword.opening
      exact ⟨_, _, (List.dropLast_concat_getLast (List.cons_ne_nil c u)).symm,
        hword.solid.ending _ (List.getLast?_eq_some_getLast (List.cons_ne_nil c u))⟩
  | .array elements comma trail around =>
    exact ⟨'[' :: (elementsText bare elements ++ ((if comma then [','] else []) ++ trail)), ']',
      by simp [core], by decide⟩
  | .table entries dotted lead around =>
    exact ⟨'\x7b' :: (lead ++ joinPairs (pairs [] entries)), '\x7d', by simp [core], by decide⟩

mutual

/-- The second expression has the names of the first, and its scalars spelt as in a tidy text. -/
def Twin : Expr → Expr → Prop
  | .scalar _ w _, .scalar _ w' _ => w' = strip w
  | .array .., .array .. => True
  | .table entries _ _ _, .table entries' _ _ _ => EntriesTwin entries entries'
  | _, _ => False

def EntriesTwin : List (Key × Expr) → List (Key × Expr) → Prop
  | [], [] => True
  | (key, e) :: entries, (key', e') :: entries' =>
    key'.name = key.name ∧ e.Twin e' ∧ EntriesTwin entries entries'
  | _, _ => False

end

structure Copies (e e' : Expr) : Prop where
  value : e'.value = e.settledValue
  core : e'.core = strip e.core
  twin : e.Twin e'
  undotted : ∀ entries lead around, e' ≠ .table entries true lead around

theorem twin_within {e e' : Expr} (a : Option Surround) (h : e.Twin e') : e.Twin (e'.within a) := by
  cases e <;> cases e' <;> exact h

theorem Copies.within {e e' : Expr} (h : e.Copies e') (a : Option Surround) :
    e.Copies (e'.within a) :=
  ⟨by rw [value_within, h.value], by rw [core_within, h.core], twin_within a h.twin, by
    rintro entries lead around hdotted
    cases e' with
    | table entries' dotted lead' around' =>
      obtain ⟨rfl, rfl, rfl, -⟩ := table.inj hdotted
      exact h.undotted _ _ _ rfl
    | _ => cases hdotted⟩

theorem exprEnd_strip {r : Text} (h : ExprEnd r) :
    ExprEnd (Text.strip r) := by
  refine ⟨stops_strip (by decide) h.quote, stops_strip (by decide) h.bare, fun c t ht => ?_⟩
  obtain ⟨r, rfl, hr⟩ := cons_of_strip_eq ht (by decide)
  by_cases hc : c = '\n'
  · subst hc
    decide
  · obtain ⟨u, rfl, -⟩ := cons_of_strip_eq hr hc
    exact h.time c u rfl

theorem exprEnd_gap {g : Text} (hg : Gap g) {c : Char} (hquote : isQuote c = false)
    (hbare : isBare c = false) (hspace : c ≠ ' ') (r : Text) : ExprEnd (g ++ c :: r) := by
  have hdigit : Number.isDigit c = false := by
    cases h : Number.isDigit c with
    | false => rfl
    | true => simp [isBare_of_isDigit h] at hbare
  refine ⟨hg.stops_cons (by decide) hquote r, hg.stops_cons (by decide) hbare r, fun d t ht => ?_⟩
  cases hg with
  | nil => exact absurd (List.cons.inj ht).1 hspace
  | space _ hg =>
    have := hg.stops_cons (p := Number.isDigit) (by decide) hdigit r
    rw [List.cons_append, List.cons.injEq] at ht
    exact this d (by rw [ht.2]; rfl)
  | line hn _ =>
    rcases hn with rfl | rfl
    · exact absurd (List.cons.inj ht).1 (by decide)
    · exact absurd (List.cons.inj ht).1 (by decide)
  | remark => exact absurd (List.cons.inj ht).1 (by decide)

theorem exprEnd_spaces {b : Text} (hb : Spaces b) : ExprEnd b := by
  have hstops : ∀ {p : Char → Bool}, p ' ' = false ∧ p '\t' = false → Stops p b := by
    intro p hp c hc
    have : c = ' ' ∨ c = '\t' := by simpa [isSpace] using hb c (List.mem_of_head? hc)
    rcases this with rfl | rfl
    · exact hp.1
    · exact hp.2
  refine ⟨hstops (by decide), hstops (by decide), fun c t ht => ?_⟩
  have : c = ' ' ∨ c = '\t' := by simpa [isSpace] using hb c (by rw [ht]; simp)
  rcases this with rfl | rfl <;> decide

theorem exprEnd_trail {t s next : Text} (ht : Trail t) (hs : LineEnd s next) : ExprEnd (t ++ s) := by
  obtain ⟨b, w, hb, rfl, rfl | ⟨v, rfl, -⟩⟩ := ht
  · rw [List.append_nil]
    rcases hs with ⟨n, rfl | rfl, rfl⟩ | ⟨rfl, -⟩
    · exact exprEnd_gap hb.gap (by decide) (by decide) (by decide) _
    · exact exprEnd_gap hb.gap (by decide) (by decide) (by decide) _
    · rw [List.append_nil]
      exact exprEnd_spaces hb
  · rw [List.append_assoc, List.cons_append]
    exact exprEnd_gap hb.gap (by decide) (by decide) (by decide) _

theorem readNested?_quote {q : Char} (hq : isQuote q = true) (depth : Nat) (s : Text) :
    readNested? depth (q :: s) = (readString? (q :: s)).map fun (t, rest) =>
      (.scalar (.string t) (taken (q :: s) rest) none, rest) := by
  have : q = '"' ∨ q = '\'' := by simpa [isQuote] using hq
  rcases this with rfl | rfl <;> cases depth <;> rfl

theorem readNested?_word {c : Char} (hc : isBare c = true) (depth : Nat) (s : Text) :
    readNested? depth (c :: s) = (readWord? (c :: s)).map fun (v, rest) =>
      (.scalar v (taken (c :: s) rest) none, rest) := by
  have hfacts := (isBare_facts hc).2
  simp only [List.mem_cons, not_or] at hfacts
  unfold readNested?
  split
  · next heq => exact absurd (List.cons.inj heq).1 hfacts.1
  · next heq => exact absurd (List.cons.inj heq).1 hfacts.2.1
  · next heq => exact absurd (List.cons.inj heq).1 hfacts.2.2.2.1
  · next heq => exact absurd (List.cons.inj heq).1 hfacts.2.2.2.2.2.1
  · rfl

theorem read?_written {v : Scalar} {w : Text} (h : v.Written w) {r : Text} (hr : ExprEnd r) :
    read? (w ++ r) = some (.scalar v w none, r) := by
  unfold read?
  rcases h with ⟨t, rfl, hspells⟩ | hword
  · have hread := hspells.reads r hr.quote
    obtain ⟨q, u, hq, rfl⟩ := hspells.opening
    have htaken := taken_append (q :: u) r
    rw [List.cons_append] at hread htaken ⊢
    rw [readNested?_quote hq, hread, Option.map_some]
    simp only [htaken]
  · have hread := hword.reads r hr
    obtain ⟨c, u, hc, rfl⟩ := hword.opening
    have htaken := taken_append (c :: u) r
    rw [List.cons_append] at hread htaken ⊢
    rw [readNested?_word hc, hread, Option.map_some]
    simp only [htaken]

theorem readNested?_written {v : Scalar} {w : Text} {around : Option Surround} {budget : Nat}
    {depth : Nat} (h : (scalar v w around).Sound depth budget) (depth' : Nat) {r : Text} (hr : ExprEnd r) :
    ∃ e, readNested? depth' (strip (w ++ r)) = some (e, strip r) ∧ (scalar v w around).Copies e := by
  have htext : strip (w ++ r) = strip w ++ strip r := h.ends.strip_append r
  rw [Sound] at h
  rcases h with ⟨t, rfl, hspells⟩ | hword
  · have hread := hspells.readString? hr.quote
    have htaken := Key.taken_eq htext
    obtain ⟨q, u, hq, rfl⟩ := hspells.opening
    rw [List.cons_append, strip_quote hq] at hread htaken ⊢
    rw [readNested?_quote hq, hread]
    exact ⟨_, rfl, by rw [value, settledValue]; rfl, htaken, htaken, by simp⟩
  · have hread := hword.reads _ (exprEnd_strip hr)
    have hsettled : v.settled w = v := by
      cases v with
      | string t => exact absurd rfl (hword.noString t)
      | _ => rfl
    have htaken := Key.taken_eq htext
    rw [hword.solid.strip_append] at htaken ⊢
    obtain ⟨c, u, hc, rfl⟩ := hword.opening
    rw [List.cons_append] at hread htaken ⊢
    rw [readNested?_word hc, hread]
    exact ⟨_, rfl, by rw [value, settledValue, hsettled], htaken, htaken, by simp⟩

theorem Sound.opening {depth budget : Nat} {e : Expr} (h : e.Sound depth budget) :
    ∃ c u, e.core = c :: u ∧ isExprHead c = true := by
  match e with
  | .scalar v w around =>
    rw [Sound] at h
    rcases h with ⟨t, -, hspells⟩ | hword
    · obtain ⟨q, u, hq, rfl⟩ := hspells.opening
      exact ⟨q, u, rfl, by simp [isExprHead, hq]⟩
    · obtain ⟨c, u, hc, rfl⟩ := hword.opening
      exact ⟨c, u, rfl, by simp [isExprHead, hc]⟩
  | .array .. => exact ⟨_, _, rfl, by decide⟩
  | .table .. => exact ⟨_, _, rfl, by decide⟩

/-- Sound expressions inside of `depth` arrays and inline tables read back. -/
def ReadsBack (depth : Nat) : Prop := ∀ (e : Expr) (r : Text), e.Sound depth 0 → ExprEnd r →
  ∃ e', readNested? depth (strip (e.core ++ r)) = some (e', strip r) ∧ e.Copies e'

section elements

variable {element : Text → Option (Expr × Text)} {comma : Bool} {s start rest r : Text} {e : Expr}

theorem readElements?_close (hstart : afterGap s = ']' :: r) :
    ∃ trail, readElements? element comma s = some (.array [] comma trail none, r) ∧
      s = trail ++ ']' :: r := by
  unfold readElements?
  simp only [hstart]
  exact ⟨_, rfl, by rw [← hstart, taken_afterGap]⟩

theorem readElements?_last (comma : Bool) {c : Char} (hstart : afterGap s = c :: start) (hc : c ≠ ']')
    (he : element (c :: start) = some (e, rest)) (hstop : afterGap rest = ']' :: r) :
    ∃ a : Surround, readElements? element comma s = some (.array [e.within a] false [] none, r) ∧
      s = a.before ++ c :: start ∧ rest = a.after ++ ']' :: r := by
  unfold readElements?
  simp only [hstart]
  split
  · next heq => exact absurd (List.cons.inj heq).1 hc
  · simp only [he, hstop]
    exact ⟨_, rfl, by rw [← hstart, taken_afterGap], by rw [← hstop, taken_afterGap]⟩

theorem readElements?_next (comma : Bool) {c : Char} {es : List Expr} {comma' : Bool} {trail q : Text}
    {around : Option Surround} (hstart : afterGap s = c :: start) (hc : c ≠ ']')
    (he : element (c :: start) = some (e, rest)) (hstop : afterGap rest = ',' :: r)
    (hlength : r.length < s.length)
    (hrest : readElements? element true r = some (.array es comma' trail around, q)) :
    ∃ a : Surround, readElements? element comma s =
        some (.array (e.within a :: es) comma' trail around, q) ∧
      s = a.before ++ c :: start ∧ rest = a.after ++ ',' :: r := by
  unfold readElements?
  simp only [hstart]
  split
  · next heq => exact absurd (List.cons.inj heq).1 hc
  · simp only [he, hstop]
    rw [dif_pos hlength, hrest]
    exact ⟨_, rfl, by rw [← hstart, taken_afterGap], by rw [← hstop, taken_afterGap]⟩

end elements

theorem elementsText_cons (default : Surround) (e : Expr) (es : List Expr) :
    elementsText default (e :: es) =
      e.text default ++ if es = [] then [] else ',' :: elementsText spaced es := by
  cases es with
  | nil => simp [elementsText]
  | cons e' es => rw [if_neg (by simp), elementsText]; simp

theorem text_within (a default : Surround) (e : Expr) :
    (e.within a).text default = a.before ++ (e.core ++ a.after) := by
  rw [text_eq, around_within, core_within]
  rfl

section

variable {depth : Nat} (hback : ReadsBack depth) {e : Expr} (hsound : e.Sound depth 0) {a : Surround}
  (hbefore : Gap a.before) (hafter : Gap a.after)

include hback hsound hbefore

/-- An element reads back up to what ends it. -/
theorem readNested?_element {x : Text} (hx : ExprEnd (a.after ++ x)) : ∃ c u e', c ≠ ']' ∧
    afterGap (strip (a.before ++ (e.core ++ (a.after ++ x)))) = c :: u ∧
    readNested? depth (c :: u) = some (e', strip (a.after ++ x)) ∧ e.Copies e' ∧
    c :: u = e'.core ++ strip (a.after ++ x) := by
  obtain ⟨c, u, hcore, hhead⟩ := hsound.opening
  obtain ⟨htoken, -, hc⟩ := isExprHead_facts hhead
  obtain ⟨e', hread, hcopies⟩ := hback e _ hsound hx
  have hwhole := hsound.ends.strip_append (a.after ++ x)
  rw [← hcopies.core, hcore, List.cons_append, strip_cons (Or.inl htoken.1)] at hwhole
  rw [hcore, List.cons_append, strip_cons (Or.inl htoken.1)] at hread
  rw [hcore, List.cons_append]
  exact ⟨c, _, e', hc, hbefore.afterGap_token htoken _, hread, hcopies, hwhole⟩

include hafter

theorem readElements?_lastText (comma : Bool) {trail : Text} (htrail : Gap trail) (r : Text) :
    let s := strip (a.before ++ (e.core ++ (a.after ++ (trail ++ ']' :: r))))
    ∃ e', readElements? (readNested? depth) comma s = some (.array [e'] false [] none, strip r) ∧
      e'.value = e.settledValue ∧ ∀ default, s = e'.text default ++ ']' :: strip r := by
  have hend : ExprEnd (a.after ++ (trail ++ ']' :: r)) := by
    rw [← List.append_assoc]
    exact exprEnd_gap (hafter.append htrail) (by decide) (by decide) (by decide) r
  obtain ⟨c, u, e', hc, hstart, hread, hcopies, hwhole⟩ := readNested?_element hback hsound hbefore hend
  have hstop := (hafter.append htrail).afterGap_token (show IsToken ']' by unfold IsToken; decide) r
  rw [List.append_assoc] at hstop
  obtain ⟨a', h, hs, hrest⟩ := readElements?_last comma hstart hc hread hstop
  refine ⟨e'.within a', h, by simp [hcopies.value], fun default => ?_⟩
  rw [hs, hwhole, hrest, text_within]
  simp

theorem readElements?_nextText (comma : Bool) (rest : Text) {es : List Expr} {comma' : Bool} {trail r : Text}
    (hrest : readElements? (readNested? depth) true (strip rest) = some (.array es comma' trail none, r)) :
    let s := strip (a.before ++ (e.core ++ (a.after ++ ',' :: rest)))
    ∃ e', readElements? (readNested? depth) comma s = some (.array (e' :: es) comma' trail none, r) ∧
      e'.value = e.settledValue ∧ ∀ default, s = e'.text default ++ ',' :: strip rest := by
  have hcomma : IsToken ',' := by unfold IsToken; decide
  have hend : ExprEnd (a.after ++ ',' :: rest) :=
    exprEnd_gap hafter (by decide) (by decide) (by decide) rest
  obtain ⟨c, u, e', hc, hstart, hread, hcopies, hwhole⟩ := readNested?_element hback hsound hbefore hend
  have hstop := hafter.afterGap_token hcomma rest
  have hlength : (strip rest).length <
      (strip (a.before ++ (e.core ++ (a.after ++ ',' :: rest)))).length := by
    have := length_strip_le (a.before ++ (e.core ++ a.after)) (',' :: rest)
    rw [strip_cons (Or.inl hcomma.1), List.length_cons] at this
    simp only [List.append_assoc] at this
    omega
  obtain ⟨a', h, hs, hnext⟩ := readElements?_next comma hstart hc hread hstop hlength hrest
  refine ⟨e'.within a', h, by simp [hcopies.value], fun default => ?_⟩
  rw [hs, hwhole, hnext, text_within]
  simp

end

theorem readElements?_elementsText {depth : Nat} (hback : ReadsBack depth) {es : List Expr}
    (hes : ElementsSound depth es) (default : Surround) (comma₀ comma : Bool)
    (hcomma : comma = true → es ≠ []) {trail : Text} (htrail : Gap trail) (r : Text) :
    let s := strip (elementsText default es ++ ((if comma then [','] else []) ++ (trail ++ ']' :: r)))
    ∃ es' comma' trail', readElements? (readNested? depth) comma₀ s =
        some (.array es' comma' trail' none, strip r) ∧ elementValues es' = settledElements es ∧
      (es' = [] → comma' = comma₀) ∧ ∀ default, s = elementsText default es' ++
        ((if comma' && !es'.isEmpty then [','] else []) ++ (trail' ++ ']' :: strip r)) := by
  induction es generalizing default comma₀ comma with
  | nil =>
    obtain rfl : comma = false := by simpa using hcomma
    obtain ⟨trail', hread, htext⟩ := @readElements?_close (readNested? depth) comma₀ _ _
      (htrail.afterGap_token (by unfold IsToken; decide) r)
    refine ⟨[], comma₀, trail', hread, by simp [elementValues, settledElements], fun _ => rfl,
      fun default => ?_⟩
    simpa [elementsText] using htext
  | cons e es ih =>
    obtain ⟨⟨hsound, a, ha, hbefore, hafter⟩, hes⟩ := hes
    have htext : e.text default = a.before ++ (e.core ++ a.after) := by simp [text_eq, ha]
    by_cases hlast : es = [] ∧ comma = false
    · obtain ⟨rfl, rfl⟩ := hlast
      obtain ⟨e', hread, hvalue, hs⟩ := readElements?_lastText hback hsound hbefore hafter comma₀ htrail r
      have hsplit : elementsText default [e] ++ (trail ++ ']' :: r) =
          a.before ++ (e.core ++ (a.after ++ (trail ++ ']' :: r))) := by
        simp [elementsText, htext]
      refine ⟨[e'], false, [], ?_, by simp [elementValues, settledElements, hvalue], by simp,
        fun default => ?_⟩
      · rw [← hread, ← hsplit]
        rfl
      · exact (congrArg strip hsplit).trans (hs default)
    · let rest := elementsText spaced es ++
      -- the comma behind this element is one that the reader has passed for the next one
        ((if comma && !es.isEmpty then [','] else []) ++ (trail ++ ']' :: r))
      obtain ⟨es', comma', trail', hrest, hvalues, hcomma', htexts⟩ := ih hes spaced true
        (comma && !es.isEmpty) (by cases es <;> simp)
      obtain ⟨e', hread, hvalue, hs⟩ :=
        readElements?_nextText hback hsound hbefore hafter comma₀ rest hrest
      have hsplit : elementsText default (e :: es) ++
          ((if comma then [','] else []) ++ (trail ++ ']' :: r)) =
          a.before ++ (e.core ++ (a.after ++ ',' :: rest)) := by
        rw [elementsText_cons, htext]
        cases es with
        | nil =>
          have : comma = true := by simpa using hlast
          simp [rest, this, elementsText]
        | cons => simp [rest]
      refine ⟨e' :: es', comma', trail', by rw [hsplit, hread],
        by simp [elementValues, settledElements, hvalue, hvalues], by simp, fun default => ?_⟩
      rw [hsplit, hs default, show strip rest = _ from htexts spaced, elementsText_cons]
      cases es' with
      | nil => simp [hcomma' rfl, elementsText]
      | cons => simp

mutual

def assigned (path : List Key) : Expr → List (List Key × Expr)
  | .table entries true _ _ => entriesAssigned path entries
  | e => [(path, e)]

def entriesAssigned (path : List Key) : List (Key × Expr) → List (List Key × Expr)
  | [] => []
  | (key, e) :: entries => e.assigned (path ++ [key]) ++ entriesAssigned path entries

end

structure Leaf (e : Expr) : Prop where
  assigned : ∀ path, e.assigned path = [(path, e)]
  pairs : ∀ path key rest, pairs path ((key, e) :: rest) = (path ++ [key], e.text) :: pairs path rest
  sound : ∀ depth budget, e.Sound depth budget → e.Sound depth 0

theorem dotted_or_leaf (e : Expr) :
    (∃ entries lead around, e = .table entries true lead around) ∨ e.Leaf := by
  match e with
  | .table entries true lead around => exact Or.inl ⟨entries, lead, around, rfl⟩
  | .table entries false lead around =>
    exact Or.inr ⟨fun _ => by simp [Expr.assigned], fun _ _ _ => by simp [Expr.pairs],
      fun _ _ h => by simpa only [Sound] using h⟩
  | .array elements comma trail around =>
    exact Or.inr ⟨fun _ => by simp [Expr.assigned], fun _ _ _ => by simp [Expr.pairs],
      fun _ _ h => by simpa only [Sound] using h⟩
  | .scalar v w around =>
    exact Or.inr ⟨fun _ => by simp [Expr.assigned], fun _ _ _ => by simp [Expr.pairs],
      fun _ _ h => by simpa only [Sound] using h⟩

theorem pairs_eq (path : List Key) (entries : List (Key × Expr)) :
    pairs path entries = (entriesAssigned path entries).map fun (path, e) => (path, e.text) := by
  match entries with
  | [] => rfl
  | (key, e) :: rest =>
    have hrest := pairs_eq path rest
    rw [entriesAssigned, List.map_append, ← hrest]
    rcases dotted_or_leaf e with ⟨sub, lead, around, rfl⟩ | hleaf
    · have hsub := pairs_eq (path ++ [key]) sub
      rw [pairs, assigned, hsub]
    · rw [hleaf.pairs, hleaf.assigned]
      rfl

structure Printable (depth : Nat) (pair : List Key × Expr) : Prop where
  ne_nil : pair.1 ≠ []
  length : pair.1.length < Key.maxPath
  keys : ∀ key ∈ pair.1, key.Sound
  outer : Around Spaces Spaces (pair.1.getLast?.bind Key.outer)
  sound : pair.2.Sound depth 0
  around : Around Spaces Spaces pair.2.around

theorem entriesAssigned_ne_nil {depth budget : Nat} {entries : List (Key × Expr)}
    (hentries : EntriesSound depth budget entries) (hne : entries ≠ []) (path : List Key) :
    entriesAssigned path entries ≠ [] := by
  match entries with
  | [] => exact absurd rfl hne
  | (key, e) :: rest =>
    have hsound := hentries.1.2.2.2
    rw [entriesAssigned, ne_eq, List.append_eq_nil_iff, not_and]
    intro h
    rcases dotted_or_leaf e with ⟨sub, lead, around, rfl⟩ | hleaf
    · rw [Sound] at hsound
      obtain ⟨b, -, hne', -, hsub⟩ := hsound
      exact absurd h (entriesAssigned_ne_nil hsub hne' _)
    · rw [hleaf.assigned] at h
      cases h

/-- Sound entries are written as assignments that read back. -/
theorem printable_of_sound {depth budget : Nat} (path : List Key) {entries : List (Key × Expr)}
    (hentries : EntriesSound depth budget entries) (hpath : ∀ key ∈ path, key.Sound)
    (hlength : path.length + budget + 1 < Key.maxPath) :
    ∀ pair ∈ entriesAssigned path entries, Printable depth pair := by
  match entries with
  | [] => simp [entriesAssigned]
  | (key, e) :: rest =>
    rw [EntriesSound] at hentries
    obtain ⟨⟨hkey, houter, haround, hsound⟩, hrest⟩ := hentries
    have ihrest := printable_of_sound path hrest hpath hlength
    have hkeys : ∀ k ∈ path ++ [key], k.Sound := by
      intro k hk
      rcases List.mem_append.mp hk with hk | hk
      · exact hpath k hk
      · exact List.mem_singleton.mp hk ▸ hkey
    have hlonger : (path ++ [key]).length = path.length + 1 := by simp
    intro pair hpair
    rw [entriesAssigned] at hpair
    rcases List.mem_append.mp hpair with hpair | hpair
    · rcases dotted_or_leaf e with ⟨sub, lead, around, rfl⟩ | hleaf
      · rw [Sound] at hsound
        obtain ⟨b, rfl, -, -, hsub⟩ := hsound
        exact printable_of_sound (path ++ [key]) hsub hkeys (by omega) pair hpair
      · rw [hleaf.assigned, List.mem_singleton] at hpair
        subst hpair
        exact ⟨by simp, by simp only [hlonger]; omega, hkeys, by simpa using houter,
          hleaf.sound _ _ hsound, haround⟩
    · exact ihrest pair hpair

section pairs

variable {element : Text → Option (Expr × Text)} {path : List Key} {s rest stop r : Text} {e : Expr}

theorem readPairs?_last (hpath : Key.readPathAfter? [] s = some (path, '=' :: rest))
    (he : element (rest.dropWhile isSpace) = some (e, stop))
    (hstop : stop.dropWhile isSpace = '\x7d' :: r) :
    ∃ a : Surround, readPairs? element s = some ([(path, e.within a)], r) ∧
      rest = a.before ++ rest.dropWhile isSpace ∧ stop = a.after ++ '\x7d' :: r := by
  unfold readPairs?
  simp only [hpath, he, hstop]
  exact ⟨_, rfl, List.takeWhile_append_dropWhile.symm,
    by rw [← hstop, List.takeWhile_append_dropWhile]⟩

theorem readPairs?_next {ps : List (List Key × Expr)} {q : Text}
    (hpath : Key.readPathAfter? [] s = some (path, '=' :: rest))
    (he : element (rest.dropWhile isSpace) = some (e, stop))
    (hstop : stop.dropWhile isSpace = ',' :: r) (hlength : r.length < s.length)
    (hrest : readPairs? element r = some (ps, q)) :
    ∃ a : Surround, readPairs? element s = some ((path, e.within a) :: ps, q) ∧
      rest = a.before ++ rest.dropWhile isSpace ∧ stop = a.after ++ ',' :: r := by
  unfold readPairs?
  simp only [hpath, he, hstop]
  rw [dif_pos hlength, hrest]
  exact ⟨_, rfl, List.takeWhile_append_dropWhile.symm,
    by rw [← hstop, List.takeWhile_append_dropWhile]⟩

end pairs

theorem around_getD {around : Option Surround} (h : Around Spaces Spaces around) (default : Surround)
    (hdefault : Spaces default.before ∧ Spaces default.after) :
    Spaces (around.getD default).before ∧ Spaces (around.getD default).after := by
  cases around with
  | none => exact hdefault
  | some a => exact h a rfl

theorem spaces_default : (Spaces padded.before ∧ Spaces padded.after) ∧
    Spaces spaced.before ∧ Spaces spaced.after := by decide

def CopyOf (first : Bool) (pair' pair : List Key × Expr) : Prop :=
  Key.Told first pair.1 pair'.1 ∧ pair.2.Copies pair'.2

theorem readPair {depth : Nat} (hback : ReadsBack depth) {pair : List Key × Expr}
    (hpair : Printable depth pair) {lead : Text} (hlead : Spaces lead) {default : Surround}
    (hdefault : Spaces default.before ∧ Spaces default.after) {c : Char}
    (hc : c = ',' ∨ c = '\x7d') (r : Text) :
    let s := strip (lead ++ (Key.pathText padded pair.1 ++
      '=' :: (pair.2.text default ++ c :: r)))
    ∃ path rest e stop, Key.readPathAfter? [] s = some (path, '=' :: rest) ∧
      readNested? depth (rest.dropWhile isSpace) = some (e, stop) ∧
      stop.dropWhile isSpace = c :: strip r ∧ (strip r).length < s.length ∧
      CopyOf true (path, e) pair ∧ s = Key.pathText padded path ++ '=' :: rest ∧
      rest.dropWhile isSpace = e.core ++ stop := by
  obtain ⟨hne, hlength, hkeys, houter, hsound, haround⟩ := hpair
  obtain ⟨hbefore, hafter⟩ := around_getD houter _ spaces_default.1
  obtain ⟨hbefore', hafter'⟩ := around_getD haround _ hdefault
  obtain ⟨d, u, hcore, hhead⟩ := hsound.opening
  have htoken := (isExprHead_facts hhead).1
  have hend : ∀ s, ExprEnd ((pair.2.around.getD default).after ++ c :: s) := fun s => by
    rcases hc with rfl | rfl <;> exact exprEnd_gap hafter'.gap (by decide) (by decide) (by decide) s
  have hcblank : isBlank c = false := by rcases hc with rfl | rfl <;> decide
  obtain ⟨path, hpath, htold, htext⟩ := Key.readPathAfter?_joined hne hlength hkeys
    (hlead.append hbefore) hafter (Or.inl rfl) [] (pair.2.text default ++ c :: r)
  obtain ⟨e, hread, hcopies⟩ := hback pair.2 _ hsound (hend r)
  have hstart : (strip (pair.2.text default ++ c :: r)).dropWhile isSpace =
      strip (pair.2.core ++ ((pair.2.around.getD default).after ++ c :: r)) := by
    rw [text_eq, List.append_assoc, List.append_assoc, hbefore'.dropWhile_strip, hcore,
      List.cons_append, strip_cons (Or.inl htoken.1)]
    exact List.dropWhile_cons_of_neg (by simp [isSpace_of_not_isBlank htoken.1])
  have hstop : (strip ((pair.2.around.getD default).after ++ c :: r)).dropWhile isSpace =
      c :: strip r := by
    rw [hafter'.dropWhile_strip, strip_cons (Or.inl hcblank)]
    exact List.dropWhile_cons_of_neg (by simp [isSpace_of_not_isBlank hcblank])
  have hshort := length_strip_le (lead ++ (Key.pathText padded pair.1 ++
    '=' :: pair.2.text default)) (c :: r)
  rw [strip_cons (Or.inl hcblank), List.length_cons] at hshort
  refine ⟨path, _, e, _, ?_, by rw [hstart, hread], hstop, ?_, ⟨htold, hcopies⟩, ?_, ?_⟩
  · rw [← hpath]
    simp [Key.pathText]
  · simp only [List.append_assoc, List.cons_append] at hshort
    exact hshort
  · have hpathText := Key.strip_path hkeys (hlead.append hbefore) hafter (Or.inl rfl)
      (pair.2.text default ++ c :: r)
    rw [htext padded]
    simpa [Key.pathText] using hpathText
  · rw [hstart, hsound.ends.strip_append, hcopies.core]

theorem joinPairs_cons (path : List Key) (e : Surround → Text)
    (pairs : List (List Key × (Surround → Text))) :
    joinPairs ((path, e) :: pairs) = Key.pathText padded path ++
      '=' :: if pairs = [] then e padded else e spaced ++ ',' :: joinPairs pairs := by
  cases pairs with
  | nil => simp [joinPairs]
  | cons pair pairs => rw [if_neg (by simp), joinPairs.eq_3 _ _ _ (by simp)]; simp

/-- The assignments of an inline table read back one after the other. -/
theorem readPairs?_joinPairs {depth : Nat} (hback : ReadsBack depth)
    {pairs : List (List Key × Expr)} (hne : pairs ≠ []) (hpairs : ∀ pair ∈ pairs, Printable depth pair)
    {lead : Text} (hlead : Spaces lead) (r : Text) :
    let s := strip (lead ++ (joinPairs (pairs.map fun (path, e) => (path, e.text)) ++ '\x7d' :: r))
    ∃ pairs', readPairs? (readNested? depth) s = some (pairs', strip r) ∧
      List.Forall₂ (CopyOf true) pairs' pairs ∧
      s = joinPairs (pairs'.map fun (path, e) => (path, e.text)) ++ '\x7d' :: strip r := by
  induction pairs generalizing lead with
  | nil => exact absurd rfl hne
  | cons pair pairs ih =>
    rw [List.forall_mem_cons] at hpairs
    by_cases hlast : pairs = []
    · subst hlast
      obtain ⟨path, rest, e, stop, hpath, hread, hstop, -, ⟨htold, hcopies⟩, hs, hvalue⟩ :=
        readPair hback hpairs.1 hlead spaces_default.1 (Or.inr rfl) r
      obtain ⟨a, h, hbefore, hafter⟩ := readPairs?_last hpath hread hstop
      have hsplit : lead ++ (joinPairs ([pair].map fun (path, e) => (path, e.text)) ++ '\x7d' :: r) =
          lead ++ (Key.pathText padded pair.1 ++ '=' :: (pair.2.text padded ++ '\x7d' :: r)) := by
        simp [joinPairs]
      refine ⟨[(path, e.within a)], by rw [hsplit, h], .cons ⟨htold, hcopies.within a⟩ .nil, ?_⟩
      rw [hsplit, hs, hbefore, hvalue, hafter]
      simp [joinPairs, text_within]
    · obtain ⟨pairs', hrest, hcopies, htext⟩ := ih hlast hpairs.2 spaces_nil
      rw [List.nil_append] at hrest htext
      let rest := joinPairs (pairs.map fun (path, e) => (path, e.text)) ++ '\x7d' :: r
      obtain ⟨path, rest', e, stop, hpath, hread, hstop, hlength, hcopy, hs, hvalue⟩ :=
        readPair hback hpairs.1 hlead spaces_default.2 (Or.inl rfl) rest
      obtain ⟨a, h, hbefore, hafter⟩ := readPairs?_next hpath hread hstop hlength hrest
      have hsplit : lead ++ (joinPairs ((pair :: pairs).map fun (path, e) => (path, e.text)) ++ '\x7d' :: r) =
          lead ++ (Key.pathText padded pair.1 ++ '=' :: (pair.2.text spaced ++ ',' :: rest)) := by
        rw [List.map_cons, joinPairs_cons, if_neg (by simpa using hlast)]
        simp [rest]
      have hne' : pairs' ≠ [] := by
        rintro rfl
        exact hlast (List.forall₂_nil_left_iff.mp hcopies)
      refine ⟨(path, e.within a) :: pairs', by rw [hsplit, h], .cons ⟨hcopy.1, hcopy.2.within a⟩ hcopies, ?_⟩
      rw [hsplit, hs, hbefore, hvalue, hafter, show strip rest = _ from htext, List.map_cons,
        joinPairs_cons, if_neg (by simpa using hne'), text_within]
      simp

theorem entriesAssigned_under (front path : List Key) (entries : List (Key × Expr)) :
    entriesAssigned (front ++ path) entries =
      (entriesAssigned path entries).map fun (p, e) => (front ++ p, e) := by
  match entries with
  | [] => rfl
  | (key, e) :: rest =>
    have hrest := entriesAssigned_under front path rest
    rw [entriesAssigned, entriesAssigned, List.map_append, ← hrest, List.append_assoc]
    rcases dotted_or_leaf e with ⟨sub, lead, around, rfl⟩ | hleaf
    · have hsub := entriesAssigned_under front (path ++ [key]) sub
      rw [assigned, assigned, hsub]
    · rw [hleaf.assigned, hleaf.assigned]
      rfl

theorem length_of_mem_assigned {path : List Key} {entries : List (Key × Expr)}
    {pair : List Key × Expr} (h : pair ∈ entriesAssigned path entries) : path.length < pair.1.length := by
  match entries with
  | [] => cases h
  | (key, e) :: rest =>
    rw [entriesAssigned] at h
    rcases List.mem_append.mp h with h | h
    · rcases dotted_or_leaf e with ⟨sub, lead, around, rfl⟩ | hleaf
      · have := @length_of_mem_assigned _ sub _ h
        rw [List.length_append] at this
        exact Nat.lt_of_succ_lt this
      · rw [hleaf.assigned, List.mem_singleton] at h
        rw [h, List.length_append]
        exact Nat.lt_succ_self _
    · exact @length_of_mem_assigned _ rest _ h

def insertAll? (pairs : List (List Key × Expr)) (entries : List (Key × Expr)) :
    Option (List (Key × Expr)) :=
  pairs.foldlM (fun entries (path, e) => insert? path e entries) entries

/-- Paths below the key of a dotted table that comes last lead into it. -/
theorem insertAll?_last {key : Key} {entries : List (Key × Expr)} (hkey : key.name ∉ names entries)
    {tails : List (List Key × Expr)} (htails : ∀ pair ∈ tails, pair.1 ≠ []) (sub : List (Key × Expr)) :
    insertAll? (tails.map fun (path, e) => (key :: path, e)) (entries ++ [(key, .table sub true [] none)]) =
      (insertAll? tails sub).map fun sub => entries ++ [(key, .table sub true [] none)] := by
  induction tails generalizing sub with
  | nil => rfl
  | cons pair tails ih =>
    rw [List.forall_mem_cons] at htails
    obtain ⟨path, e⟩ := pair
    obtain ⟨next, path, rfl⟩ := List.exists_cons_of_ne_nil htails.1
    have hfind : (entries ++ [(key, Expr.table sub true [] none)]).find?
        (fun p => p.1.name = key.name) = some (key, .table sub true [] none) := by
      rw [List.find?_append, find?_name_eq_none.mpr hkey]
      simp
    rw [insertAll?, List.map_cons, List.foldlM_cons, insertAll?, List.foldlM_cons]
    simp only [insert?_cons_cons, hfind, replace_last hkey]
    cases hinsert : insert? (next :: path) e sub with
    | none => rfl
    | some sub' => exact ih htails.2 sub'

/-- Paths below a key that is new lead to one dotted table. -/
theorem insertAll?_dotted {key : Key} {entries : List (Key × Expr)} (hkey : key.name ∉ names entries)
    {tails : List (List Key × Expr)} (hne : tails ≠ []) (htails : ∀ pair ∈ tails, pair.1 ≠ []) :
    insertAll? (tails.map fun (path, e) => (key :: path, e)) entries =
      (insertAll? tails []).map fun sub => entries ++ [(key, .table sub true [] none)] := by
  obtain ⟨⟨path, e⟩, tails, rfl⟩ := List.exists_cons_of_ne_nil hne
  rw [List.forall_mem_cons] at htails
  obtain ⟨next, path, rfl⟩ := List.exists_cons_of_ne_nil htails.1
  rw [insertAll?, List.map_cons, List.foldlM_cons, insertAll?, List.foldlM_cons]
  simp only [insert?_cons_cons, find?_name_eq_none.mpr hkey]
  cases hinsert : insert? (next :: path) e [] with
  | none => rfl
  | some sub => exact insertAll?_last hkey htails.2 sub

theorem insertAll?_append (as bs : List (List Key × Expr)) (entries : List (Key × Expr)) :
    insertAll? (as ++ bs) entries = (insertAll? as entries).bind (insertAll? bs) :=
  List.foldlM_append

theorem copyOf_under {first : Bool} {key : Key} {pairs others : List (List Key × Expr)}
    (h : List.Forall₂ (CopyOf first) pairs (others.map fun (path, e) => (key :: path, e)))
    (hothers : ∀ pair ∈ others, pair.1 ≠ []) : ∃ key' tails, key'.name = key.name ∧
      pairs = tails.map (fun (path, e) => (key' :: path, e)) ∧
      List.Forall₂ (CopyOf false) tails others := by
  refine ⟨⟨key.name, key.spelling, some ⟨if first then [] else key.before, key.after⟩, none⟩,
    pairs.map (fun (path, e) => (path.tail, e)), rfl, ?_⟩
  induction others generalizing pairs with
  | nil =>
    obtain rfl := List.forall₂_nil_right_iff.mp h
    exact ⟨rfl, .nil⟩
  | cons other others ih =>
    rw [List.forall_mem_cons] at hothers
    obtain ⟨⟨path', e'⟩, pairs, ⟨htold, hcopies⟩, hrest, rfl⟩ := List.forall₂_cons_right_iff.mp h
    obtain ⟨path, e⟩ := other
    obtain ⟨next, path, rfl⟩ := List.exists_cons_of_ne_nil hothers.1
    obtain ⟨hpairs, htails⟩ := ih hrest hothers.2
    cases path' with
    | nil => exact htold.elim
    | cons k path' =>
      obtain ⟨rfl, htold⟩ := htold
      exact ⟨congrArg (_ :: ·) hpairs, .cons ⟨htold, hcopies⟩ htails⟩

theorem path_ne_nil_of_mem {entries : List (Key × Expr)} {pair : List Key × Expr}
    (h : pair ∈ entriesAssigned [] entries) : pair.1 ≠ [] := by
  intro hnil
  have := length_of_mem_assigned h
  simp [hnil] at this

/-- The assignments put one expression behind the entries, which is like `e` and written as they are. -/
def Inserts (acc : List (Key × Expr)) (key : Key) (e : Expr) (pairs : List (List Key × Expr)) : Prop :=
  ∃ key' e', key'.name = key.name ∧ insertAll? pairs acc = some (acc ++ [(key', e')]) ∧
    e'.value = e.settledValue ∧ e.Twin e' ∧ e'.assigned [key'] = pairs

def Builds (entries : List (Key × Expr)) (pairs : List (List Key × Expr)) : Prop :=
  ∃ entries', insertAll? pairs [] = some entries' ∧ entryValues entries' = settledEntries entries ∧
    EntriesTwin entries entries' ∧ entriesAssigned [] entries' = pairs

section

variable {first : Bool} {acc : List (Key × Expr)} {key : Key} {pairs : List (List Key × Expr)}
  (hfresh : key.name ∉ names acc)

include hfresh

theorem Leaf.inserts {e : Expr} (hleaf : e.Leaf)
    (h : List.Forall₂ (CopyOf first) pairs (e.assigned [key])) : Inserts acc key e pairs := by
  rw [hleaf.assigned] at h
  obtain ⟨⟨path', e'⟩, pairs', ⟨htold, hcopies⟩, hnil, rfl⟩ := List.forall₂_cons_right_iff.mp h
  obtain rfl := List.forall₂_nil_right_iff.mp hnil
  obtain ⟨key', rfl, hkey'⟩ := htold.eq_singleton
  refine ⟨key', e', hkey', ?_, hcopies.value, hcopies.twin, ?_⟩
  · have hany : acc.any (fun p => p.1.name = key'.name) = false := by
      cases h : acc.any (fun p => p.1.name = key'.name) with
      | false => rfl
      | true => exact absurd (hkey' ▸ any_name.mp h) hfresh
    rw [insertAll?, List.foldlM_cons]
    simp [insert?, hany]
  · rcases dotted_or_leaf e' with ⟨sub, lead, around, rfl⟩ | hleaf'
    · exact absurd rfl (hcopies.undotted sub lead around)
    · exact hleaf'.assigned _

/-- Assignments below one key build a dotted table. -/
theorem inserts_dotted {sub : List (Key × Expr)} {lead : Text} {around : Option Surround}
    (hne : entriesAssigned [] sub ≠ [])
    (hbuilds : ∀ {tails}, List.Forall₂ (CopyOf false) tails (entriesAssigned [] sub) → Builds sub tails)
    (h : List.Forall₂ (CopyOf first) pairs ((table sub true lead around).assigned [key])) :
    Inserts acc key (.table sub true lead around) pairs := by
  rw [assigned, show [key] = [key] ++ [] from rfl, entriesAssigned_under [key] [] sub] at h
  obtain ⟨key', tails, hkey', rfl, htails⟩ := copyOf_under h fun pair => path_ne_nil_of_mem
  have hnonempty : tails ≠ [] := by
    rintro rfl
    exact hne (List.forall₂_nil_left_iff.mp htails)
  obtain ⟨sub', hsub', hvalues, htwins, hassigned⟩ := hbuilds htails
  have hinsert := insertAll?_dotted (hkey' ▸ hfresh) hnonempty fun pair hpair =>
    path_ne_nil_of_mem (hassigned ▸ hpair)
  rw [hsub'] at hinsert
  refine ⟨key', _, hkey', hinsert, by rw [value, settledValue, ← hvalues], htwins, ?_⟩
  have hunder := entriesAssigned_under [key'] [] sub'
  rw [List.append_nil, hassigned] at hunder
  rw [assigned, hunder]
  rfl

end

/-- What the assignments of sound entries are read as builds entries that are written as these
assignments, with settled values. -/
theorem insertAll?_assigned {depth budget : Nat} (first : Bool) (acc : List (Key × Expr))
    {entries : List (Key × Expr)} (hsound : EntriesSound depth budget entries)
    (hnodup : (names entries).Nodup) (hfresh : ∀ name ∈ names entries, name ∉ names acc)
    {pairs : List (List Key × Expr)}
    (hpairs : List.Forall₂ (CopyOf first) pairs (entriesAssigned [] entries)) :
    ∃ entries', insertAll? pairs acc = some (acc ++ entries') ∧
      entryValues entries' = settledEntries entries ∧ EntriesTwin entries entries' ∧
      entriesAssigned [] entries' = pairs := by
  match entries with
  | [] =>
    obtain rfl := List.forall₂_nil_right_iff.mp hpairs
    exact ⟨[], by simp [insertAll?], rfl, trivial, rfl⟩
  | (key, e) :: rest =>
    rw [EntriesSound] at hsound
    simp only [names, List.map_cons, List.nodup_cons] at hnodup
    simp only [names, List.map_cons, List.forall_mem_cons] at hfresh
    rw [entriesAssigned, List.nil_append] at hpairs
    -- the assignments of the first entry are the ones in front
    have hhead := List.forall₂_take_append _ _ _ hpairs
    have htail := List.forall₂_drop_append _ _ _ hpairs
    rw [← List.take_append_drop (e.assigned [key]).length pairs]
    generalize pairs.take (e.assigned [key]).length = headPairs at hhead ⊢
    generalize pairs.drop (e.assigned [key]).length = tailPairs at htail ⊢
    have hinserts : Inserts acc key e headPairs := by
      rcases dotted_or_leaf e with ⟨sub, lead, around, rfl⟩ | hleaf
      · have hsub := hsound.1.2.2.2
        rw [Sound] at hsub
        obtain ⟨b, -, hne, hnodup', hsub⟩ := hsub
        refine inserts_dotted hfresh.1 (entriesAssigned_ne_nil hsub hne []) (fun htails => ?_) hhead
        exact insertAll?_assigned false [] hsub hnodup' (by simp [names]) htails
      · exact hleaf.inserts hfresh.1 hhead
    obtain ⟨key', e', hkey', hinsert, hvalue, htwin, hassigned⟩ := hinserts
    have hfresh' : ∀ name ∈ names rest, name ∉ names (acc ++ [(key', e')]) := by
      intro name hname hmem
      rw [names, List.map_append, List.mem_append] at hmem
      rcases hmem with hmem | hmem
      · exact hfresh.2 name hname hmem
      · rw [List.map_singleton, List.mem_singleton, hkey'] at hmem
        exact hnodup.1 (hmem ▸ hname)
    obtain ⟨rest', hrest, hvalues, htwins, hassigned'⟩ :=
      insertAll?_assigned first _ hsound.2 hnodup.2 hfresh' htail
    refine ⟨(key', e') :: rest', ?_, ?_, ⟨hkey', htwin, htwins⟩, ?_⟩
    · rw [insertAll?_append, hinsert, Option.bind_some, hrest, List.append_assoc]
      rfl
    · rw [entryValues, settledEntries, hvalues, hvalue, hkey']
    · rw [entriesAssigned, List.nil_append, hassigned, hassigned']

theorem strip_bracket {c : Char} (hc : c = '[' ∨ c = '\x7b') (s : Text) :
    strip (c :: s) = c :: strip s := by
  rcases hc with rfl | rfl <;> exact strip_cons (Or.inl (by decide))

theorem head_of_readPairs? {element : Text → Option (Expr × Text)} {s r : Text}
    {ps : List (List Key × Expr)} (h : readPairs? element s = some (ps, r)) :
    ∃ c t, s.dropWhile isSpace = c :: t ∧ isKeyHead c = true := by
  unfold readPairs? at h
  split at h
  · next hpath => exact Key.head_of_readPathAfter? hpath
  · cases h

/-- The text of an inline table behind its brace reads back. -/
theorem readTable?_pairs {depth : Nat} (hback : ReadsBack depth) {entries : List (Key × Expr)}
    (hsound : EntriesSound depth (Key.maxPath - 2) entries) (hnodup : (names entries).Nodup)
    {lead : Text} (hlead : Spaces lead) (around : Option Surround) (r : Text) :
    ∃ e, readTable? (readNested? depth)
        (strip (lead ++ (joinPairs (pairs [] entries) ++ '\x7d' :: r))) = some (e, strip r) ∧
      (table entries false lead around).Copies e := by
  have hends : Ends (lead ++ (joinPairs (pairs [] entries) ++ ['\x7d'])) :=
    ⟨lead ++ joinPairs (pairs [] entries), '\x7d', by simp, by decide⟩
  have hsplit := hends.strip_append r
  have hcore : strip (table entries false lead around).core =
      '\x7b' :: strip (lead ++ (joinPairs (pairs [] entries) ++ ['\x7d'])) :=
    strip_cons (Or.inl (by decide))
  simp only [List.append_assoc, List.singleton_append] at hsplit
  by_cases hnil : entries = []
  · subst hnil
    have hdrop : (strip (lead ++ '\x7d' :: r)).dropWhile isSpace = '\x7d' :: strip r := by
      rw [hlead.dropWhile_strip, strip_cons (Or.inl (by decide))]
      rfl
    unfold readTable?
    simp only [pairs, joinPairs, List.nil_append, hdrop]
    refine ⟨_, rfl, rfl, ?_, trivial, by simp⟩
    have htake := List.takeWhile_append_dropWhile (p := isSpace) (l := strip (lead ++ '\x7d' :: r))
    rw [hdrop] at htake
    have hcut := htake.trans hsplit
    rw [hcore, core]
    simp only [pairs, joinPairs, List.nil_append] at hcut ⊢
    rw [← List.append_left_inj (strip r), List.cons_append, List.cons_append, ← hcut]
    simp
  · have hprint := printable_of_sound [] hsound (by simp) (by decide)
    have hne := entriesAssigned_ne_nil hsound hnil []
    obtain ⟨ps, hread, hcopies, htext⟩ := readPairs?_joinPairs hback hne hprint hlead r
    rw [← pairs_eq] at hread htext
    obtain ⟨entries', hinsert, hvalues, htwins, hassigned⟩ :=
      insertAll?_assigned true [] hsound hnodup (by simp [names]) hcopies
    rw [List.nil_append] at hinsert
    refine ⟨.table entries' false [] none, ?_, by rw [value, settledValue, hvalues], ?_, htwins, by simp⟩
    · unfold readTable?
      split
      · next rest hdrop =>
        -- a brace does not begin a key
        obtain ⟨c, t, hstart, hc⟩ := head_of_readPairs? hread
        have hfacts := (isKeyHead_facts hc).2
        rw [hdrop] at hstart
        obtain ⟨rfl, -⟩ := List.cons.inj hstart
        exact absurd (by decide) hfacts
      · simp only [hread]
        rw [show ofPairs? ps = some entries' from hinsert]
        rfl
    · rw [← hassigned, ← pairs_eq, hsplit] at htext
      rw [hcore, core, ← List.append_left_inj (strip r), List.cons_append, List.cons_append, htext]
      simp

/-- Every sound expression reads back from a tidy text. -/
theorem readsBack (depth : Nat) : ReadsBack depth := by
  -- on the depth: arrays and inline tables have a smaller one inside
  induction depth with
  | zero =>
    intro e r hsound hr
    cases e with
    | scalar v w around => exact readNested?_written hsound 0 hr
    | array => rw [Sound] at hsound; obtain ⟨d, hd, -⟩ := hsound; cases hd
    | table entries dotted =>
      cases dotted <;> (rw [Sound] at hsound; obtain ⟨d, hd, -⟩ := hsound; cases hd)
  | succ depth ih =>
    intro e r hsound hr
    cases e with
    | scalar v w around => exact readNested?_written hsound _ hr
    | array elements comma trail around =>
      have hends := hsound.ends
      rw [Sound] at hsound
      obtain ⟨d, hd, helements, hcomma, htrail⟩ := hsound
      obtain rfl : depth = d := by omega
      obtain ⟨es, comma', trail', hread, hvalues, hclosed, htext⟩ :=
        readElements?_elementsText ih helements bare false _ hcomma htrail r
      have hwhole : (Expr.array elements comma trail around).core ++ r = '[' :: (elementsText bare elements ++
          ((if comma then [','] else []) ++ (trail ++ ']' :: r))) := by
        simp [core]
      refine ⟨.array es comma' trail' none, ?_, by rw [value, settledValue, hvalues], ?_, trivial, by simp⟩
      · rw [← hread, hwhole, strip_bracket (Or.inl rfl)]
        simp [readNested?]
      · have hsplit := hends.strip_append r
        rw [hwhole, strip_bracket (Or.inl rfl), htext bare] at hsplit
        have hcomma' : (comma' && !es.isEmpty) = comma' := by
          cases es with
          | nil => simp [hclosed rfl]
          | cons => simp
        rw [hcomma'] at hsplit
        rw [← List.append_left_inj (strip r), ← hsplit, core]
        simp
    | table entries dotted lead around =>
      cases dotted with
      | true => rw [Sound] at hsound; obtain ⟨d, hd, -⟩ := hsound; cases hd
      | false =>
        rw [Sound] at hsound
        obtain ⟨d, hd, hlead, hnodup, hentries⟩ := hsound
        obtain rfl : depth = d := by omega
        obtain ⟨e', hread, hcopies⟩ := readTable?_pairs ih hentries hnodup hlead around r
        refine ⟨e', ?_, hcopies⟩
        rw [← hread, core, List.cons_append, strip_bracket (Or.inr rfl)]
        simp [readNested?]

end Expr

end DeploymentRecords.Toml
