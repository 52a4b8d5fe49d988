import DeploymentRecords.Proofs.ExprReading
import DeploymentRecords.Toml.Document

/-! # Statements in tidy texts

Statements are written one after the other and read back in that order, with the names of their
paths and the settled values of their expressions. -/

namespace DeploymentRecords.Toml

open Text

inductive Shape where
  | header (array : Bool) (path : List Text)
  | assign (path : List Text) (value : Value)

namespace Statement

def shape : Statement → Shape
  | .header array path _ => .header array (path.map Key.name)
  | .assign path e => .assign (path.map Key.name) e.value

def settledShape : Statement → Shape
  | .header array path _ => .header array (path.map Key.name)
  | .assign path e => .assign (path.map Key.name) e.settledValue

def Copies : Statement → Statement → Prop
  | .header array path _, .header array' path' _ =>
    array' = array ∧ path'.map Key.name = path.map Key.name
  | .assign path e, .assign path' e' => path'.map Key.name = path.map Key.name ∧ e.Copies e'
  | _, _ => False

theorem Copies.shape {st st' : Statement} (h : st.Copies st') : st'.shape = st.settledShape := by
  cases st with
  | header array path around =>
    cases st' with
    | header array' path' around' => rw [Statement.shape, settledShape, h.1, h.2]
    | assign => exact h.elim
  | assign path e =>
    cases st' with
    | header => exact h.elim
    | assign path' e' => rw [Statement.shape, settledShape, h.1, h.2.value]

theorem shapes_of_copies {sts sts' : List Statement} (h : List.Forall₂ Copies sts sts') :
    sts'.map Statement.shape = sts.map settledShape := by
  induction h with
  | nil => rfl
  | cons hst _ ih => rw [List.map_cons, List.map_cons, hst.shape, ih]

def Kept : Statement → Prop
  | .header _ path around =>
    Key.Settled Spaces path ∧ path.length < Key.maxPath ∧ Gap around.before ∧ Trail around.after
  | .assign path e =>
    Key.Settled Gap path ∧ path.length < Key.maxPath ∧ e.Sound Expr.maxDepth 0 ∧
      Around Spaces Trail e.around

def Printable : Statement → Prop
  | .header _ path around =>
    path ≠ [] ∧ path.length < Key.maxPath ∧ (∀ key ∈ path, key.Sound) ∧
      Around Spaces Spaces (path.getLast?.bind Key.outer) ∧ Gap around.before ∧ Trail around.after
  | .assign path e =>
    path ≠ [] ∧ path.length < Key.maxPath ∧ (∀ key ∈ path, key.Sound) ∧
      Around Gap Spaces (path.getLast?.bind Key.outer) ∧ e.Sound Expr.maxDepth 0 ∧
      Around Spaces Trail e.around

theorem kept_of_readHeader? {array : Bool} {lead s r : Text} {st : Statement} (hlead : Gap lead)
    (h : readHeader? array lead s = some (st, r)) : st.Kept := by
  unfold readHeader? at h
  split at h
  · next path rest hpath =>
    obtain ⟨hsettled, hlength, -⟩ := Key.settled_of_readPathAfter? hpath
    split at h
    · obtain ⟨⟨trail, next⟩, htrail, he⟩ := Option.map_eq_some_iff.mp h
      obtain ⟨rfl, -⟩ := Prod.mk.inj he
      exact ⟨hsettled.imp fun _ => Expr.spaces_of_nil_append, hlength, hlead,
        (trail_of_readLineEnd? htrail).1⟩
    · cases h
  · cases h

theorem kept_of_readAssign? {lead s r : Text} {st : Statement} (hlead : Gap lead)
    (h : readAssign? lead s = some (st, r)) : st.Kept := by
  unfold readAssign? at h
  split at h
  · next path rest hpath =>
    obtain ⟨hsettled, hlength, -⟩ := Key.settled_of_readPathAfter? hpath
    split at h
    · next e stop hread =>
      obtain ⟨⟨trail, next⟩, htrail, he⟩ := Option.map_eq_some_iff.mp h
      obtain ⟨rfl, -⟩ := Prod.mk.inj he
      refine ⟨hsettled.imp ?_, hlength,
        Expr.sound_within.mpr (Expr.sound_of_read? hread), ?_⟩
      · rintro _ ⟨blanks, hblanks, rfl⟩
        exact hlead.append hblanks.gap
      · intro a ha
        rw [Expr.around_within] at ha
        cases ha
        exact ⟨spaces_takeWhile rest, (trail_of_readLineEnd? htrail).1⟩
    · cases h
  · cases h

theorem head_of_read? {lead s r : Text} {st : Statement} (h : read? lead s = some (st, r)) :
    ∃ c t, s.dropWhile isSpace = c :: t ∧ (c = '[' ∨ isKeyHead c = true) := by
  unfold read? at h
  split at h
  · exact ⟨'[', _, rfl, Or.inl rfl⟩
  · exact ⟨'[', _, rfl, Or.inl rfl⟩
  · unfold readAssign? at h
    split at h
    · next hpath =>
      obtain ⟨c, t, hs, hc⟩ := Key.head_of_readPathAfter? hpath
      exact ⟨c, t, hs, Or.inr hc⟩
    · cases h

theorem isPrintable_of_isKeyHead {c : Char} (h : isKeyHead c = true) : isPrintable c = true := by
  simp only [isKeyHead, isQuote, Bool.or_eq_true, decide_eq_true_eq] at h
  rcases h with (rfl | rfl) | h
  · decide
  · decide
  · exact ascii_forall (p := fun c => isBareKey c = true → isPrintable c = true) (by decide)
      (ascii_of_isBareKey h) h

theorem kept_of_read? {lead s r : Text} {st : Statement} (hlead : Gap lead)
    (h : read? lead s = some (st, r)) : st.Kept := by
  unfold read? at h
  split at h
  · exact kept_of_readHeader? hlead h
  · exact kept_of_readHeader? hlead h
  · exact kept_of_readAssign? hlead h

def Tail (trail : Text) : Prop :=
  Gap trail ∨ ∃ g w, Gap g ∧ (∀ c ∈ w, isPrintable c = true) ∧ trail = g ++ '#' :: w

theorem kept_of_readAll? {s trail : Text} {sts : List Statement}
    (h : readAll? s = some (sts, trail)) : (∀ st ∈ sts, st.Kept) ∧ Tail trail := by
  fun_induction readAll? s generalizing sts
  case case1 s start lead hstart =>
    obtain ⟨rfl, rfl⟩ := Prod.mk.inj (Option.some.inj h)
    refine ⟨by simp, ?_⟩
    show Tail (taken s (afterGap s))
    rcases afterGap_cases s with ⟨g, hg, hs⟩ | ⟨g, w, hg, hw, hs, -⟩
    · exact Or.inl ((Key.taken_eq hs).symm ▸ hg)
    · have hs' : s = (g ++ '#' :: w) ++ afterGap s := by simpa using hs
      exact Or.inr ⟨g, w, hg, hw, Key.taken_eq hs'⟩
  case case3 s start lead hstart st rest hread hlength ih =>
    obtain ⟨⟨sts, t⟩, hrest, he⟩ := Option.map_eq_some_iff.mp h
    obtain ⟨rfl, rfl⟩ := Prod.mk.inj he
    obtain ⟨hkept, htail⟩ := ih hrest
    refine ⟨?_, htail⟩
    rw [List.forall_mem_cons]
    refine ⟨kept_of_read? ?_ hread, hkept⟩
    -- the remark above a statement has come to its end
    have hgap : ∃ c t, start = c :: t ∧ isPrintable c = true := by
      obtain ⟨c, t, hc, hhead⟩ := head_of_read? hread
      have hprint : isPrintable c = true := by
        rcases hhead with rfl | hhead
        · decide
        · exact isPrintable_of_isKeyHead hhead
      obtain ⟨d, u, hu⟩ := List.exists_cons_of_ne_nil hstart
      rw [hu] at hc
      by_cases hd : isSpace d = true
      · have : d = ' ' ∨ d = '\t' := by simpa [isSpace] using hd
        exact ⟨d, u, hu, by rcases this with rfl | rfl <;> decide⟩
      · rw [List.dropWhile_cons_of_neg hd] at hc
        exact ⟨c, t, hu.trans hc, hprint⟩
    obtain ⟨c, t, hc, hprint⟩ := hgap
    obtain ⟨g, hg, hs⟩ := gap_of_afterGap hc hprint
    have hs' : s = g ++ afterGap s := hs.trans (congrArg (g ++ ·) hc.symm)
    show Gap (taken s (afterGap s))
    exact (Key.taken_eq hs').symm ▸ hg
  all_goals cases h

theorem after?_close (array : Bool) (r : Text) :
    Text.after? (if array then [']', ']'] else [']'])
      ((if array then [']', ']'] else [']']) ++ r) = some r := by
  cases array <;> simp [Text.after?]

theorem readHeader?_strip {array : Bool} {path : List Key} {around : Surround}
    (h : (Statement.header array path around).Printable) (lead r : Text) :
    let s := strip (Key.pathText Expr.bare path ++
      ((if array then [']', ']'] else [']']) ++ (around.after ++ '\n' :: r)))
    ∃ st', readHeader? array lead s = some (st', strip r) ∧
      (Statement.header array path around).Copies st' ∧
      st'.text ++ strip r = lead ++ ((if array then ['[', '['] else ['[']) ++ s) := by
  obtain ⟨hne, hlength, hkeys, houter, -, htrail⟩ := h
  obtain ⟨hbefore, hafter⟩ := Expr.around_getD houter Expr.bare ⟨spaces_nil, spaces_nil⟩
  obtain ⟨t', hend, hline⟩ := readLineEnd?_strip htrail r
  have hclose : (if array then [']', ']'] else [']']) ++ (around.after ++ '\n' :: r) =
      ']' :: ((if array then [']'] else []) ++ (around.after ++ '\n' :: r)) := by
    cases array <;> rfl
  have hstrip : ']' :: strip ((if array then [']'] else []) ++ (around.after ++ '\n' :: r)) =
      (if array then [']', ']'] else [']']) ++ strip (around.after ++ '\n' :: r) := by
    cases array
    · rfl
    · simp only [if_true, List.cons_append, List.nil_append]
      rw [strip_cons (Or.inl (by decide))]
  obtain ⟨path', hpath, htold, htext⟩ := Key.readPathAfter?_joined hne hlength hkeys hbefore hafter
    (Or.inr rfl) [] ((if array then [']'] else []) ++ (around.after ++ '\n' :: r))
  refine ⟨.header array path' ⟨lead, t'⟩, ?_, ⟨rfl, htold.names⟩, ?_⟩
  · rw [hclose, Key.pathText, List.append_assoc, List.append_assoc, readHeader?, hpath]
    simp only [hstrip, after?_close, hend]
    rfl
  · rw [hclose, Key.pathText, List.append_assoc, List.append_assoc,
      Key.strip_path hkeys hbefore hafter (Or.inr rfl), hstrip, hline]
    cases array <;> simp [text, htext]

theorem readAssign?_strip {path : List Key} {e : Expr} (h : (Statement.assign path e).Printable)
    {b : Text} (hb : Spaces b) (lead r : Text) :
    let s := strip (b ++ (Key.joined path ++ (((path.getLast?.bind Key.outer).getD newKey).after ++
      '=' :: (e.text Expr.spaced ++ '\n' :: r))))
    ∃ st', readAssign? lead s = some (st', strip r) ∧ (Statement.assign path e).Copies st' ∧
      st'.text ++ strip r = lead ++ s := by
  obtain ⟨hne, hlength, hkeys, houter, hsound, haround⟩ := h
  have hafter : Spaces ((path.getLast?.bind Key.outer).getD newKey).after := by
    cases ho : path.getLast?.bind Key.outer with
    | none => exact show Spaces newKey.after by decide
    | some a => exact (houter a ho).2
  obtain ⟨hbefore', htrail⟩ : Spaces (e.around.getD Expr.spaced).before ∧
      Trail (e.around.getD Expr.spaced).after := by
    cases ha : e.around with
    | none => exact ⟨Expr.spaces_default.2.1, Expr.spaces_default.2.2.trail⟩
    | some a => exact haround a ha
  obtain ⟨path', hpath, htold, htext⟩ := Key.readPathAfter?_joined hne hlength hkeys hb hafter
    (Or.inl rfl) lead (e.text Expr.spaced ++ '\n' :: r)
  obtain ⟨c, u, hcore, hhead⟩ := hsound.opening
  have htoken := (Expr.isExprHead_facts hhead).1
  have hline : LineEnd ('\n' :: r) r := Or.inl ⟨['\n'], Or.inl rfl, rfl⟩
  obtain ⟨e', hread, hcopies⟩ := Expr.readsBack Expr.maxDepth e _ hsound (Expr.exprEnd_trail htrail hline)
  have hstart : (strip (e.text Expr.spaced ++ '\n' :: r)).dropWhile isSpace =
      strip (e.core ++ ((e.around.getD Expr.spaced).after ++ '\n' :: r)) := by
    rw [Expr.text_eq, List.append_assoc, List.append_assoc, hbefore'.dropWhile_strip, hcore,
      List.cons_append, strip_cons (Or.inl htoken.1)]
    exact List.dropWhile_cons_of_neg (by simp [isSpace_of_not_isBlank htoken.1])
  obtain ⟨t', hend, hline'⟩ := readLineEnd?_strip htrail r
  have hread' : Expr.read? (strip (e.core ++ ((e.around.getD Expr.spaced).after ++ '\n' :: r))) =
      some (e', strip ((e.around.getD Expr.spaced).after ++ '\n' :: r)) := hread
  intro s
  rw [readAssign?, hpath]
  simp only [hstart, hread', hend, Option.map_some]
  refine ⟨_, rfl, ⟨htold.names, hcopies.within _⟩, ?_⟩
  have hsplit := List.takeWhile_append_dropWhile (p := isSpace)
    (l := strip (e.text Expr.spaced ++ '\n' :: r))
  rw [hstart, hsound.ends.strip_append, ← hcopies.core, hline'] at hsplit
  rw [show s = _ from Key.strip_path hkeys hb hafter (Or.inl rfl) _, text, htext, Expr.text_within]
  conv_rhs => rw [← hsplit]
  simp

theorem strip_path_ne_bracket {path : List Key} {around : Surround}
    (h : (Statement.header false path around).Printable) (r t : Text) :
    strip (Key.pathText Expr.bare path ++ ([']'] ++ (around.after ++ '\n' :: r))) ≠ '[' :: t := by
  intro ht
  obtain ⟨hne, -, hkeys, houter, -⟩ := h
  obtain ⟨c, u, hu, hc⟩ := Key.head_of_joined hne hkeys
  obtain ⟨hbefore, hafter⟩ := Expr.around_getD houter Expr.bare ⟨spaces_nil, spaces_nil⟩
  have hpath := Key.strip_path hkeys hbefore hafter (Or.inr rfl) (around.after ++ '\n' :: r)
  rw [Key.pathText, List.append_assoc, List.append_assoc, List.singleton_append, hpath, hu,
    List.cons_append] at ht
  have hbracket : decide (c = '[') = false :=
    decide_eq_false fun e => (isKeyHead_facts hc).2 (e ▸ by simp)
  have hstops := hbefore.stops_cons (p := fun c => decide (c = '[')) (by decide) hbracket
    (u ++ (((path.getLast?.bind Key.outer).getD Expr.bare).after ++ ']' :: strip (around.after ++ '\n' :: r)))
  rw [ht, stops_cons] at hstops
  cases hstops

theorem read?_header {array : Bool} {path : List Key} {around : Surround}
    (h : (Statement.header array path around).Printable) (lead r : Text) :
    let s := afterGap (strip ((Statement.header array path around).text ++ r))
    ∃ st', read? lead s = some (st', strip r) ∧ (Statement.header array path around).Copies st' ∧
      st'.text ++ strip r = lead ++ s := by
  have hbracket : IsToken '[' := ⟨by decide, by decide⟩
  obtain ⟨st', hread, hcopies, hsame⟩ := readHeader?_strip h lead r
  refine ⟨st', ?_⟩
  have hgap := h.2.2.2.2.1
  cases array with
  | true =>
    have htext : (Statement.header true path around).text ++ r = around.before ++ '[' :: ('[' ::
        (Key.pathText Expr.bare path ++ ([']', ']'] ++ (around.after ++ '\n' :: r)))) := by
      simp [text]
    rw [htext, hgap.afterGap_token hbracket, strip_cons (Or.inl (by decide))]
    exact ⟨hread, hcopies, hsame⟩
  | false =>
    have htext : (Statement.header false path around).text ++ r = around.before ++ '[' ::
        (Key.pathText Expr.bare path ++ ([']'] ++ (around.after ++ '\n' :: r))) := by
      simp [text]
    rw [htext, hgap.afterGap_token hbracket, read?.eq_2 _ _ (strip_path_ne_bracket h r)]
    exact ⟨hread, hcopies, hsame⟩

theorem read?_assign {path : List Key} {e : Expr} (h : (Statement.assign path e).Printable)
    (lead r : Text) :
    let s := afterGap (strip ((Statement.assign path e).text ++ r))
    ∃ st', read? lead s = some (st', strip r) ∧ (Statement.assign path e).Copies st' ∧
      st'.text ++ strip r = lead ++ s := by
  obtain ⟨st', hread, hcopies, hsame⟩ := readAssign?_strip h spaces_nil lead r
  refine ⟨st', ?_⟩
  obtain ⟨hne, -, hkeys, houter, -⟩ := h
  obtain ⟨c, u, hu, hc⟩ := Key.head_of_joined hne hkeys
  obtain ⟨hblank, hbracket⟩ := isKeyHead_facts hc
  have hgap : Gap ((path.getLast?.bind Key.outer).getD newKey).before := by
    cases ho : path.getLast?.bind Key.outer with
    | none => exact .nil
    | some a => exact (houter a ho).1
  let rest := u ++ (((path.getLast?.bind Key.outer).getD newKey).after ++
    '=' :: (e.text Expr.spaced ++ '\n' :: r))
  have htext : (Statement.assign path e).text ++ r =
      ((path.getLast?.bind Key.outer).getD newKey).before ++ c :: rest := by
    simp [text, Key.pathText, hu, rest]
  have htoken : IsToken c := ⟨hblank, fun e => hbracket (e ▸ by simp)⟩
  have hnot : c ≠ '[' := fun e => hbracket (e ▸ by simp)
  have hstart : strip ([] ++ (Key.joined path ++ (((path.getLast?.bind Key.outer).getD newKey).after ++
      '=' :: (e.text Expr.spaced ++ '\n' :: r)))) = c :: strip rest := by
    rw [hu, List.nil_append, List.cons_append, strip_cons (Or.inl hblank)]
  rw [htext, hgap.afterGap_token htoken, read?.eq_3 _ _ (fun _ e => hnot (List.cons.inj e).1)
    fun _ e => hnot (List.cons.inj e).1, ← hstart]
  exact ⟨hread, hcopies, hsame⟩

/-- A printable statement is what stands first in a tidy text that it begins. -/
theorem read?_text {st : Statement} (h : st.Printable) (lead r : Text) :
    ∃ st', read? lead (afterGap (strip (st.text ++ r))) = some (st', strip r) ∧ st.Copies st' ∧
      st'.text ++ strip r = lead ++ afterGap (strip (st.text ++ r)) := by
  cases st with
  | header array path around => exact read?_header h lead r
  | assign path e => exact read?_assign h lead r

theorem read?_nil (lead : Text) : read? lead [] = none := by
  cases h : read? lead [] with
  | none => rfl
  | some p =>
    obtain ⟨c, t, ht, -⟩ := @head_of_read? _ _ p.2 p.1 h
    cases ht

theorem exists_text_eq (st : Statement) : ∃ w, st.text = w ++ ['\n'] := by
  cases st with
  | header array path around => cases array <;> exact ⟨_, rfl⟩
  | assign path e => exact ⟨_, rfl⟩

theorem readAll?_text {sts : List Statement} (h : ∀ st ∈ sts, st.Printable) {g : Text}
    (hg : Gap g) : ∃ sts' trail, readAll? (strip (sts.flatMap text ++ g)) = some (sts', trail) ∧
      List.Forall₂ Copies sts sts' ∧ strip (sts.flatMap text ++ g) = sts'.flatMap text ++ trail := by
  induction sts with
  | nil =>
    have hnil : afterGap (strip (([] : List Statement).flatMap text ++ g)) = [] := by
      have := hg.afterGap_strip []
      rw [List.append_nil] at this
      rw [List.flatMap_nil, List.nil_append, this]
      rfl
    refine ⟨[], taken (strip (([] : List Statement).flatMap text ++ g)) [], ?_, .nil, ?_⟩
    · unfold readAll?
      simp only [hnil, if_true]
    · have := taken_afterGap (strip (([] : List Statement).flatMap text ++ g))
      rw [hnil, List.append_nil] at this
      exact this.symm
  | cons st sts ih =>
    obtain ⟨hst, hsts⟩ := List.forall_mem_cons.mp h
    obtain ⟨sts', trail, hread, hcopies, hsame⟩ := ih hsts
    let rest := sts.flatMap text ++ g
    have htext : (st :: sts).flatMap text ++ g = st.text ++ rest := by simp [rest]
    let lead := taken (strip (st.text ++ rest)) (afterGap (strip (st.text ++ rest)))
    obtain ⟨st', hfirst, hcopy, hfront⟩ := read?_text hst lead rest
    have hne : afterGap (strip (st.text ++ rest)) ≠ [] := by
      intro hnil
      rw [hnil, read?_nil] at hfirst
      cases hfirst
    have hlength : (strip rest).length < (strip (st.text ++ rest)).length := by
      obtain ⟨w, hw⟩ := st.exists_text_eq
      have := length_strip_le w ('\n' :: rest)
      rw [strip_newline, List.length_cons] at this
      rw [hw, List.append_assoc, List.singleton_append]
      omega
    refine ⟨st' :: sts', trail, ?_, .cons hcopy hcopies, ?_⟩
    · rw [htext]
      unfold readAll?
      simp only [hne, if_false]
      rw [hfirst]
      simp only [dif_pos hlength]
      rw [hread]
      rfl
    · rw [taken_afterGap] at hfront
      rw [htext, ← hfront, show strip rest = _ from hsame, List.flatMap_cons, List.append_assoc]

theorem closed_flatMap_text {sts : List Statement} (h : sts ≠ []) :
    closed (sts.flatMap text) = sts.flatMap text := by
  obtain ⟨sts, st, rfl⟩ := (List.eq_nil_or_concat sts).resolve_left h
  obtain ⟨w, hw⟩ := st.exists_text_eq
  rw [closed, if_pos (by simp [hw])]

/-- Terminating the last line makes the remark behind the last statement a gap. -/
theorem closed_text (sts : List Statement) {trail : Text} (htrail : Tail trail) :
    ∃ g, Gap g ∧ closed (sts.flatMap text ++ trail) = sts.flatMap text ++ g := by
  have hline : Gap ['\n'] := .line (Or.inl rfl : IsNewline ['\n']) .nil
  by_cases hnil : trail = []
  · subst hnil
    rw [List.append_nil]
    by_cases hsts : sts = []
    · subst hsts
      exact ⟨['\n'], hline, rfl⟩
    · exact ⟨[], .nil, by rw [closed_flatMap_text hsts, List.append_nil]⟩
  · refine ⟨closed trail, ?_, closed_append hnil⟩
    rcases htrail with hg | ⟨g, w, hg, hw, rfl⟩
    · unfold closed
      split
      · exact hg
      · exact hg.append hline
    · have hlast : (g ++ '#' :: w).getLast? ≠ some '\n' := by
        rw [List.getLast?_append, List.getLast?_cons]
        intro he
        have hmem : '\n' ∈ '#' :: w := by
          refine List.mem_of_getLast? (l := '#' :: w) ?_
          simpa [List.getLast?_cons] using he
        exact newline_not_mem_printable (w := '#' :: w)
          (List.forall_mem_cons.mpr ⟨by decide, hw⟩) hmem
      rw [closed, if_neg hlast, List.append_assoc, List.cons_append]
      exact hg.append (.remark hw (Or.inl rfl : IsNewline ['\n']) .nil)

theorem dropMark_eq {s : Text} {result : List Statement × Text} (h : readAll? s = some result) :
    Document.dropMark s = s := by
  unfold Document.dropMark
  split
  · next t =>
    have hgap : afterGap ('\uFEFF' :: t) = '\uFEFF' :: t := afterGap_token ⟨by decide, by decide⟩ t
    rw [readAll?, hgap] at h
    simp only [reduceCtorEq, if_false] at h
    split at h
    · cases h
    · next st rest hread =>
      obtain ⟨c, u, hu, hc⟩ := head_of_read? hread
      rw [List.dropWhile_cons_of_neg (by decide)] at hu
      obtain ⟨rfl, -⟩ := List.cons.inj hu
      rcases hc with hc | hc <;> exact absurd hc (by decide)
  · rfl

/-- The tidy text of printable statements is read as what they become in it, and is their text. -/
theorem readAll?_tidy {sts : List Statement} (h : ∀ st ∈ sts, st.Printable) {trail : Text}
    (htrail : Tail trail) : ∃ sts' trail', readAll? (tidy (sts.flatMap text ++ trail)) = some (sts', trail') ∧
      List.Forall₂ Copies sts sts' ∧ tidy (sts.flatMap text ++ trail) = sts'.flatMap text ++ trail' := by
  obtain ⟨g, hg, hclosed⟩ := closed_text sts htrail
  rw [tidy_eq, hclosed]
  exact readAll?_text h hg

end Statement

theorem Document.read?_eq {s trail : Text} {sts : List Statement}
    (h : Statement.readAll? s = some (sts, trail)) :
    read? s = (ofStatements? sts).map fun root => ⟨root, trail⟩ := by
  rw [read?, Statement.dropMark_eq h, h]

theorem Document.read?_tidy {sts : List Statement} (h : ∀ st ∈ sts, st.Printable) {trail : Text}
    (htrail : Statement.Tail trail) : ∃ sts' trail', sts'.map Statement.shape =
      sts.map Statement.settledShape ∧ Document.read? (tidy (sts.flatMap Statement.text ++ trail)) =
        (Document.ofStatements? sts').map fun root => ⟨root, trail'⟩ := by
  obtain ⟨sts', trail', hread, hcopies, -⟩ := Statement.readAll?_tidy h htrail
  exact ⟨sts', trail', Statement.shapes_of_copies hcopies, read?_eq hread⟩

/-- A document is made of statements that its reader has made sure of. -/
theorem Document.kept_of_read? {s : Text} {doc : Document} (h : Document.read? s = some doc) :
    ∃ sts, (∀ st ∈ sts, st.Kept) ∧ Statement.Tail doc.trail ∧ ofStatements? sts = some doc.root := by
  unfold Document.read? at h
  split at h
  · next sts trail hread =>
    obtain ⟨root, hroot, rfl⟩ := Option.map_eq_some_iff.mp h
    obtain ⟨hkept, htail⟩ := Statement.kept_of_readAll? hread
    exact ⟨sts, hkept, htail, hroot⟩
  · cases h

end DeploymentRecords.Toml
