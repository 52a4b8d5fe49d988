import DeploymentRecords.Proofs.EntryNames
import DeploymentRecords.Proofs.Gaps

/-! # Sound expressions

An expression is sound when every part of it is written so that it reads back wherever it stands.
Whatever is read is sound. -/

namespace DeploymentRecords.Toml

open Text

structure ExprEnd (r : Text) : Prop where
  quote : Stops isQuote r
  bare : Stops isBare r
  time : ∀ c t, r = ' ' :: c :: t → Number.isDigit c = false

theorem ascii_of_isBare {c : Char} (h : isBare c = true) : c.toNat < 128 := by
  simp only [isBare, Number.isDigit, Bool.or_eq_true, Bool.and_eq_true, decide_eq_true_eq,
    Char.le_def, UInt32.le_iff_toNat_le] at h
  rcases h with ((((((⟨-, h⟩ | ⟨-, h⟩) | ⟨-, h⟩) | rfl) | rfl) | rfl) | rfl) | rfl
  · exact Nat.lt_of_le_of_lt h (by decide)
  · exact Nat.lt_of_le_of_lt h (by decide)
  · exact Nat.lt_of_le_of_lt h (by decide)
  all_goals decide

theorem isBare_facts {c : Char} (h : isBare c = true) :
    isBlank c = false ∧ c ∉ ['"', '\'', '#', '[', ']', '\x7b', '\x7d', ','] :=
  ascii_forall (p := fun c => isBare c = true →
    isBlank c = false ∧ c ∉ ['"', '\'', '#', '[', ']', '\x7b', '\x7d', ',']) (by decide)
    (ascii_of_isBare h) h

theorem isBare_of_isDigit {c : Char} (h : Number.isDigit c = true) : isBare c = true := by
  simp [isBare, h]

structure SpellsWord (w : Text) (v : Scalar) : Prop where
  opening : ∃ c u, isBare c = true ∧ w = c :: u
  solid : Solid w
  reads : ∀ r, ExprEnd r → readWord? (w ++ r) = some (v, r)
  noString : ∀ t, v ≠ .string t

theorem ofWord?_ne_string {w t : Text} : Scalar.ofWord? w ≠ some (.string t) := by
  intro h
  unfold Scalar.ofWord? at h
  split at h
  · cases h
  · split at h
    · cases h
    · rcases Option.or_eq_some_iff.mp h with h | ⟨-, h⟩
      · obtain ⟨_, -, h⟩ := Option.map_eq_some_iff.mp h
        cases h
      · rcases Option.or_eq_some_iff.mp h with h | ⟨-, h⟩
        · obtain ⟨_, -, h⟩ := Option.map_eq_some_iff.mp h
          cases h
        · obtain ⟨_, -, h⟩ := Option.map_eq_some_iff.mp h
          cases h

theorem ofWord?_nil : Scalar.ofWord? [] = none := by decide +kernel

theorem readWord?_one {w r : Text} (hw : ∀ c ∈ w, isBare c = true) (hr : ExprEnd r) :
    readWord? (w ++ r) = (Scalar.ofWord? w).map (·, r) := by
  have htake := takeWhile_run hw hr.bare
  have hdrop := dropWhile_run hw hr.bare
  unfold readWord?
  simp only [htake, hdrop]
  split
  · next c t =>
    rw [if_neg (by simp [hr.time c t rfl])]
  · rfl

theorem readWord?_two {w u r : Text} (hw : ∀ c ∈ w, isBare c = true) (hne : u ≠ [])
    (hu : ∀ c ∈ u, isBare c = true) (hdate : isDate (Scalar.ofWord? w) = true)
    (hdigit : ∀ c, u.head? = some c → Number.isDigit c = true) (hr : Stops isBare r) :
    readWord? (w ++ ' ' :: (u ++ r)) = (Scalar.ofWord? (w ++ ' ' :: u)).map (·, r) := by
  obtain ⟨c, u, rfl⟩ := List.exists_cons_of_ne_nil hne
  have hspace : Stops isBare (' ' :: (c :: u ++ r)) := by simp; decide
  have htake := takeWhile_run hw hspace
  have hdrop := dropWhile_run hw hspace
  have htake' := takeWhile_run hu hr
  have hdrop' := dropWhile_run hu hr
  rw [List.cons_append] at htake hdrop htake' hdrop' ⊢
  unfold readWord?
  simp only [htake, hdrop, htake', hdrop', hdate, hdigit c rfl, Bool.and_self, if_true]

section

variable {w : Text} {v : Scalar} (hbare : ∀ c ∈ w, isBare c = true)

include hbare

theorem word_opening (hsome : (Scalar.ofWord? w).isSome = true) (u : Text) :
    ∃ c t, isBare c = true ∧ w ++ u = c :: t := by
  cases w with
  | nil => rw [ofWord?_nil] at hsome; cases hsome
  | cons c w => exact ⟨c, w ++ u, hbare c List.mem_cons_self, rfl⟩

theorem solid_word : Solid w := solid_of_all fun c hc => (isBare_facts (hbare c hc)).1

theorem spellsWord_one (hv : Scalar.ofWord? w = some v) : SpellsWord w v := by
  have hopens := word_opening hbare (by rw [hv]; rfl) []
  rw [List.append_nil] at hopens
  exact ⟨hopens, solid_word hbare, fun r hr => by rw [readWord?_one hbare hr, hv]; rfl,
    fun t e => ofWord?_ne_string (e ▸ hv)⟩

/-- A date and a time with a space between them are one word. -/
theorem spellsWord_two {c : Char} {u : Text} (hdate : isDate (Scalar.ofWord? w) = true)
    (hu : ∀ d ∈ c :: u, isBare d = true) (hdigit : Number.isDigit c = true)
    (hv : Scalar.ofWord? (w ++ ' ' :: c :: u) = some v) : SpellsWord (w ++ ' ' :: c :: u) v := by
  have hblank : ∀ d ∈ c :: u, isBlank d = false := fun d hd => (isBare_facts (hu d hd)).1
  refine ⟨word_opening hbare ?_ _, ⟨?_, fun d hd => ?_⟩, fun r hr => ?_,
    fun t e => ofWord?_ne_string (e ▸ hv)⟩
  · cases hw : Scalar.ofWord? w with
    | none => rw [hw] at hdate; exact absurd hdate (by decide)
    | some _ => rfl
  · simp only [List.mem_append, List.mem_cons, not_or] at hblank ⊢
    exact ⟨(solid_word hbare).oneLine, by decide, fun h => absurd (hblank _ (Or.inl h)) (by decide),
      fun h => absurd (hblank _ (Or.inr h)) (by decide)⟩
  · simp only [List.getLast?_append, List.getLast?_cons_cons] at hd
    refine hblank d (List.mem_of_getLast? ?_)
    simpa using hd
  · have hhead : ∀ d, (c :: u).head? = some d → Number.isDigit d = true := by
      rintro d ⟨⟩
      exact hdigit
    rw [List.append_assoc, List.cons_append, readWord?_two hbare (by simp) hu hdate hhead hr.bare, hv]
    rfl

end

/-- A word that was read reads the same anywhere. -/
theorem spellsWord_of_readWord? {s r : Text} {v : Scalar} (h : readWord? s = some (v, r)) :
    ∃ w, s = w ++ r ∧ SpellsWord w v := by
  have hsplit := List.takeWhile_append_dropWhile (p := isBare) (l := s)
  have hbare : ∀ c ∈ s.takeWhile isBare, isBare c = true := List.all_eq_true.mp List.all_takeWhile
  have hone : (Scalar.ofWord? (s.takeWhile isBare)).map (·, s.dropWhile isBare) = some (v, r) →
      ∃ w, s = w ++ r ∧ SpellsWord w v := by
    intro h
    obtain ⟨v', hv, he⟩ := Option.map_eq_some_iff.mp h
    obtain ⟨rfl, rfl⟩ := Prod.mk.inj he
    exact ⟨_, hsplit.symm, spellsWord_one hbare hv⟩
  unfold readWord? at h
  dsimp only at h
  split at h
  · next c rest hdrop =>
    split at h
    · next hdate =>
      rw [Bool.and_eq_true] at hdate
      obtain ⟨v', hv, he⟩ := Option.map_eq_some_iff.mp h
      obtain ⟨rfl, rfl⟩ := Prod.mk.inj he
      have hu : ∀ d ∈ (c :: rest).takeWhile isBare, isBare d = true :=
        List.all_eq_true.mp List.all_takeWhile
      have hend := List.takeWhile_append_dropWhile (p := isBare) (l := c :: rest)
      rw [List.takeWhile_cons_of_pos (isBare_of_isDigit hdate.2)] at hu hv hend
      refine ⟨_, ?_, spellsWord_two hbare hdate.1 hu hdate.2 hv⟩
      rw [List.append_assoc, List.cons_append, hend, ← hdrop, hsplit]
    · rw [← hdrop] at h
      exact hone h
  · exact hone h

def Scalar.Written (v : Scalar) (w : Text) : Prop := (∃ t, v = .string t ∧ Spells w t) ∨ SpellsWord w v

/-- What surrounds something, if that is settled. -/
def Around (before after : Text → Prop) (around : Option Surround) : Prop :=
  ∀ a, around = some a → before a.before ∧ after a.after

namespace Expr

mutual

/-- Soundness inside of `depth` arrays and inline tables; a dotted table may hold paths of up to
`budget` further keys. -/
def Sound (depth budget : Nat) : Expr → Prop
  | .scalar v w _ => v.Written w
  | .array elements comma trail _ =>
    ∃ d, depth = d + 1 ∧ ElementsSound d elements ∧ (comma = true → elements ≠ []) ∧ Gap trail
  | .table entries false lead _ =>
    ∃ d, depth = d + 1 ∧ Spaces lead ∧ (names entries).Nodup ∧
      EntriesSound d (Key.maxPath - 2) entries
  | .table entries true _ _ =>
    ∃ b, budget = b + 1 ∧ entries ≠ [] ∧ (names entries).Nodup ∧ EntriesSound depth b entries

def ElementsSound (depth : Nat) : List Expr → Prop
  | [] => True
  | e :: es =>
    (e.Sound depth 0 ∧ ∃ a, e.around = some a ∧ Gap a.before ∧ Gap a.after) ∧
      ElementsSound depth es

def EntriesSound (depth budget : Nat) : List (Key × Expr) → Prop
  | [] => True
  | (key, e) :: entries =>
    (key.Sound ∧ Around Spaces Spaces key.outer ∧ Around Spaces Spaces e.around ∧
      e.Sound depth budget) ∧ EntriesSound depth budget entries

end

theorem elementsSound_iff {depth : Nat} {es : List Expr} : ElementsSound depth es ↔
    ∀ e ∈ es, e.Sound depth 0 ∧ ∃ a, e.around = some a ∧ Gap a.before ∧ Gap a.after := by
  induction es with
  | nil => simp [ElementsSound]
  | cons e es ih => rw [ElementsSound, ih, List.forall_mem_cons]

theorem entriesSound_iff {depth budget : Nat} {entries : List (Key × Expr)} :
    EntriesSound depth budget entries ↔ ∀ p ∈ entries, p.1.Sound ∧
      Around Spaces Spaces p.1.outer ∧ Around Spaces Spaces p.2.around ∧ p.2.Sound depth budget := by
  induction entries with
  | nil => simp [EntriesSound]
  | cons p entries ih => rw [EntriesSound, ih, List.forall_mem_cons]

/-- An expression that is no dotted table needs no budget. -/
theorem Sound.mono {depth budget : Nat} {e : Expr} (h : e.Sound depth 0) : e.Sound depth budget := by
  match e with
  | .scalar .. => simpa only [Sound] using h
  | .array .. => simpa only [Sound] using h
  | .table _ false _ _ => simpa only [Sound] using h
  | .table _ true _ _ =>
    rw [Sound] at h
    obtain ⟨b, hb, -⟩ := h
    cases hb

@[simp] theorem around_within (a : Option Surround) (e : Expr) : (e.within a).around = a := by
  cases e <;> rfl

theorem sound_within {depth budget : Nat} {a : Option Surround} {e : Expr} :
    (e.within a).Sound depth budget ↔ e.Sound depth budget := by
  match e with
  | .scalar .. => simp only [within, Sound]
  | .array .. => simp only [within, Sound]
  | .table _ false _ _ => simp only [within, Sound]
  | .table _ true _ _ => simp only [within, Sound]

theorem insert?_cons_cons (key next : Key) (path : List Key) (e : Expr)
    (entries : List (Key × Expr)) : insert? (key :: next :: path) e entries =
      match entries.find? (fun p => p.1.name = key.name) with
      | none => (insert? (next :: path) e []).map fun sub => entries ++ [(key, .table sub true [] none)]
      | some (_, .table sub true lead around) =>
        (insert? (next :: path) e sub).map fun sub => entries.map fun (k, old) =>
          if k.name = key.name then (k, .table sub true lead around) else (k, old)
      | some _ => none := insert?.eq_3 e entries key (next :: path) (by simp)

section

variable {depth budget : Nat} {entries : List (Key × Expr)} (hnodup : (names entries).Nodup)
  (hentries : EntriesSound depth budget entries)

include hnodup hentries

theorem entriesSound_concat {key : Key} {e : Expr} (hfresh : key.name ∉ names entries)
    (h : key.Sound ∧ Around Spaces Spaces key.outer ∧ Around Spaces Spaces e.around ∧
      e.Sound depth budget) :
    entries ++ [(key, e)] ≠ [] ∧ (names (entries ++ [(key, e)])).Nodup ∧
      EntriesSound depth budget (entries ++ [(key, e)]) := by
  refine ⟨by simp, nodup_names_append hnodup hfresh, ?_⟩
  rw [entriesSound_iff] at hentries ⊢
  intro p hp
  rcases List.mem_append.mp hp with hp | hp
  · exact hentries p hp
  · exact List.mem_singleton.mp hp ▸ h

theorem entriesSound_replaced (name : Text) {e : Expr} (hne : entries ≠ [])
    (haround : Around Spaces Spaces e.around) (he : e.Sound depth budget) :
    let new := entries.map fun (k, old) => if k.name = name then (k, e) else (k, old)
    new ≠ [] ∧ (names new).Nodup ∧ EntriesSound depth budget new := by
  refine ⟨?_, ?_, ?_⟩
  · rwa [ne_eq, List.map_eq_nil_iff]
  · rw [names_map fun p => by dsimp only; split <;> rfl]
    exact hnodup
  · rw [entriesSound_iff] at hentries ⊢
    intro p hp
    obtain ⟨⟨k, old⟩, hq, rfl⟩ := List.mem_map.mp hp
    have hq := hentries _ hq
    dsimp only
    split
    · exact ⟨hq.1, hq.2.1, haround, he⟩
    · exact hq

end

theorem sound_of_insert? {depth budget : Nat} {path : List Key} {e : Expr}
    {entries entries' : List (Key × Expr)} (h : insert? path e entries = some entries')
    (hpath : Key.Settled Spaces path) (hlength : path.length ≤ budget + 1) (he : e.Sound depth 0)
    (haround : Around Spaces Spaces e.around) (hnodup : (names entries).Nodup)
    (hentries : EntriesSound depth budget entries) :
    entries' ≠ [] ∧ (names entries').Nodup ∧ EntriesSound depth budget entries' := by
  induction path generalizing entries entries' budget with
  | nil => cases h
  | cons key path ih =>
    cases path with
    | nil =>
      rw [insert?] at h
      split at h
      · cases h
      · next hfresh =>
        cases h
        rw [any_name] at hfresh
        obtain ⟨last, before, after, hlast, houter, hbefore, hafter⟩ := hpath.last
        obtain rfl : key = last := by simpa using hlast
        refine entriesSound_concat hnodup hentries hfresh
          ⟨hpath.sound key List.mem_cons_self, fun a ha => ?_, haround, he.mono⟩
        rw [houter] at ha
        cases ha
        exact ⟨hbefore, hafter⟩
    | cons next path =>
      obtain ⟨hkey, houter, htail⟩ := hpath.tail
      obtain ⟨b, rfl⟩ : ∃ b, budget = b + 1 := ⟨budget - 1, by simp at hlength; omega⟩
      have hshort : (next :: path).length ≤ b + 1 := by simpa using hlength
      rw [insert?_cons_cons] at h
      split at h
      · next hfind =>
        obtain ⟨sub, hsub, rfl⟩ := Option.map_eq_some_iff.mp h
        obtain ⟨hne, hnodup', hsound⟩ := ih hsub htail hshort (by simp [names]) (by simp [EntriesSound])
        refine entriesSound_concat hnodup hentries (find?_name_eq_none.mp hfind)
          ⟨hkey, by simp [Around, houter], by simp [Around, Expr.around], ?_⟩
        rw [Sound]
        exact ⟨b, rfl, hne, hnodup', hsound⟩
      · next k sub lead around hfind =>
        obtain ⟨sub', hsub, rfl⟩ := Option.map_eq_some_iff.mp h
        have hmem := List.mem_of_find?_eq_some hfind
        obtain ⟨-, -, haround', hsub'⟩ := entriesSound_iff.mp hentries _ hmem
        rw [Sound] at hsub'
        obtain ⟨b', hb, -, hnodup₀, hsound₀⟩ := hsub'
        obtain rfl : b = b' := by omega
        obtain ⟨hne, hnodup', hsound⟩ := ih hsub htail hshort hnodup₀ hsound₀
        refine entriesSound_replaced hnodup hentries key.name (List.ne_nil_of_mem hmem) haround' ?_
        rw [Sound]
        exact ⟨b, rfl, hne, hnodup', hsound⟩
      · cases h

def isExprHead (c : Char) : Bool := isQuote c || isBare c || c = '[' || c = '\x7b'

theorem isExprHead_facts {c : Char} (h : isExprHead c = true) :
    IsToken c ∧ isPrintable c = true ∧ c ≠ ']' := by
  have hbare : isBare c = true → isPrintable c = true ∧ c ≠ ']' := fun h =>
    ascii_forall (p := fun c => isBare c = true → isPrintable c = true ∧ c ≠ ']') (by decide)
      (ascii_of_isBare h) h
  simp only [isExprHead, isQuote, Bool.or_eq_true, decide_eq_true_eq] at h
  rcases h with (((rfl | rfl) | h) | rfl) | rfl
  · exact ⟨by unfold IsToken; decide, by decide⟩
  · exact ⟨by unfold IsToken; decide, by decide⟩
  · have := isBare_facts h
    simp only [List.mem_cons, not_or] at this
    exact ⟨⟨this.1, this.2.2.2.1⟩, hbare h⟩
  · exact ⟨by unfold IsToken; decide, by decide⟩
  · exact ⟨by unfold IsToken; decide, by decide⟩

structure Reads (depth : Nat) (element : Text → Option (Expr × Text)) : Prop where
  head : ∀ s e r, element s = some (e, r) → ∃ c t, s = c :: t ∧ isExprHead c = true
  sound : ∀ s e r, element s = some (e, r) → e.Sound depth 0

variable {depth : Nat} {element : Text → Option (Expr × Text)}

theorem sound_of_readElements? (hel : Reads depth element) {comma : Bool} {s r : Text} {e : Expr}
    (h : readElements? element comma s = some (e, r)) :
    ∃ es comma' trail, e = .array es comma' trail none ∧ ElementsSound depth es ∧
      (comma' = true → es ≠ [] ∨ comma = true) ∧ Gap trail := by
  have hgap : ∀ {s t : Text} {c : Char}, afterGap s = c :: t → isPrintable c = true →
      Gap (taken s (c :: t)) := by
    intro s t c h hc
    obtain ⟨g, hg, hs⟩ := gap_of_afterGap h hc
    rwa [Key.taken_eq hs]
  fun_induction readElements? element comma s generalizing e
  case case1 comma s start rest hstart =>
    obtain ⟨rfl, rfl⟩ := Prod.mk.inj (Option.some.inj h)
    exact ⟨[], comma, _, rfl, trivial, fun h => Or.inr h, hstart ▸ hgap hstart (by decide)⟩
  case case3 comma s start e₀ rest hread stop e₁ rest' hstop hstart =>
    obtain ⟨rfl, rfl⟩ := Prod.mk.inj (Option.some.inj h)
    obtain ⟨c, t, hc, hhead⟩ := hel.head _ _ _ hread
    refine ⟨[e₁], false, [], rfl, ⟨⟨sound_within.mpr (hel.sound _ _ _ hread), _, around_within _ _, ?_, ?_⟩,
      trivial⟩, by simp, .nil⟩
    · exact hc ▸ hgap hc (isExprHead_facts hhead).2.1
    · exact hstop ▸ hgap hstop (by decide)
  case case4 comma s start e₀ rest hread stop e₁ rest' hstop hlength es comma' trail around r' hrec
      hstart ih =>
    obtain ⟨rfl, rfl⟩ := Prod.mk.inj (Option.some.inj h)
    obtain ⟨es', comma₂, trail₂, he, hsound, -, htrail⟩ := ih hrec
    cases he
    obtain ⟨c, t, hc, hhead⟩ := hel.head _ _ _ hread
    refine ⟨e₁ :: es, comma', trail, rfl, ⟨⟨sound_within.mpr (hel.sound _ _ _ hread), _, around_within _ _, ?_, ?_⟩,
      hsound⟩, by simp, htrail⟩
    · exact hc ▸ hgap hc (isExprHead_facts hhead).2.1
    · exact hstop ▸ hgap hstop (by decide)
  all_goals cases h

theorem spaces_of_nil_append {s : Text} (h : ∃ blanks, Spaces blanks ∧ s = [] ++ blanks) : Spaces s := by
  obtain ⟨blanks, hblanks, rfl⟩ := h
  exact hblanks

def PairSound (depth : Nat) (pair : List Key × Expr) : Prop :=
  Key.Settled Spaces pair.1 ∧ pair.1.length < Key.maxPath ∧ pair.2.Sound depth 0 ∧
    Around Spaces Spaces pair.2.around

theorem sound_of_readPairs? (hel : Reads depth element) {s r : Text}
    {pairs : List (List Key × Expr)} (h : readPairs? element s = some (pairs, r)) :
    pairs ≠ [] ∧ ∀ pair ∈ pairs, PairSound depth pair := by
  have hpair : ∀ {s rest stop : Text} {path : List Key} {e : Expr},
      Key.readPathAfter? [] s = some (path, '=' :: rest) →
      element (rest.dropWhile isSpace) = some (e, stop) →
      PairSound depth (path, e.within (some ⟨rest.takeWhile isSpace, stop.takeWhile isSpace⟩)) := by
    intro s rest stop path e hpath hread
    obtain ⟨hsettled, hlength, -⟩ := Key.settled_of_readPathAfter? hpath
    refine ⟨hsettled.imp fun _ => spaces_of_nil_append, hlength,
      sound_within.mpr (hel.sound _ _ _ hread), ?_⟩
    intro a ha
    rw [around_within] at ha
    cases ha
    exact ⟨spaces_takeWhile rest, spaces_takeWhile stop⟩
  fun_induction readPairs? element s generalizing pairs
  case case2 s path rest hpath start e₀ stop hread e rest' hstop =>
    obtain ⟨rfl, rfl⟩ := Prod.mk.inj (Option.some.inj h)
    exact ⟨by simp, by simpa using hpair hpath hread⟩
  case case3 s path rest hpath start e₀ stop hread e rest' hstop hlength ih =>
    obtain ⟨⟨pairs, r⟩, hpairs, he⟩ := Option.map_eq_some_iff.mp h
    obtain ⟨rfl, rfl⟩ := Prod.mk.inj he
    refine ⟨by simp, ?_⟩
    rw [List.forall_mem_cons]
    exact ⟨hpair hpath hread, (ih hpairs).2⟩
  all_goals cases h

theorem sound_of_foldlM_insert? {pairs : List (List Key × Expr)} {acc entries : List (Key × Expr)}
    (h : pairs.foldlM (fun entries (path, e) => insert? path e entries) acc = some entries)
    (hpairs : ∀ pair ∈ pairs, PairSound depth pair) (hnodup : (names acc).Nodup)
    (hacc : EntriesSound depth (Key.maxPath - 2) acc) :
    (names entries).Nodup ∧ EntriesSound depth (Key.maxPath - 2) entries := by
  induction pairs generalizing acc with
  | nil =>
    cases h
    exact ⟨hnodup, hacc⟩
  | cons pair pairs ih =>
    rw [List.forall_mem_cons] at hpairs
    obtain ⟨⟨hsettled, hlength, hsound, haround⟩, hpairs⟩ := hpairs
    rw [List.foldlM_cons] at h
    obtain ⟨acc', hinsert, h⟩ := Option.bind_eq_some_iff.mp h
    have hshort : pair.1.length ≤ Key.maxPath - 2 + 1 := by
      simp only [Key.maxPath] at hlength ⊢
      omega
    obtain ⟨-, hnodup', hacc'⟩ := sound_of_insert? hinsert hsettled hshort hsound haround hnodup hacc
    exact ih h hpairs hnodup' hacc'

theorem sound_of_ofPairs? {pairs : List (List Key × Expr)} {entries : List (Key × Expr)}
    (h : ofPairs? pairs = some entries) (hpairs : ∀ pair ∈ pairs, PairSound depth pair) :
    (names entries).Nodup ∧ EntriesSound depth (Key.maxPath - 2) entries :=
  sound_of_foldlM_insert? h hpairs (by simp [names]) (by simp [EntriesSound])

theorem sound_of_readTable? (hel : Reads depth element) {s r : Text} {e : Expr}
    (h : readTable? element s = some (e, r)) : e.Sound (depth + 1) 0 := by
  unfold readTable? at h
  split at h
  · obtain ⟨rfl, rfl⟩ := Prod.mk.inj (Option.some.inj h)
    rw [Sound]
    exact ⟨depth, rfl, spaces_takeWhile s, by simp [names], by simp [EntriesSound]⟩
  · split at h
    · cases h
    · next pairs rest hpairs =>
      obtain ⟨entries, hentries, he⟩ := Option.map_eq_some_iff.mp h
      obtain ⟨rfl, rfl⟩ := Prod.mk.inj he
      rw [Sound]
      exact ⟨depth, rfl, spaces_nil, sound_of_ofPairs? hentries (sound_of_readPairs? hel hpairs).2⟩

theorem sound_of_readString? {s r : Text} {e : Expr} (h : (readString? s).map (fun (t, rest) =>
      (Expr.scalar (.string t) (taken s rest) none, rest)) = some (e, r)) (depth : Nat) :
    e.Sound depth 0 := by
  obtain ⟨⟨t, rest⟩, hread, he⟩ := Option.map_eq_some_iff.mp h
  obtain ⟨rfl, rfl⟩ := Prod.mk.inj he
  obtain ⟨w, hw, hspells⟩ := spells_of_readString? hread
  rw [Sound, Key.taken_eq hw]
  exact Or.inl ⟨t, rfl, hspells⟩

theorem sound_of_readWord? {s r : Text} {e : Expr} (h : (readWord? s).map (fun (v, rest) =>
      (Expr.scalar v (taken s rest) none, rest)) = some (e, r)) (depth : Nat) :
    (∃ c t, s = c :: t ∧ isExprHead c = true) ∧ e.Sound depth 0 := by
  obtain ⟨⟨v, rest⟩, hread, he⟩ := Option.map_eq_some_iff.mp h
  obtain ⟨rfl, rfl⟩ := Prod.mk.inj he
  obtain ⟨w, hw, hspells⟩ := spellsWord_of_readWord? hread
  obtain ⟨c, u, hc, rfl⟩ := hspells.opening
  rw [Sound, Key.taken_eq hw]
  exact ⟨⟨c, u ++ rest, hw, by simp [isExprHead, hc]⟩, Or.inr hspells⟩

theorem reads_readNested? (depth : Nat) : Reads depth (readNested? depth) := by
  have hboth : ∀ {s r : Text} {e : Expr}, readNested? depth s = some (e, r) →
      (∃ c t, s = c :: t ∧ isExprHead c = true) ∧ e.Sound depth 0 := by
    induction depth with
    | zero =>
      intro s r e h
      unfold readNested? at h
      split at h
      · exact ⟨⟨_, _, rfl, by decide⟩, sound_of_readString? h 0⟩
      · exact ⟨⟨_, _, rfl, by decide⟩, sound_of_readString? h 0⟩
      · cases h
      · cases h
      · exact sound_of_readWord? h 0
    | succ depth ih =>
      have hel : Reads depth (readNested? depth) := ⟨fun _ _ _ h => (ih h).1, fun _ _ _ h => (ih h).2⟩
      intro s r e h
      unfold readNested? at h
      split at h
      · exact ⟨⟨_, _, rfl, by decide⟩, sound_of_readString? h _⟩
      · exact ⟨⟨_, _, rfl, by decide⟩, sound_of_readString? h _⟩
      · obtain ⟨es, comma, trail, rfl, hes, hcomma, htrail⟩ := sound_of_readElements? hel h
        refine ⟨⟨_, _, rfl, by decide⟩, ?_⟩
        rw [Sound]
        exact ⟨depth, rfl, hes, fun hc => (hcomma hc).resolve_right (by simp), htrail⟩
      · exact ⟨⟨_, _, rfl, by decide⟩, sound_of_readTable? hel h⟩
      · exact sound_of_readWord? h _
  exact ⟨fun _ _ _ h => (hboth h).1, fun _ _ _ h => (hboth h).2⟩

theorem sound_of_read? {s r : Text} {e : Expr} (h : read? s = some (e, r)) :
    e.Sound maxDepth 0 := (reads_readNested? maxDepth).sound s e r h

end Expr

end DeploymentRecords.Toml
