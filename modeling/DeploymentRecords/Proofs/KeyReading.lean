import DeploymentRecords.Proofs.StringQuote
import DeploymentRecords.Toml.Key

/-! # Keys in tidy texts

A spelling that was read as a key, or that is written for a new one, reads as that key in front of
whatever cannot prolong it. Paths of such keys are read back name by name. -/

namespace DeploymentRecords.Toml

open Text

def isKeyHead (c : Char) : Bool := isQuote c || isBareKey c

theorem ascii_of_isBareKey {c : Char} (h : isBareKey c = true) : c.toNat < 128 := by
  simp only [isBareKey, Number.isDigit, Bool.or_eq_true, Bool.and_eq_true, decide_eq_true_eq,
    Char.le_def, UInt32.le_iff_toNat_le] at h
  rcases h with (((⟨-, h⟩ | ⟨-, h⟩) | ⟨-, h⟩) | rfl) | rfl
  · exact Nat.lt_of_le_of_lt h (by decide)
  · exact Nat.lt_of_le_of_lt h (by decide)
  · exact Nat.lt_of_le_of_lt h (by decide)
  · decide
  · decide

theorem isBareKey_facts {c : Char} (h : isBareKey c = true) : isBlank c = false ∧ c ∉
    ['"', '\'', '#', '.', '=', '[', ']', '\x7b', '\x7d', ','] :=
  ascii_forall (p := fun c => isBareKey c = true → isBlank c = false ∧ c ∉
    ['"', '\'', '#', '.', '=', '[', ']', '\x7b', '\x7d', ',']) (by decide) (ascii_of_isBareKey h) h

theorem isKeyHead_facts {c : Char} (h : isKeyHead c = true) : isBlank c = false ∧ c ∉
    ['#', '.', '=', '[', ']', '\x7b', '\x7d', ','] := by
  simp only [isKeyHead, isQuote, Bool.or_eq_true, decide_eq_true_eq] at h
  rcases h with (rfl | rfl) | h
  · decide
  · decide
  · have := isBareKey_facts h
    simp only [List.mem_cons, not_or] at this ⊢
    exact ⟨this.1, this.2.2.2⟩

theorem isSpace_of_not_isBlank {c : Char} (h : isBlank c = false) : isSpace c = false := by
  cases hs : isSpace c with
  | false => rfl
  | true => simp [(isBlank_of_isSpace hs).1] at h

def Spaces (s : Text) : Prop := ∀ c ∈ s, isSpace c = true

instance : DecidablePred Spaces := fun s =>
  decidable_of_iff (s.all isSpace = true) List.all_eq_true

theorem spaces_nil : Spaces [] := by simp [Spaces]

theorem Spaces.append {s t : Text} (hs : Spaces s) (ht : Spaces t) : Spaces (s ++ t) := by
  intro c hc
  rcases List.mem_append.mp hc with hc | hc
  · exact hs c hc
  · exact ht c hc

theorem spaces_takeWhile (s : Text) : Spaces (s.takeWhile isSpace) :=
  List.all_eq_true.mp List.all_takeWhile

theorem Spaces.newline_not_mem {s : Text} (hs : Spaces s) : '\n' ∉ s :=
  fun hm => (isBlank_of_isSpace (hs _ hm)).2 rfl

theorem Spaces.stops_cons {p : Char → Bool} {s : Text} {c : Char} (hs : Spaces s)
    (hp : p ' ' = false ∧ p '\t' = false) (hc : p c = false) (r : Text) : Stops p (s ++ c :: r) := by
  cases s with
  | nil => simpa using hc
  | cons d s =>
    have : d = ' ' ∨ d = '\t' := by simpa [isSpace] using hs d List.mem_cons_self
    rcases this with rfl | rfl
    · simpa using hp.1
    · simpa using hp.2

namespace Key

structure Sound (key : Key) : Prop where
  opening : ∃ c w, isKeyHead c = true ∧ key.spelling = c :: w
  solid : Solid key.spelling
  reads : ∀ r, Stops isBareKey r → readName? (key.spelling ++ r) = some (key.name, r)
  blanks : ∀ around, key.inner = some around → Spaces around.before ∧ Spaces around.after

theorem readName?_basic (s : Text) : readName? ('"' :: s) = readBasic? s := rfl
theorem readName?_literal (s : Text) : readName? ('\'' :: s) = readLiteral? s := rfl

theorem readName?_bare {name : Text} (hne : name ≠ []) (hname : ∀ c ∈ name, isBareKey c = true)
    {r : Text} (hr : Stops isBareKey r) : readName? (name ++ r) = some (name, r) := by
  obtain ⟨c, name, rfl⟩ := List.exists_cons_of_ne_nil hne
  have hc := (isBareKey_facts (hname c List.mem_cons_self)).2
  simp only [List.mem_cons, not_or] at hc
  have htake := takeWhile_run hname hr
  have hdrop := dropWhile_run hname hr
  rw [List.cons_append] at htake hdrop ⊢
  rw [readName?.eq_3 _ (fun s e => hc.1 (List.cons.inj e).1)
    (fun s e => hc.2.1 (List.cons.inj e).1), htake, hdrop]

theorem solid_of_isBareKey {name : Text} (hname : ∀ c ∈ name, isBareKey c = true) : Solid name :=
  solid_of_all fun c hc => (isBareKey_facts (hname c hc)).1

theorem isBlank_of_isQuote {c : Char} (h : isQuote c = true) : isBlank c = false := by
  have : c = '"' ∨ c = '\'' := by simpa [isQuote] using h
  rcases this with rfl | rfl <;> decide

theorem solid_append {w : Text} {c : Char} (hw : '\n' ∉ w) (hc : isBlank c = false) :
    Solid (w ++ [c]) := by
  refine ⟨fun hm => ?_, fun d hd => ?_⟩
  · rcases List.mem_append.mp hm with hm | hm
    · exact hw hm
    · rw [← List.mem_singleton.mp hm] at hc
      exact absurd hc (by decide)
  · rw [List.getLast?_append] at hd
    obtain rfl : c = d := by simpa using hd
    exact hc

theorem solid_quoted {w : Text} {q : Char} (hq : isQuote q = true) (hw : '\n' ∉ w) :
    Solid (q :: (w ++ [q])) := by
  refine solid_append (w := q :: w) ?_ (isBlank_of_isQuote hq)
  rw [List.mem_cons, not_or]
  exact ⟨fun e => absurd hq (by rw [← e]; decide), hw⟩

/-- What a reader of names takes is the spelling of a sound key. -/
theorem sound_of_readName? {s name r : Text} (h : readName? s = some (name, r))
    {inner : Option Surround} (hinner : ∀ around, inner = some around →
      Spaces around.before ∧ Spaces around.after) (outer : Option Surround) :
    ∃ w, s = w ++ r ∧ Sound ⟨name, w, inner, outer⟩ := by
  fun_cases readName? s with
  | case1 s =>
    obtain ⟨w, rfl, hline, hread⟩ := readBasic?_local h
    refine ⟨'"' :: (w ++ ['"']), by simp, ⟨_, _, rfl, rfl⟩, solid_quoted rfl hline,
      fun r' _ => ?_, hinner⟩
    simpa [readName?_basic] using hread r'
  | case2 s =>
    obtain ⟨w, rfl, hline, hread⟩ := readLiteral?_local h
    refine ⟨'\'' :: (w ++ ['\'']), by simp, ⟨_, _, rfl, rfl⟩, solid_quoted rfl hline,
      fun r' _ => ?_, hinner⟩
    simpa [readName?_literal] using hread r'
  | case3 s hbasic hliteral hname => simp [readName?, hname] at h
  | case4 s hbasic hliteral hname =>
    have hbare : ∀ c ∈ s.takeWhile isBareKey, isBareKey c = true :=
      List.all_eq_true.mp List.all_takeWhile
    rw [readName?.eq_3 s hbasic hliteral] at h
    split at h
    · cases h
    · obtain ⟨rfl, rfl⟩ := Prod.mk.inj (Option.some.inj h)
      obtain ⟨c, w, hw⟩ := List.exists_cons_of_ne_nil hname
      refine ⟨s.takeWhile isBareKey, List.takeWhile_append_dropWhile.symm, ⟨c, w, ?_, hw⟩,
        solid_of_isBareKey hbare, fun r' hr' => readName?_bare hname hbare hr', hinner⟩
      simp [isKeyHead, hbare c (by simp [hw])]

theorem sound_new (name : Text) : (Key.new name).Sound := by
  have hbasic : (⟨name, Form.basic.write name, none, none⟩ : Key).Sound :=
    ⟨⟨_, _, rfl, rfl⟩, solid_quoted rfl (newline_not_mem_escapeFrom 0 (by simp)),
      fun r _ => by simpa [Form.write, readName?_basic] using readBasic?_escapeFrom 0 name r, by simp⟩
  unfold new Key.quote
  split
  · next h =>
    have hbare : ∀ c ∈ name, isBareKey c = true := List.all_eq_true.mp h.2
    obtain ⟨c, w, hw⟩ := List.exists_cons_of_ne_nil h.1
    refine ⟨⟨c, w, ?_, hw⟩, solid_of_isBareKey hbare, fun r hr => readName?_bare h.1 hbare hr,
      by simp⟩
    simp [isKeyHead, hbare c (by simp [hw])]
  · split
    · exact hbasic
    · split
      · next h =>
        have hprint := Form.literal_printable h
        refine ⟨⟨_, _, rfl, rfl⟩, solid_quoted rfl fun hm => (hprint _ hm).2.1 rfl, fun r _ => ?_,
          by simp⟩
        have := readLiteral?_append (fun c hc => ⟨(hprint c hc).1, (hprint c hc).2.2⟩) r
        simpa [Form.write, readName?_literal] using this
      · exact hbasic

theorem taken_eq {s w r : Text} (h : s = w ++ r) : taken s r = w := by rw [h, taken_append]

theorem sound_of_read? {s r : Text} {key : Key} (h : read? s = some (key, r)) :
    key.Sound ∧ key.outer = none ∧ Stops isSpace r := by
  unfold read? at h
  dsimp only at h
  split at h
  · cases h
  · next name rest hname =>
    obtain ⟨rfl, rfl⟩ := Prod.mk.inj (Option.some.inj h)
    have hblanks : ∀ around, some (⟨s.takeWhile isSpace, rest.takeWhile isSpace⟩ : Surround) =
        some around → Spaces around.before ∧ Spaces around.after := by
      rintro _ ⟨⟩
      exact ⟨spaces_takeWhile s, spaces_takeWhile rest⟩
    obtain ⟨w, hw, hsound⟩ := sound_of_readName? hname hblanks none
    rw [taken_eq hw]
    exact ⟨hsound, rfl, stops_dropWhile isSpace rest⟩

theorem sound_of_readPath? {s r : Text} {path : List Key} (h : readPath? s = some (path, r)) :
    path ≠ [] ∧ (∀ key ∈ path, key.Sound ∧ key.outer = none) ∧ Stops isSpace r := by
  fun_induction readPath? s generalizing path with
  | case1 s key rest hread hlength ih =>
    obtain ⟨⟨path, r⟩, hpath, he⟩ := Option.map_eq_some_iff.mp h
    obtain ⟨rfl, rfl⟩ := Prod.mk.inj he
    obtain ⟨hsound, houter, -⟩ := sound_of_read? hread
    obtain ⟨-, hall, hstops⟩ := ih hpath
    refine ⟨by simp, ?_, hstops⟩
    rw [List.forall_mem_cons]
    exact ⟨⟨hsound, houter⟩, hall⟩
  | case2 => cases h
  | case3 s key rest hpoint hread =>
    obtain ⟨rfl, rfl⟩ := Prod.mk.inj (Option.some.inj h)
    obtain ⟨hsound, houter, hstops⟩ := sound_of_read? hread
    exact ⟨by simp, by simpa using ⟨hsound, houter⟩, hstops⟩
  | case4 => cases h

theorem head_of_readPathAfter? {lead s r : Text} {path : List Key}
    (h : readPathAfter? lead s = some (path, r)) :
    ∃ c t, s.dropWhile isSpace = c :: t ∧ isKeyHead c = true := by
  have hread : ∀ key rest, read? s = some (key, rest) →
      ∃ c t, s.dropWhile isSpace = c :: t ∧ isKeyHead c = true := by
    intro key rest h
    unfold read? at h
    dsimp only at h
    split at h
    · cases h
    · next name _ hname =>
      obtain ⟨w, hw, hsound⟩ := @sound_of_readName? _ _ _ hname none (by simp) none
      obtain ⟨c, u, hc, rfl⟩ := hsound.opening
      exact ⟨c, _, hw, hc⟩
  unfold readPathAfter? at h
  split at h
  · next hpath =>
    unfold readPath? at hpath
    split at hpath
    · next hkey => exact hread _ _ hkey
    · next hkey => exact hread _ _ hkey
    · cases hpath
  · cases h

theorem Sound.spaces_before {key : Key} (h : key.Sound) : Spaces key.before := by
  unfold before
  cases hinner : key.inner with
  | none => exact spaces_nil
  | some around => exact (h.blanks around hinner).1

theorem Sound.spaces_after {key : Key} (h : key.Sound) : Spaces key.after := by
  unfold after
  cases hinner : key.inner with
  | none => exact spaces_nil
  | some around => exact (h.blanks around hinner).2

structure Settled (lead : Text → Prop) (path : List Key) : Prop where
  sound : ∀ key ∈ path, key.Sound
  middle : ∀ key ∈ path.dropLast, key.outer = none
  last : ∃ key before after, path.getLast? = some key ∧ key.outer = some ⟨before, after⟩ ∧
    lead before ∧ Spaces after

theorem Settled.imp {P Q : Text → Prop} {path : List Key} (h : Settled P path)
    (himp : ∀ s, P s → Q s) : Settled Q path := by
  obtain ⟨hsound, hmiddle, key, before, after, hlast, houter, hbefore, hafter⟩ := h
  exact ⟨hsound, hmiddle, key, before, after, hlast, houter, himp _ hbefore, hafter⟩

theorem Settled.tail {lead : Text → Prop} {key next : Key} {path : List Key}
    (h : Settled lead (key :: next :: path)) :
    key.Sound ∧ key.outer = none ∧ Settled lead (next :: path) := by
  obtain ⟨hsound, hmiddle, hlast⟩ := h
  rw [List.dropLast_cons_of_ne_nil (by simp), List.forall_mem_cons] at hmiddle
  rw [List.getLast?_cons_cons] at hlast
  rw [List.forall_mem_cons] at hsound
  exact ⟨hsound.1, hmiddle.1, hsound.2, hmiddle.2, hlast⟩

theorem settleLast_cons_cons (lead : Text) (key next : Key) (path : List Key) :
    settleLast lead (key :: next :: path) = key :: settleLast lead (next :: path) :=
  settleLast.eq_3 lead key (next :: path) (by simp)

theorem map_name_settleLast (lead : Text) (path : List Key) :
    (settleLast lead path).map name = path.map name := by
  induction path with
  | nil => rfl
  | cons key path ih =>
    cases path with
    | nil => rfl
    | cons next path =>
      rw [settleLast_cons_cons, List.map_cons, ih]
      rfl

theorem map_name_settle (lead : Text) (path : List Key) :
    (settle lead path).map name = path.map name := by
  cases path with
  | nil => rfl
  | cons key path => exact map_name_settleLast _ _

theorem settled_settleLast {lead : Text} {path : List Key} (hne : path ≠ [])
    (hpath : ∀ key ∈ path, key.Sound ∧ key.outer = none) :
    Settled (· = lead) (settleLast lead path) := by
  induction path with
  | nil => exact absurd rfl hne
  | cons key path ih =>
    obtain ⟨hkey, houter⟩ := hpath key List.mem_cons_self
    cases path with
    | nil =>
      refine ⟨?_, by simp [settleLast], ⟨_, _, _, rfl, rfl, rfl, hkey.spaces_after⟩⟩
      intro key' hkey'
      rw [settleLast, List.mem_singleton] at hkey'
      subst hkey'
      refine ⟨hkey.opening, hkey.solid, hkey.reads, ?_⟩
      rintro _ ⟨⟩
      exact ⟨hkey.spaces_before, spaces_nil⟩
    | cons next path =>
      obtain ⟨hsound, hmiddle, hlast⟩ :=
        ih (by simp) fun k hk => hpath k (List.mem_cons_of_mem key hk)
      have hne' : settleLast lead (next :: path) ≠ [] := fun e => by
        have := map_name_settleLast lead (next :: path)
        simp [e] at this
      obtain ⟨k, ks, hks⟩ := List.exists_cons_of_ne_nil hne'
      refine ⟨?_, ?_, ?_⟩
      · rw [settleLast_cons_cons, List.forall_mem_cons]
        exact ⟨hkey, hsound⟩
      · rw [settleLast_cons_cons, hks, List.dropLast_cons_of_ne_nil (by simp),
          List.forall_mem_cons]
        exact ⟨houter, hks ▸ hmiddle⟩
      · rw [settleLast_cons_cons, hks, List.getLast?_cons_cons]
        exact hks ▸ hlast

theorem settled_settle {lead : Text} {path : List Key} (hne : path ≠ [])
    (hpath : ∀ key ∈ path, key.Sound ∧ key.outer = none) :
    Settled (fun s => ∃ blanks, Spaces blanks ∧ s = lead ++ blanks) (settle lead path) := by
  obtain ⟨key, path, rfl⟩ := List.exists_cons_of_ne_nil hne
  obtain ⟨hkey, houter⟩ := hpath key List.mem_cons_self
  obtain ⟨hsound, hmiddle, hlast⟩ := @settled_settleLast (lead ++ key.before)
    ({ key with inner := some ⟨[], key.after⟩ } :: path) (by simp) (by
      rw [List.forall_mem_cons]
      refine ⟨⟨⟨hkey.opening, hkey.solid, hkey.reads, ?_⟩, houter⟩, fun k hk =>
        hpath k (List.mem_cons_of_mem key hk)⟩
      rintro _ ⟨⟩
      exact ⟨spaces_nil, hkey.spaces_after⟩)
  refine ⟨hsound, hmiddle, ?_⟩
  obtain ⟨k, before, after, hk, ho, rfl, ha⟩ := hlast
  exact ⟨k, _, after, hk, ho, ⟨key.before, hkey.spaces_before, rfl⟩, ha⟩

theorem settled_of_readPathAfter? {lead s r : Text} {path : List Key}
    (h : readPathAfter? lead s = some (path, r)) :
    Settled (fun s => ∃ blanks, Spaces blanks ∧ s = lead ++ blanks) path ∧
      path.length < maxPath ∧ Stops isSpace r := by
  unfold readPathAfter? at h
  split at h
  · next p rest hread =>
    obtain ⟨hne, hpath, hstops⟩ := sound_of_readPath? hread
    split at h
    · next hlength =>
      obtain ⟨rfl, rfl⟩ := Prod.mk.inj (Option.some.inj h)
      have := congrArg List.length (map_name_settle lead p)
      simp only [List.length_map] at this
      exact ⟨settled_settle hne hpath, by omega, hstops⟩
    · cases h
  · cases h

def IsPathEnd (c : Char) : Prop := c = '=' ∨ c = ']'

theorem isPathEnd_facts {c : Char} (h : IsPathEnd c) :
    isBlank c = false ∧ isBareKey c = false ∧ c ≠ '.' := by
  rcases h with rfl | rfl <;> decide

theorem Sound.stops_isSpace {key : Key} (h : key.Sound) (r : Text) :
    Stops isSpace (key.spelling ++ r) := by
  obtain ⟨c, w, hc, hw⟩ := h.opening
  rw [hw, List.cons_append, stops_cons]
  exact isSpace_of_not_isBlank (isKeyHead_facts hc).1

/-- A key between blanks is read up to what follows them. -/
theorem Sound.read? {key : Key} (h : key.Sound) {b a r : Text} {c : Char} (hb : Spaces b)
    (ha : Spaces a) (hc : isBlank c = false) (hbare : isBareKey c = false) :
    Key.read? (b ++ (key.spelling ++ (a ++ c :: r))) =
      some (⟨key.name, key.spelling, some ⟨b, a⟩, none⟩, c :: r) := by
  have hstart := dropWhile_run hb (h.stops_isSpace (a ++ c :: r))
  have hrest := dropWhile_run (s := c :: r) ha (stops_cons.mpr (isSpace_of_not_isBlank hc))
  have hname := h.reads (a ++ c :: r) (ha.stops_cons (by decide) hbare r)
  have hbefore := takeWhile_run hb (h.stops_isSpace (a ++ c :: r))
  have hafter := takeWhile_run (s := c :: r) ha (stops_cons.mpr (isSpace_of_not_isBlank hc))
  simp only [Key.read?, hstart, hname, hrest, hbefore, hafter, taken_append]

theorem readPath?_end {s r : Text} {key : Key} {c : Char} (h : Key.read? s = some (key, c :: r))
    (hc : c ≠ '.') : readPath? s = some ([key], c :: r) := by
  rw [readPath?, h]
  split
  · next heq => exact absurd (List.cons.inj (Prod.mk.inj (Option.some.inj heq)).2).1 hc
  · next heq =>
    obtain ⟨rfl, rfl⟩ := Prod.mk.inj (Option.some.inj heq)
    rfl
  · next heq => cases heq

theorem readPath?_point {s rest r : Text} {key : Key} {path : List Key}
    (h : Key.read? s = some (key, '.' :: rest)) (hlength : rest.length < s.length)
    (hrest : readPath? rest = some (path, r)) : readPath? s = some (key :: path, r) := by
  rw [readPath?, h]
  split
  · next heq =>
    obtain ⟨rfl, htail⟩ := Prod.mk.inj (Option.some.inj heq)
    rw [← (List.cons.inj htail).2, dif_pos hlength, hrest]
    rfl
  · next hno heq =>
    obtain ⟨-, rfl⟩ := Prod.mk.inj (Option.some.inj heq)
    exact absurd rfl (hno _)
  · next heq => cases heq

theorem joined_cons_cons (key next : Key) (path : List Key) :
    joined (key :: next :: path) =
      key.spelling ++ (key.after ++ '.' :: (next.before ++ joined (next :: path))) := by
  rw [joined]
  simp

def shown (b a : Text) : List Key → List Key
  | [] => []
  | [key] => [⟨key.name, key.spelling, some ⟨b, a⟩, none⟩]
  | key :: next :: path =>
    ⟨key.name, key.spelling, some ⟨b, key.after⟩, none⟩ :: shown next.before a (next :: path)

theorem readPath?_joined {path : List Key} (hne : path ≠ []) (hpath : ∀ key ∈ path, key.Sound)
    {b a : Text} (hb : Spaces b) (ha : Spaces a) {c : Char} (hc : IsPathEnd c) (r : Text) :
    readPath? (b ++ (joined path ++ (a ++ c :: r))) = some (shown b a path, c :: r) := by
  obtain ⟨hblank, hbare, hpoint⟩ := isPathEnd_facts hc
  induction path generalizing b with
  | nil => exact absurd rfl hne
  | cons key path ih =>
    have hkey := hpath key List.mem_cons_self
    cases path with
    | nil => exact readPath?_end (hkey.read? hb ha hblank hbare) hpoint
    | cons next path =>
      have hnext := hpath next (by simp)
      have hpath' := ih (by simp) (fun k hk => hpath k (List.mem_cons_of_mem key hk)) hnext.spaces_before
      let rest := next.before ++ (joined (next :: path) ++ (a ++ c :: r))
      have hread := hkey.read? hb hkey.spaces_after (c := '.') (r := rest) (by decide) (by decide)
      have htext : b ++ (joined (key :: next :: path) ++ (a ++ c :: r)) =
          b ++ (key.spelling ++ (key.after ++ '.' :: rest)) := by
        rw [joined_cons_cons]
        simp [rest]
      rw [htext]
      exact readPath?_point hread (by simp only [List.length_append, List.length_cons]; omega) hpath'

/-- How the keys of a path are read again: all but the last are determined by the key that was
written and by whether it is the first. -/
def Told : Bool → List Key → List Key → Prop
  | _, [key], [key'] => key'.name = key.name
  | first, key :: next :: path, key' :: path' =>
    key' = ⟨key.name, key.spelling, some ⟨if first then [] else key.before, key.after⟩, none⟩ ∧
      Told false (next :: path) path'
  | _, _, _ => False

theorem Told.names {first : Bool} {path path' : List Key} (h : Told first path path') :
    path'.map name = path.map name := by
  fun_induction Told first path path' with
  | case1 => simpa using h
  | case2 first key next path key' path' ih =>
    obtain ⟨rfl, hrest⟩ := h
    rw [List.map_cons, ih hrest]
    rfl
  | case3 => exact h.elim

theorem Told.eq_singleton {first : Bool} {key : Key} {path' : List Key} (h : Told first [key] path') :
    ∃ key', path' = [key'] ∧ key'.name = key.name :=
  List.map_eq_singleton_iff.mp h.names

theorem told_shown {first : Bool} {b : Text} (a lead : Text) {path : List Key} (hne : path ≠ [])
    (hb : ∀ key ∈ path.head?, b = if first then [] else key.before) :
    Told first path (settleLast lead (shown b a path)) := by
  induction path generalizing first b with
  | nil => exact absurd rfl hne
  | cons key path ih =>
    obtain rfl := hb key rfl
    cases path with
    | nil => exact rfl
    | cons next path =>
      have hrest := @ih false next.before (by simp) (by rintro _ ⟨⟩; rfl)
      obtain ⟨k, ks, hshown⟩ : ∃ k ks, shown next.before a (next :: path) = k :: ks := by
        cases path <;> exact ⟨_, _, rfl⟩
      rw [hshown] at hrest
      rw [shown, hshown, settleLast_cons_cons]
      exact ⟨rfl, hrest⟩

theorem settle_shown (lead b a : Text) (path : List Key) :
    settle lead (shown b a path) = settleLast (lead ++ b) (shown [] a path) := by
  match path with
  | [] => rfl
  | [_] => rfl
  | _ :: _ :: _ => rfl

theorem joined_settleLast (lead b a : Text) {path : List Key} (hne : path ≠ []) :
    (∀ key ∈ (settleLast lead (shown b a path)).head?, key.before = b) ∧
      joined (settleLast lead (shown b a path)) = joined path ∧
      (settleLast lead (shown b a path)).getLast?.bind outer = some ⟨lead, a⟩ := by
  induction path generalizing b with
  | nil => exact absurd rfl hne
  | cons key path ih =>
    cases path with
    | nil => exact ⟨by rintro _ ⟨⟩; rfl, rfl, rfl⟩
    | cons next path =>
      obtain ⟨hbefore, hjoined, houter⟩ := ih next.before (by simp)
      obtain ⟨k, ks, hshown⟩ : ∃ k ks, shown next.before a (next :: path) = k :: ks := by
        cases path <;> exact ⟨_, _, rfl⟩
      obtain ⟨l, ls, hsettled⟩ : ∃ l ls, settleLast lead (k :: ks) = l :: ls := by
        cases ks with
        | nil => exact ⟨_, _, rfl⟩
        | cons k' ks => exact ⟨_, _, settleLast_cons_cons lead k k' ks⟩
      rw [hshown, hsettled] at hbefore hjoined houter
      rw [shown, hshown, settleLast_cons_cons, hsettled]
      refine ⟨by rintro _ ⟨⟩; rfl, ?_, by rw [List.getLast?_cons_cons, houter]⟩
      rw [joined_cons_cons, joined_cons_cons, hjoined, hbefore l rfl]
      rfl

theorem pathText_settle (lead b a : Text) {path : List Key} (hne : path ≠ []) (default : Surround) :
    pathText default (settle lead (shown b a path)) = lead ++ (b ++ (joined path ++ a)) := by
  obtain ⟨-, hjoined, houter⟩ := joined_settleLast (lead ++ b) [] a hne
  rw [settle_shown, pathText, hjoined, houter]
  simp

theorem head_of_joined {path : List Key} (hne : path ≠ []) (hpath : ∀ key ∈ path, key.Sound) :
    ∃ c u, joined path = c :: u ∧ isKeyHead c = true := by
  obtain ⟨key, path, rfl⟩ := List.exists_cons_of_ne_nil hne
  obtain ⟨c, w, hc, hw⟩ := (hpath key List.mem_cons_self).opening
  cases path with
  | nil => exact ⟨c, w, hw, hc⟩
  | cons next path =>
    exact ⟨c, _, by rw [joined_cons_cons, hw]; rfl, hc⟩

theorem newline_not_mem_joined {path : List Key} (hpath : ∀ key ∈ path, key.Sound) :
    '\n' ∉ joined path := by
  induction path with
  | nil => exact List.not_mem_nil
  | cons key path ih =>
    have hkey := hpath key List.mem_cons_self
    cases path with
    | nil => exact hkey.solid.oneLine
    | cons next path =>
      rw [joined_cons_cons]
      simp only [List.mem_append, List.mem_cons, not_or]
      exact ⟨hkey.solid.oneLine, hkey.spaces_after.newline_not_mem, by decide,
        (hpath next (by simp)).spaces_before.newline_not_mem,
        ih fun k hk => hpath k (List.mem_cons_of_mem key hk)⟩

theorem strip_path {path : List Key} (hpath : ∀ key ∈ path, key.Sound) {b a : Text}
    (hb : Spaces b) (ha : Spaces a) {c : Char} (hc : IsPathEnd c) (r : Text) :
    strip (b ++ (joined path ++ (a ++ c :: r))) = b ++ (joined path ++ (a ++ c :: strip r)) := by
  have hline : '\n' ∉ b ++ (joined path ++ a) := by
    simp only [List.mem_append, not_or]
    exact ⟨hb.newline_not_mem, newline_not_mem_joined hpath, ha.newline_not_mem⟩
  have := (solid_append hline (isPathEnd_facts hc).1).strip_append (s := r)
  simpa using this

/-- A path reads back from a tidy text, behind any remark. -/
theorem readPathAfter?_joined {path : List Key} (hne : path ≠ []) (hlength : path.length < maxPath)
    (hpath : ∀ key ∈ path, key.Sound) {b a : Text} (hb : Spaces b) (ha : Spaces a) {c : Char}
    (hc : IsPathEnd c) (lead r : Text) :
    ∃ path', readPathAfter? lead (strip (b ++ (joined path ++ (a ++ c :: r)))) =
      some (path', c :: strip r) ∧ Told true path path' ∧
        ∀ default, pathText default path' = lead ++ (b ++ (joined path ++ a)) := by
  have hread := readPath?_joined hne hpath hb ha hc (strip r)
  have htold : Told true path (settle lead (shown b a path)) := by
    rw [settle_shown]
    exact told_shown a _ hne fun _ _ => rfl
  have hlength' := congrArg List.length htold.names
  rw [List.length_map, List.length_map] at hlength'
  have hsettle := congrArg List.length (map_name_settle lead (shown b a path))
  rw [List.length_map, List.length_map, hlength'] at hsettle
  rw [strip_path hpath hb ha hc, readPathAfter?, hread]
  refine ⟨settle lead (shown b a path), by simp only []; rw [if_pos (by omega)], htold, pathText_settle lead b a hne⟩

end Key

end DeploymentRecords.Toml
