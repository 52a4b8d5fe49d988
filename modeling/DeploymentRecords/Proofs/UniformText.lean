import DeploymentRecords.Proofs.Passages
import DeploymentRecords.Proofs.Rebuilding
import DeploymentRecords.Proofs.StatementReading
import Mathlib.Data.List.Nodup

/-! # Uniform texts

A text keeps its layout when it is read and written again, if its headers and dotted keys come back
to a table only in the spelling in which the table holds its keys. -/

namespace DeploymentRecords.Toml

open Member

namespace Entries

/-- A path spells the keys that it meets as they are spelt, and the table at its end is `fit`. -/
def retraced (fit : Entries → Bool) : List Key → Entries → Bool
  | [], entries => fit entries
  | key :: path, entries =>
    match entries.find? (·.1.name = key.name) with
    | some (old, .table _ sub) => decide (old.face = key.face) && retraced fit path sub
    | some (old, .tables elements) =>
      decide (old.face = key.face) && elements.getLast?.all fun element => retraced fit path element.2
    | _ => true

def opened (key : Key) (entries : Entries) : Bool :=
  match entries.find? (·.1.name = key.name) with
  | some (old, .tables _) => decide (old = key)
  | some (old, _) => decide (old.face = key.face)
  | none => true

def continued : List Key → Entries → Bool
  | [], _ => true
  | key :: path, entries =>
    match entries.find? (·.1.name = key.name), entries.getLast? with
    | none, _ => true
    | some _, some (old, .table .dotted sub) => decide (old.face = key.face) && continued path sub
    | _, _ => false

def openWith (array : Bool) (heading : Heading) (key : Key) (entries : Entries) : Option Entries :=
  if array then openElement? heading key entries else openTable? heading key entries

end Entries

inductive At (heading : Heading) : List Key → Entries → Prop where
  | table {entries sub : Entries} {key : Key} :
      entries.get? key.name = some (.table (.headed heading) sub) → At heading [key] entries
  | element {entries sub : Entries} {key : Key} {front : List (Heading × Entries)} :
      entries.get? key.name = some (.tables (front ++ [(heading, sub)])) → At heading [key] entries
  | inTable {entries sub : Entries} {key : Key} {path : List Key} {kind : TableKind} :
      entries.get? key.name = some (.table kind sub) → At heading path sub → At heading (key :: path) entries
  | inElement {entries sub : Entries} {key : Key} {path : List Key} {front : List (Heading × Entries)}
      {other : Heading} : entries.get? key.name = some (.tables (front ++ [(other, sub)])) →
      At heading path sub → At heading (key :: path) entries

section steps

variable {entries new sub : Entries} {front goal path : List Key} {key : Key} {heading : Heading}
  {lo hi : Nat} {array : Bool}

theorem perm_moved {α : Type} {m : List α} (as bs : List α) (x : α) :
    (as ++ bs ++ x :: m).Perm (as ++ (m ++ bs) ++ [x]) := by
  have hend : (bs ++ x :: m).Perm (m ++ bs ++ [x]) :=
    List.perm_append_comm.trans ((List.perm_append_singleton x (m ++ bs)).symm)
  rw [List.append_assoc, List.append_assoc]
  exact hend.append_left as

theorem faces_concat (h : front.map Key.face = goal.map Key.face) {k k' : Key} (hk : k.face = k'.face) :
    (front ++ [k]).map Key.face = (goal ++ [k']).map Key.face := by
  rw [List.map_append, List.map_append, h, List.map_singleton, List.map_singleton, hk]

structure Added (heading : Heading) (path : List Key) (front : List Key) (entries new : Entries)
    (line : Line) : Prop where
  passages : (entriesPassages front new).Perm (entriesPassages front entries ++ [(heading.position, [line])])
  body : ∀ path, entriesBody path new = entriesBody path entries
  place : At heading path new

theorem openWith_added_fresh (h : Entries.openWith array heading key entries = some new)
    (hfresh : key.name ∉ names entries) (hfront : front.map Key.face = goal.map Key.face) :
    Added heading [key] front entries new (Statement.header array (goal ++ [key]) heading.around).line := by
  have hline := Statement.line_header_congr hfront (show [key] ≠ [] by simp) array heading.around
  have hget := Entries.get?_eq_none_iff.mpr hfresh
  cases array with
  | false =>
    simp only [Entries.openWith, Entries.openTable?, hget, Bool.false_eq_true, if_false,
      Option.some.injEq] at h
    subst h
    refine ⟨?_, fun path => ?_, .table (Entries.get?_concat hfresh)⟩
    · rw [Entries.passages_concat, passages_table, ← hline]
      exact .refl _
    · rw [Entries.body_concat]
      exact List.append_nil _
  | true =>
    simp only [Entries.openWith, Entries.openElement?, hget, if_true, Option.some.injEq] at h
    subst h
    refine ⟨?_, fun path => ?_, @At.element _ _ _ _ [] (Entries.get?_concat hfresh)⟩
    · rw [Entries.passages_concat, ← hline]
      exact .refl _
    · rw [Entries.body_concat]
      exact List.append_nil _

/-- A header whose last name is there already: of an implied table, which is completed, or of an
array of tables, which gets a further element. -/
theorem openWith_added (h : Entries.openWith array heading key entries = some new)
    (hopened : entries.opened key = true) (hregular : entries.Regular lo hi)
    (hquiet : ∀ u ∈ entriesPassages front entries, u.1 ≠ 0)
    (hfront : front.map Key.face = goal.map Key.face) :
    Added heading [key] front entries new (Statement.header array (goal ++ [key]) heading.around).line := by
  have hline := Statement.line_header_congr hfront (show [key] ≠ [] by simp) array heading.around
  unfold Entries.opened at hopened
  cases hfind : entries.find? (fun p => p.1.name = key.name) with
  | none => exact openWith_added_fresh h (find?_name_eq_none.mp hfind) hfront
  | some p =>
    obtain ⟨old, member⟩ := p
    have hget : entries.get? key.name = some member := by rw [Entries.get?, hfind]; rfl
    obtain ⟨as, bs, hsplit⟩ := Entries.exists_split hregular.nodup hfind
    simp only [hfind] at hopened
    cases array with
    | false =>
      -- an implied table has no passage yet, so its body is empty and it may move to the end
      simp only [Entries.openWith, Entries.openTable?, hget, Bool.false_eq_true, if_false] at h
      split at h
      · next heq => cases heq
      · next sub heq =>
        obtain rfl := Option.some.inj heq
        obtain rfl := Option.some.inj h
        have hface : old.face = key.face := by simpa using hopened
        rw [hsplit.passages, passages_table] at hquiet
        have hbody : entriesBody [] sub = [] := by
          by_contra hne
          refine hquiet (0, (entriesBody [] sub).map assignLine) ?_ rfl
          simp [ownPassage, hne]
        refine ⟨?_, fun path => ?_, @At.table _ _ sub _ (Entries.get?_concat ?_)⟩
        · rw [Entries.passages_concat, hsplit.passages_erase, hsplit.passages, passages_table,
            passages_table, entriesPassages_congr (faces_concat rfl hface), ownPassage, ownPassage, hbody,
            if_pos rfl, ← hline]
          exact perm_moved (entriesPassages front as) (entriesPassages front bs) (heading.position, _)
        · rw [Entries.body_concat, hsplit.body_erase fun _ => rfl]
          exact List.append_nil _
        · exact Entries.get?_eq_none_iff.mp (by rw [Entries.get?_erase, if_pos rfl])
      · cases h
    | true =>
      simp only [Entries.openWith, Entries.openElement?, hget, if_true] at h
      split at h
      · next heq => cases heq
      · next elements heq =>
        obtain rfl := Option.some.inj heq
        obtain rfl := Option.some.inj h
        obtain rfl : old = key := by simpa using hopened
        refine ⟨?_, hsplit.body_replace fun _ => rfl, @At.element _ _ [] _ elements (hsplit.get? _)⟩
        rw [hsplit.passages_replace, hsplit.passages, passages_tables, ← hline]
        exact perm_middle (.refl _)
      · cases h

namespace Added

variable {old k : Key} {as bs : Entries} {line : Line}

theorem inFresh (hfresh : k.name ∉ names entries) (h : Added heading path (front ++ [k]) [] sub line) :
    Added heading (k :: path) front entries (entries ++ [(k, .table .implied sub)]) line := by
  obtain ⟨hpassages, hbody, hplace⟩ := h
  refine ⟨?_, fun path => ?_, .inTable (Entries.get?_concat hfresh) hplace⟩
  · have hempty : entriesBody [] sub = [] := hbody []
    rw [Entries.passages_concat, passages_table, ownPassage, if_pos hempty]
    exact hpassages.append_left (entriesPassages front entries)
  · rw [Entries.body_concat]
    exact List.append_nil _

theorem inTable {kind : TableKind} (hsplit : Entries.Split entries k.name old (.table kind sub) as bs)
    (h : Added heading path (front ++ [old]) sub new line) :
    Added heading (k :: path) front entries (entries.replace k.name (.table kind new)) line := by
  obtain ⟨hpassages, hbody, hplace⟩ := h
  refine ⟨?_, hsplit.body_replace (body_table kind hbody), .inTable (hsplit.get? _) hplace⟩
  rw [hsplit.passages_replace, hsplit.passages, passages_table, passages_table, hbody]
  refine perm_middle ?_
  rw [List.append_assoc]
  exact hpassages.append_left _

theorem inElement {elements : List (Heading × Entries)} {other : Heading}
    (hsplit : Entries.Split entries k.name old (.tables (elements ++ [(other, sub)])) as bs)
    (h : Added heading path (front ++ [old]) sub new line) :
    Added heading (k :: path) front entries
      (entries.replace k.name (.tables (elements ++ [(other, new)]))) line := by
  obtain ⟨hpassages, hbody, hplace⟩ := h
  refine ⟨?_, hsplit.body_replace fun _ => rfl, .inElement (hsplit.get? _) hplace⟩
  rw [hsplit.passages_replace, hsplit.passages, passages_tables, passages_tables, hbody]
  refine perm_middle ?_
  rw [List.append_assoc, List.cons_append]
  exact (hpassages.cons _).append_left _

end Added

theorem retraced_nil (path : List Key) : Entries.retraced (Entries.opened key) path [] = true := by
  cases path <;> rfl

/-- A header that retraces its path adds its passage and nothing else. -/
theorem reach?_added (h : Entries.reach? (Entries.openWith array heading key) path entries = some new)
    (hretraced : Entries.retraced (Entries.opened key) path entries = true)
    (hregular : entries.Regular lo hi) (hquiet : ∀ u ∈ entriesPassages front entries, u.1 ≠ 0)
    (hfront : front.map Key.face = goal.map Key.face) :
    Added heading (path ++ [key]) front entries new
      (Statement.header array (goal ++ (path ++ [key])) heading.around).line := by
  induction path generalizing entries new front goal lo hi with
  | nil => exact openWith_added h hretraced hregular hquiet hfront
  | cons k path ih =>
    have hgoal : goal ++ (k :: path ++ [key]) = goal ++ [k] ++ (path ++ [key]) := by simp
    rw [hgoal]
    rw [Entries.reach?] at h
    cases hfind : entries.find? (fun p => p.1.name = k.name) with
    | none =>
      -- below a name that is new everything is new, so there is nothing to retrace
      have hfresh := find?_name_eq_none.mp hfind
      simp only [Entries.get?_eq_none_iff.mpr hfresh] at h
      obtain ⟨sub, hsub, rfl⟩ := Option.map_eq_some_iff.mp h
      exact .inFresh hfresh (ih hsub (retraced_nil path) (@Entries.regular_nil lo hi) (by simp)
        (faces_concat hfront rfl))
    | some p =>
      obtain ⟨old, member⟩ := p
      have hget : entries.get? k.name = some member := by rw [Entries.get?, hfind]; rfl
      obtain ⟨as, bs, hsplit⟩ := Entries.exists_split hregular.nodup hfind
      rw [Entries.retraced] at hretraced
      simp only [hget] at h
      simp only [hfind] at hretraced
      rw [hsplit.passages] at hquiet
      cases member with
      | expr e => cases h
      | table kind sub =>
        obtain ⟨sub', hsub, rfl⟩ := Option.map_eq_some_iff.mp h
        obtain ⟨hface, hbelow⟩ := (Bool.and_eq_true _ _).mp hretraced
        rw [passages_table] at hquiet
        exact .inTable hsplit (ih hsub hbelow (hregular.of_get? hget).entries
          (fun u hu => hquiet u (by simp [hu])) (faces_concat hfront (by simpa using hface)))
      | tables elements =>
        dsimp only at h
        split at h
        · cases h
        · next other sub hlast =>
          obtain ⟨sub', hsub, rfl⟩ := Option.map_eq_some_iff.mp h
          obtain ⟨hface, hbelow⟩ := (Bool.and_eq_true _ _).mp hretraced
          rw [hlast, Option.all_some] at hbelow
          have helements := Entries.getLast?_elements hlast
          rw [helements] at hsplit
          rw [helements, passages_tables] at hquiet
          have hregular' := (hregular.of_get? hget).2
          rw [helements] at hregular'
          exact .inElement hsplit (ih hsub hbelow hregular'.last.2.1
            (fun u hu => hquiet u (by simp [hu])) (faces_concat hfront (by simpa using hface)))

/-- A dotted key that is continued adds a line to the body around it, and no passage. -/
theorem assign?_added {direct : Bool} {e : Expr}
    (h : Entries.assign? direct path e entries = some new)
    (hcontinued : Entries.continued path entries = true) (hregular : entries.Regular lo hi)
    (hfront : front.map Key.face = goal.map Key.face) :
    (entriesBody front new).map assignLine =
        (entriesBody front entries).map assignLine ++ [assignLine (goal ++ path, e)] ∧
      ∀ path, entriesPassages path new = entriesPassages path entries := by
  induction path generalizing direct entries new front goal lo hi with
  | nil => cases h
  | cons key path ih =>
    cases path with
    | nil =>
      rw [Entries.assign?] at h
      split at h
      · obtain rfl := Option.some.inj h
        refine ⟨?_, fun path => ?_⟩
        · rw [Entries.body_concat, List.map_append]
          exact congrArg (_ ++ [·]) (Statement.line_assign_congr hfront (by simp) e)
        · rw [Entries.passages_concat]
          exact List.append_nil _
      · cases h
    | cons next path =>
      rw [Entries.assign?.eq_3 direct e entries key (next :: path) (by simp)] at h
      have hgoal : goal ++ key :: next :: path = goal ++ [key] ++ next :: path := by simp
      rw [hgoal]
      rw [Entries.continued] at hcontinued
      split at hcontinued
      · next hfind =>
        have hget : entries.get? key.name = none := by rw [Entries.get?, hfind]; rfl
        simp only [hget] at h
        obtain ⟨sub, hsub, rfl⟩ := Option.map_eq_some_iff.mp h
        obtain ⟨hbody, hpassages⟩ := ih hsub rfl (@Entries.regular_nil lo hi) (faces_concat hfront rfl)
        refine ⟨?_, fun path => ?_⟩
        · rw [Entries.body_concat, List.map_append, body, hbody]
          rfl
        · rw [Entries.passages_concat, passages_table, hpassages]
          exact List.append_nil _
      · next old sub hfind hlast =>
        -- only the dotted table that comes last can go on: its lines are the last of the body
        obtain ⟨hface, hbelow⟩ := (Bool.and_eq_true _ _).mp hcontinued
        have hface : old.face = key.face := by simpa using hface
        have hname : old.name = key.name := congrArg Prod.fst hface
        obtain ⟨init, rfl⟩ := List.getLast?_eq_some_iff.mp hlast
        have hmember := hregular.members (old, .table .dotted sub) (by simp)
        have hget := Entries.get?_of_mem hregular.nodup (List.mem_append_right init List.mem_cons_self)
        rw [hname] at hget
        simp only [hget] at h
        obtain ⟨sub', hsub, rfl⟩ := Option.map_eq_some_iff.mp h
        obtain ⟨hbody, hpassages⟩ := ih hsub hbelow hmember.entries (faces_concat hfront hface)
        have hfresh : old.name ∉ names init := by
          have := hregular.nodup
          rw [names, List.map_append, List.nodup_append] at this
          exact fun hm => this.2.2 _ hm _ (by simp) rfl
        rw [← hname, Entries.replace, replace_last hfresh]
        refine ⟨?_, fun path => ?_⟩
        · rw [Entries.body_concat, Entries.body_concat, List.map_append, List.map_append, body, body,
            hbody]
          simp only [List.append_assoc]
        · rw [Entries.passages_concat, Entries.passages_concat, passages_table, passages_table,
            ownPassage, ownPassage, hpassages]
      · cases hcontinued

structure Continued (heading : Heading) (place front : List Key) (entries new : Entries) (line : Line) :
    Prop where
  passages : ∃ as ls bs, entriesPassages front entries = as ++ (heading.position, ls) :: bs ∧
    entriesPassages front new = as ++ (heading.position, ls ++ [line]) :: bs
  body : ∀ path, entriesBody path new = entriesBody path entries
  place : At heading place new

namespace Continued

variable {old k : Key} {place : List Key} {as bs : Entries} {line : Line}

theorem inTable {kind : TableKind} (hsplit : Entries.Split entries k.name old (.table kind sub) as bs)
    (h : Continued heading place (front ++ [old]) sub new line) :
    Continued heading (k :: place) front entries (entries.replace k.name (.table kind new)) line := by
  obtain ⟨⟨as', ls, bs', hold, hnew⟩, hbody, hplace⟩ := h
  refine ⟨⟨entriesPassages front as ++ (ownPassage (front ++ [old]) (entriesBody [] sub) kind ++ as'), ls,
    bs' ++ entriesPassages front bs, ?_, ?_⟩, hsplit.body_replace (body_table kind hbody),
    .inTable (hsplit.get? _) hplace⟩
  · rw [hsplit.passages, passages_table, hold]
    simp only [List.append_assoc, List.cons_append]
  · rw [hsplit.passages_replace, passages_table, hbody, hnew]
    simp only [List.append_assoc, List.cons_append]

theorem inElement {elements : List (Heading × Entries)} {other : Heading}
    (hsplit : Entries.Split entries k.name old (.tables (elements ++ [(other, sub)])) as bs)
    (h : Continued heading place (front ++ [old]) sub new line) :
    Continued heading (k :: place) front entries
      (entries.replace k.name (.tables (elements ++ [(other, new)]))) line := by
  obtain ⟨⟨as', ls, bs', hold, hnew⟩, hbody, hplace⟩ := h
  refine ⟨⟨entriesPassages front as ++ ((Member.tables elements).passages (front ++ [old]) ++
    (other.position, (Statement.header true (front ++ [old]) other.around).line ::
      (entriesBody [] sub).map assignLine) :: as'), ls, bs' ++ entriesPassages front bs, ?_, ?_⟩,
    hsplit.body_replace fun _ => rfl, .inElement (hsplit.get? _) hplace⟩
  · rw [hsplit.passages, passages_tables, hold]
    simp only [List.append_assoc, List.cons_append]
  · rw [hsplit.passages_replace, passages_tables, hbody, hnew]
    simp only [List.append_assoc, List.cons_append]

theorem ofTable (hsplit : Entries.Split entries k.name old (.table (.headed heading) sub) as bs)
    (hbody : (entriesBody [] new).map assignLine = (entriesBody [] sub).map assignLine ++ [line])
    (hpassages : ∀ path, entriesPassages path new = entriesPassages path sub) :
    Continued heading [k] front entries (entries.replace k.name (.table (.headed heading) new)) line := by
  refine ⟨⟨entriesPassages front as,
    (Statement.header false (front ++ [old]) heading.around).line :: (entriesBody [] sub).map assignLine,
    entriesPassages (front ++ [old]) sub ++ entriesPassages front bs, ?_, ?_⟩,
    hsplit.body_replace fun _ => rfl, .table (hsplit.get? _)⟩
  · rw [hsplit.passages, passages_table, ownPassage]
    rfl
  · rw [hsplit.passages_replace, passages_table, ownPassage, hbody, hpassages]
    rfl

theorem ofElement {elements : List (Heading × Entries)}
    (hsplit : Entries.Split entries k.name old (.tables (elements ++ [(heading, sub)])) as bs)
    (hbody : (entriesBody [] new).map assignLine = (entriesBody [] sub).map assignLine ++ [line])
    (hpassages : ∀ path, entriesPassages path new = entriesPassages path sub) :
    Continued heading [k] front entries
      (entries.replace k.name (.tables (elements ++ [(heading, new)]))) line := by
  refine ⟨⟨entriesPassages front as ++ (Member.tables elements).passages (front ++ [old]),
    (Statement.header true (front ++ [old]) heading.around).line :: (entriesBody [] sub).map assignLine,
    entriesPassages (front ++ [old]) sub ++ entriesPassages front bs, ?_, ?_⟩,
    hsplit.body_replace fun _ => rfl, .element (hsplit.get? _)⟩
  · rw [hsplit.passages, passages_tables]
    simp only [List.append_assoc, List.cons_append]
  · rw [hsplit.passages_replace, passages_tables, hbody, hpassages]
    simp only [List.append_assoc, List.cons_append]

end Continued

theorem reach?_continued {place : List Key} {e : Expr} (hplace : At heading place entries)
    (h : Entries.reach? (Entries.assign? true path e) place entries = some new)
    (hretraced : Entries.retraced (Entries.continued path) place entries = true)
    (hregular : entries.Regular lo hi) (front : List Key) :
    Continued heading place front entries new (assignLine (path, e)) := by
  induction hplace generalizing new front lo hi with
  | @table entries sub key hget =>
    obtain ⟨old, as, bs, hfind, hsplit⟩ := Entries.exists_split_of_get? hregular.nodup hget
    simp only [Entries.reach?, hget] at h
    simp only [Entries.retraced, hfind, Bool.and_eq_true] at hretraced
    obtain ⟨sub', hsub, rfl⟩ := Option.map_eq_some_iff.mp h
    obtain ⟨hbody, hpassages⟩ := @assign?_added _ _ [] [] _ _ _ _ _ hsub hretraced.2
      (hregular.of_get? hget).entries rfl
    exact .ofTable hsplit hbody hpassages
  | @element entries sub key elements hget =>
    obtain ⟨old, as, bs, hfind, hsplit⟩ := Entries.exists_split_of_get? hregular.nodup hget
    simp only [Entries.reach?, hget, List.getLast?_concat, List.dropLast_concat] at h
    simp only [Entries.retraced, hfind, List.getLast?_concat, Option.all_some, Bool.and_eq_true] at hretraced
    obtain ⟨sub', hsub, rfl⟩ := Option.map_eq_some_iff.mp h
    obtain ⟨hbody, hpassages⟩ := @assign?_added _ _ [] [] _ _ _ _ _ hsub hretraced.2
      (hregular.of_get? hget).2.last.2.1 rfl
    exact .ofElement hsplit hbody hpassages
  | @inTable entries sub key place kind hget _ ih =>
    obtain ⟨old, as, bs, hfind, hsplit⟩ := Entries.exists_split_of_get? hregular.nodup hget
    simp only [Entries.reach?, hget] at h
    simp only [Entries.retraced, hfind, Bool.and_eq_true] at hretraced
    obtain ⟨sub', hsub, rfl⟩ := Option.map_eq_some_iff.mp h
    exact .inTable hsplit (ih hsub hretraced.2 (hregular.of_get? hget).entries (front ++ [old]))
  | @inElement entries sub key place elements other hget _ ih =>
    obtain ⟨old, as, bs, hfind, hsplit⟩ := Entries.exists_split_of_get? hregular.nodup hget
    simp only [Entries.reach?, hget, List.getLast?_concat, List.dropLast_concat] at h
    simp only [Entries.retraced, hfind, List.getLast?_concat, Option.all_some, Bool.and_eq_true] at hretraced
    obtain ⟨sub', hsub, rfl⟩ := Option.map_eq_some_iff.mp h
    exact .inElement hsplit (ih hsub hretraced.2 (hregular.of_get? hget).2.last.2.1 (front ++ [old]))

end steps

namespace Statement

def uniform (draft : Document.Draft) : Statement → Bool
  | .header _ path _ =>
    path.getLast?.all fun key => Entries.retraced (Entries.opened key) path.dropLast draft.root
  | .assign path _ => Entries.retraced (Entries.continued path) draft.current draft.root

end Statement

section numbered

variable {passages : List (Nat × List Line)} {n : Nat}

theorem position_ne_zero (hpositions : passages.map Prod.fst = List.range' 1 n) :
    ∀ u ∈ passages, u.1 ≠ 0 := by
  intro u hu hzero
  have hmem := List.mem_map_of_mem (f := Prod.fst) hu
  rw [hpositions, hzero, List.mem_range'] at hmem
  omega

theorem exists_eq_concat {as bs : List (Nat × List Line)} {ls : List Line}
    (hperm : (as ++ (n, ls) :: bs).Perm passages) (hpositions : passages.map Prod.fst = List.range' 1 n) :
    ∃ init, passages = init ++ [(n, ls)] ∧ (as ++ bs).Perm init := by
  have hmem := hperm.subset (List.mem_append_right as List.mem_cons_self)
  obtain ⟨m, rfl⟩ := Nat.exists_eq_succ_of_ne_zero (position_ne_zero hpositions _ hmem)
  rw [List.range'_concat] at hpositions
  obtain ⟨init, last, rfl, hinit, hlast⟩ := List.map_eq_append_iff.mp hpositions
  obtain ⟨u, rfl, -⟩ := List.map_eq_singleton_iff.mp hlast
  obtain rfl : (m.succ, ls) = u := by
    rcases List.mem_append.mp hmem with hmem | hmem
    · have hposition := List.mem_map_of_mem (f := Prod.fst) hmem
      rw [hinit, List.mem_range'] at hposition
      omega
    · exact List.mem_singleton.mp hmem
  exact ⟨init, rfl, (List.perm_middle.symm.trans (hperm.trans (List.perm_append_singleton _ _))).cons_inv⟩

/-- Numbered passages are told apart by their numbers, so they come in one order only. -/
theorem eq_of_numbered {sorted : List (Nat × List Line)} (hsorted : sorted.Pairwise fun a b => a.1 ≤ b.1)
    (hperm : sorted.Perm passages) (hpositions : passages.map Prod.fst = List.range' 1 n) :
    sorted = passages := by
  have hincreasing : passages.Pairwise fun a b => a.1 ≤ b.1 := by
    have hrange := @List.pairwise_le_range' 1 n 1
    rw [← hpositions, List.pairwise_map] at hrange
    exact hrange
  refine hperm.eq_of_pairwise (fun a b ha hb hab hba => ?_) hsorted hincreasing
  refine List.inj_on_of_nodup_map (f := Prod.fst) ?_ (hperm.subset ha) hb (Nat.le_antisymm hab hba)
  rw [hpositions]
  exact List.nodup_range'

end numbered

namespace Document

def Draft.uniform : Draft → List Statement → Bool
  | _, [] => true
  | draft, st :: sts => st.uniform draft && (draft.add? st).any fun draft => draft.uniform sts

structure Draft.Holds (draft : Draft) (sts : List Statement) : Prop where
  regular : draft.root.Regular 0 (draft.headers + 1)
  place : draft.headers = 0 ∧ draft.current = [] ∨
    ∃ heading, heading.position = draft.headers ∧ At heading draft.current draft.root
  passages : ∃ passages, (entriesPassages [] draft.root).Perm passages ∧
    passages.map Prod.fst = List.range' 1 draft.headers ∧
    sts.map Statement.line = (entriesBody [] draft.root).map assignLine ++ passages.flatMap Prod.snd

namespace Draft.Holds

variable {draft draft' : Draft} {sts : List Statement} {path : List Key}

theorem header {array : Bool} {around : Surround} (h : draft.Holds sts)
    (hadd : draft.add? (.header array path around) = some draft')
    (huniform : (Statement.header array path around).uniform draft = true) :
    draft'.Holds (sts ++ [.header array path around]) := by
  obtain ⟨hregular, -, passages, hperm, hpositions, hlines⟩ := h
  have hregular' := add?_regular hadd hregular
  simp only [Draft.add?] at hadd
  split at hadd
  · cases hadd
  · next key hlast =>
    obtain ⟨root, hroot, rfl⟩ := Option.map_eq_some_iff.mp hadd
    obtain ⟨init, rfl⟩ := List.getLast?_eq_some_iff.mp hlast
    rw [List.dropLast_concat] at hroot
    simp only [Statement.uniform, hlast, Option.all_some, List.dropLast_concat] at huniform
    have hopen : Entries.reach? (Entries.openWith array ⟨around, draft.headers + 1⟩ key) init draft.root =
        some root := by
      rw [← hroot]
      cases array <;> rfl
    obtain ⟨hpassages, hbody, hplace⟩ := reach?_added hopen huniform hregular
      (fun u hu => position_ne_zero hpositions u (hperm.subset hu)) (@rfl _ (([] : List Key).map Key.face))
    refine ⟨hregular', Or.inr ⟨_, rfl, hplace⟩, passages ++ [(draft.headers + 1, [_])],
      hpassages.trans (hperm.append_right _), ?_, ?_⟩
    · rw [List.map_append, hpositions, List.range'_concat]
      simp [Nat.add_comm]
    · rw [List.map_append, hlines, List.flatMap_append, hbody, List.append_assoc]
      rfl

theorem assign {e : Expr} (h : draft.Holds sts) (hadd : draft.add? (.assign path e) = some draft')
    (huniform : (Statement.assign path e).uniform draft = true) :
    draft'.Holds (sts ++ [.assign path e]) := by
  obtain ⟨hregular, hplace, passages, hperm, hpositions, hlines⟩ := h
  have hregular' := add?_regular hadd hregular
  obtain ⟨root, hroot, rfl⟩ := Option.map_eq_some_iff.mp hadd
  rcases hplace with ⟨hheaders, hcurrent⟩ | ⟨heading, hheading, hplace⟩
  · -- in front of the first header
    rw [Statement.uniform, hcurrent, Entries.retraced] at huniform
    rw [hcurrent, Entries.reach?] at hroot
    obtain ⟨hbody, hpassages⟩ := assign?_added hroot huniform hregular (@rfl _ (([] : List Key).map Key.face))
    rw [hheaders, List.range'_zero, List.map_eq_nil_iff] at hpositions
    subst hpositions
    refine ⟨hregular', Or.inl ⟨hheaders, hcurrent⟩, [], by rw [hpassages]; exact hperm, ?_, ?_⟩
    · rw [hheaders]
      rfl
    · rw [List.map_append, hlines, hbody]
      simp [assignLine]
  · -- below the last header, whose passage is the last
    obtain ⟨⟨as, ls, bs, hold, hnew⟩, hbody, hplace'⟩ := reach?_continued hplace hroot huniform hregular []
    rw [hold, hheading] at hperm
    rw [hheading] at hnew
    obtain ⟨init, rfl, hrest⟩ := exists_eq_concat hperm hpositions
    refine ⟨hregular', Or.inr ⟨heading, hheading, hplace'⟩,
      init ++ [(draft.headers, ls ++ [assignLine (path, e)])], ?_, ?_, ?_⟩
    · rw [hnew]
      exact List.perm_middle.trans ((hrest.cons _).trans (List.perm_append_singleton _ _).symm)
    · rw [← hpositions, List.map_append, List.map_append]
      rfl
    · rw [List.map_append, hlines, hbody]
      simp [assignLine]

theorem add? {st : Statement} (h : draft.Holds sts) (hadd : draft.add? st = some draft')
    (huniform : st.uniform draft = true) : draft'.Holds (sts ++ [st]) := by
  cases st with
  | header array path around => exact h.header hadd huniform
  | assign path e => exact h.assign hadd huniform

end Draft.Holds

theorem Draft.Holds.uniform {draft : Draft} {sts front : List Statement} (h : draft.Holds front)
    (huniform : draft.uniform sts = true) :
    ∃ draft', sts.foldlM Draft.add? draft = some draft' ∧ draft'.Holds (front ++ sts) := by
  induction sts generalizing draft front with
  | nil => exact ⟨draft, rfl, by rwa [List.append_nil]⟩
  | cons st sts ih =>
    rw [Draft.uniform, Bool.and_eq_true] at huniform
    obtain ⟨hst, hrest⟩ := huniform
    cases hadd : draft.add? st with
    | none => rw [hadd] at hrest; cases hrest
    | some next =>
      rw [hadd, Option.any_some] at hrest
      obtain ⟨draft', hfold, hholds⟩ := ih (h.add? hadd hst) hrest
      refine ⟨draft', ?_, by rwa [List.append_assoc] at hholds⟩
      rw [List.foldlM_cons, hadd]
      exact hfold

theorem blockStatements_line (first : Bool) {blocks : List Block}
    (hquiet : ∀ block ∈ blocks, block.heading = none → block.body = []) :
    (blockStatements first blocks).map Statement.line = (blocks.filterMap Block.passage?).flatMap Prod.snd := by
  induction blocks generalizing first with
  | nil => rfl
  | cons block blocks ih =>
    obtain ⟨hblock, hblocks⟩ := List.forall_mem_cons.mp hquiet
    rw [blockStatements]
    cases hheading : block.heading with
    | some heading =>
      rw [List.filterMap_cons_some (by rw [Block.passage?, hheading]), List.flatMap_cons, ← ih false hblocks]
      simp only [List.map_append, List.map_cons, map_line_assigns]
    | none =>
      have hbody := hblock hheading
      rw [List.filterMap_cons_none (by simp [Block.passage?, hheading, hbody])]
      simp only [hbody, if_true]
      exact ih first hblocks

theorem positioned_heading {last : Nat} {blocks : List Block} {u : Nat × Block}
    (hu : u ∈ positioned last blocks) {heading : Heading} (hheading : u.2.heading = some heading) :
    u.1 = heading.position := by
  induction blocks generalizing last with
  | nil => cases hu
  | cons block blocks ih =>
    rw [positioned] at hu
    rcases List.mem_cons.mp hu with rfl | hu
    · rw [show block.heading = some heading from hheading]
      rfl
    · exact ih hu

theorem passages_inOrder {root : Entries}
    (hquiet : ∀ block ∈ entriesBlocks [] root, block.heading = none → block.body = []) :
    ((ordered root).filterMap Block.passage?).Pairwise fun a b => a.1 ≤ b.1 := by
  have hposition : ∀ u ∈ positioned 0 (entriesBlocks [] root), ∀ passage, u.2.passage? = some passage →
      passage.1 = u.1 := by
    intro u hu passage hpassage
    cases hheading : u.2.heading with
    | some heading =>
      rw [Block.passage?, hheading] at hpassage
      rw [← Option.some.inj hpassage, positioned_heading hu hheading]
    | none =>
      have hbody := hquiet u.2 (mem_of_mem_positioned hu) hheading
      simp [Block.passage?, hheading, hbody] at hpassage
  rw [ordered, List.filterMap_map, List.pairwise_filterMap]
  refine (Sorting.inOrder_byPosition _).imp_of_mem fun {u v} hu hv hle a ha b hb => ?_
  rw [hposition u (Sorting.mem_sort.mp hu) a ha, hposition v (Sorting.mem_sort.mp hv) b hb]
  exact hle

/-- A tree whose passages are at different positions is written in their order. -/
theorem statements_line {doc : Document} {passages : List (Nat × List Line)} {n : Nat}
    (hperm : (entriesPassages [] doc.root).Perm passages)
    (hpositions : passages.map Prod.fst = List.range' 1 n) :
    doc.statements.map Statement.line =
      (entriesBody [] doc.root).map assignLine ++ passages.flatMap Prod.snd := by
  have hquiet : ∀ block ∈ entriesBlocks [] doc.root, block.heading = none → block.body = [] := by
    intro block hblock hheading
    by_contra hbody
    refine position_ne_zero hpositions (0, block.body.map assignLine) (hperm.subset ?_) rfl
    exact List.mem_filterMap.mpr ⟨block, hblock, by simp [Block.passage?, hheading, hbody]⟩
  have heq := eq_of_numbered (passages_inOrder hquiet)
    (((ordered_perm doc.root).filterMap Block.passage?).trans hperm) hpositions
  rw [statements, List.map_append, map_line_assigns, blockStatements_line, heq]
  intro block hblock
  obtain ⟨u, hu, rfl⟩ := List.mem_map.mp hblock
  exact hquiet u.2 (mem_of_mem_positioned (Sorting.mem_sort.mp hu))

end Document

/-- The headers and dotted keys of a text come back to a table only as the table spells them. -/
def Uniform (s : Text) : Prop :=
  (Statement.readAll? s).any (fun result => Document.Draft.empty.uniform result.1) = true

instance (s : Text) : Decidable (Uniform s) := inferInstanceAs (Decidable (_ = true))

/-- Uniform statements are written by the tree that they build. -/
theorem Document.ofStatements?_uniform {sts : List Statement} (h : Draft.empty.uniform sts = true) :
    ∃ root, ofStatements? sts = some root ∧ ∀ trail,
      (Document.mk root trail).statements.map Statement.line = sts.map Statement.line := by
  have hstart : Draft.empty.Holds [] :=
    ⟨Entries.regular_nil, Or.inl ⟨rfl, rfl⟩, [], .refl _, rfl, rfl⟩
  obtain ⟨draft, hfold, hholds⟩ := hstart.uniform h
  obtain ⟨passages, hperm, hpositions, hlines⟩ := hholds.passages
  refine ⟨draft.root, by rw [ofStatements?, hfold]; rfl, fun trail => ?_⟩
  rw [statements_line hperm hpositions, ← hlines]
  rfl

end DeploymentRecords.Toml
