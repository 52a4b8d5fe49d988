import DeploymentRecords.Proofs.RegularTree
import DeploymentRecords.Proofs.StatementReading

/-! # Sound trees

The layout in the tree of a document: its keys, headings and expressions are written so that they
read back, and no path is too long for its reader. -/

namespace DeploymentRecords.Toml

def Heading.Sound (heading : Heading) : Prop := Gap heading.around.before ∧ Trail heading.around.after

def Key.Middle (key : Key) : Prop := key.Sound ∧ key.outer = none

/-- Remarks stand above a key only where a line begins with its path. -/
def Key.Fits (key : Key) : Member → Prop
  | .expr _ => key.Sound ∧ Around Gap Spaces key.outer
  | _ => key.Sound ∧ Around Spaces Spaces key.outer

def TableKind.bodyDepth (body : Nat) : TableKind → Nat
  | .dotted => body + 1
  | _ => 0

namespace Member

mutual

/-- Soundness below `depth` keys of headers and, in the body around, `body` dotted keys. -/
def Sound (depth body : Nat) : Member → Prop
  | .expr e =>
    body + 1 < Key.maxPath ∧ e.Sound Expr.maxDepth 0 ∧ Around Spaces Trail e.around
  | .table kind entries =>
    (kind ≠ .dotted → depth + 1 < Key.maxPath) ∧
      (∀ heading, kind = .headed heading → heading.Sound) ∧
      EntriesSound (depth + 1) (kind.bodyDepth body) entries
  | .tables elements => depth + 1 < Key.maxPath ∧ ElementsSound (depth + 1) elements

def EntriesSound (depth body : Nat) : List (Key × Member) → Prop
  | [] => True
  | (key, member) :: entries =>
    (key.Fits member ∧ member.Sound depth body) ∧ EntriesSound depth body entries

def ElementsSound (depth : Nat) : List (Heading × List (Key × Member)) → Prop
  | [] => True
  | (heading, entries) :: elements =>
    (heading.Sound ∧ EntriesSound depth 0 entries) ∧ ElementsSound depth elements

end

end Member

def Entries.Sound (depth body : Nat) (entries : Entries) : Prop :=
  ∀ p ∈ entries, p.1.Fits p.2 ∧ p.2.Sound depth body

theorem Member.entriesSound_iff {depth body : Nat} {entries : Entries} :
    EntriesSound depth body entries ↔ entries.Sound depth body := by
  induction entries with
  | nil => simp [EntriesSound, Entries.Sound]
  | cons p entries ih => rw [EntriesSound, ih, Entries.Sound, Entries.Sound, List.forall_mem_cons]

theorem Member.elementsSound_iff {depth : Nat} {elements : List (Heading × Entries)} :
    ElementsSound depth elements ↔
      ∀ element ∈ elements, element.1.Sound ∧ element.2.Sound depth 0 := by
  induction elements with
  | nil => simp [ElementsSound]
  | cons element elements ih =>
    rw [ElementsSound, ih, List.forall_mem_cons, entriesSound_iff]

namespace Entries

variable {depth body : Nat} {entries : Entries} {member old : Member} {key : Key} {name : Text}

theorem sound_nil : Sound depth body [] := by
  simp [Sound]

theorem Sound.append (h : entries.Sound depth body) (hkey : key.Fits member)
    (hmember : member.Sound depth body) : Sound depth body (entries ++ [(key, member)]) := by
  rw [Sound, List.forall_mem_append, List.forall_mem_singleton]
  exact ⟨h, hkey, hmember⟩

theorem Sound.of_get? (h : entries.Sound depth body) (hget : entries.get? name = some member) :
    member.Sound depth body := by
  obtain ⟨key, hmem, -⟩ := exists_mem_of_get? hget
  exact (h _ hmem).2

theorem Sound.replace (h : entries.Sound depth body) (hnodup : (names entries).Nodup)
    (hget : entries.get? name = some old) (hkey : ∀ key : Key, key.Fits old → key.Fits member)
    (hmember : member.Sound depth body) : Sound depth body (entries.replace name member) := by
  intro p hp
  rcases mem_replace hp with ⟨hold, -⟩ | ⟨hnew, hname, other, hother⟩
  · exact h p hold
  · have hsame := get?_of_mem hnodup hother
    rw [hname, hget] at hsame
    rw [hnew]
    exact ⟨hkey _ (Option.some.inj hsame ▸ (h _ hother).1), hmember⟩

end Entries

section steps

variable {depth body : Nat} {entries new : Entries} {key : Key} {path : List Key} {lo hi : Nat}

theorem Opens.sound {heading : Heading} (h : Opens heading key entries new) (hheading : heading.Sound)
    (hkey : key.Sound ∧ Around Spaces Spaces key.outer) (hdepth : depth + 1 < Key.maxPath)
    (hregular : entries.Regular lo hi) (hentries : entries.Sound depth body) :
    new.Sound depth body := by
  have hheaded : ∀ sub : Entries, sub.Sound (depth + 1) 0 →
      (Member.table (.headed heading) sub).Sound depth body := by
    intro sub hsub
    refine ⟨fun _ => hdepth, ?_, Member.entriesSound_iff.mpr hsub⟩
    rintro other ⟨⟩
    exact hheading
  cases h with
  | table hget => exact hentries.append hkey (hheaded [] Entries.sound_nil)
  | @complete sub hget =>
    refine Entries.Sound.append (fun p hp => hentries p (Entries.mem_erase.mp hp).1) hkey ?_
    exact hheaded sub (Member.entriesSound_iff.mp (hentries.of_get? hget).2.2)
  | array hget =>
    exact hentries.append hkey ⟨hdepth, ⟨hheading, trivial⟩, trivial⟩
  | element hget =>
    have hold := (hentries.of_get? hget).2
    rw [Member.elementsSound_iff] at hold
    refine hentries.replace hregular.nodup hget (fun _ hfits => hfits) ⟨hdepth, ?_⟩
    rw [Member.elementsSound_iff, List.forall_mem_append, List.forall_mem_singleton]
    exact ⟨hold, hheading, Entries.sound_nil⟩

theorem Assigns.sound {e : Expr} {direct : Bool} (h : Assigns e direct path entries new)
    (hpath : Key.Settled Gap path) (hlength : body + path.length < Key.maxPath)
    (he : e.Sound Expr.maxDepth 0) (haround : Around Spaces Trail e.around)
    (hregular : entries.Regular lo hi) (hentries : entries.Sound depth body) :
    new.Sound depth body := by
  induction h generalizing depth body lo hi with
  | @leaf entries key hget =>
    obtain ⟨last, before, after, hlast, houter, hbefore, hafter⟩ := hpath.last
    obtain rfl : key = last := by simpa using hlast
    refine hentries.append ⟨hpath.sound key List.mem_cons_self, ?_⟩ ⟨hlength, he, haround⟩
    intro a ha
    rw [houter] at ha
    cases ha
    exact ⟨hbefore, hafter⟩
  | @fresh direct entries sub key path hget hsub ih =>
    obtain ⟨next, path, rfl⟩ : ∃ next rest, path = next :: rest := by
      cases hsub <;> exact ⟨_, _, rfl⟩
    obtain ⟨hkey, houter, htail⟩ := hpath.tail
    refine hentries.append ⟨hkey, by simp [Around, houter]⟩ ⟨fun hkind => absurd rfl hkind, by simp, ?_⟩
    refine Member.entriesSound_iff.mpr (ih htail ?_ (Entries.regular_nil : Entries.Regular lo hi [])
      Entries.sound_nil)
    simp only [List.length_cons, TableKind.bodyDepth] at hlength ⊢
    omega
  | @table direct direct' entries old sub key path kind hget hkind hsub ih =>
    obtain ⟨next, path, rfl⟩ : ∃ next rest, path = next :: rest := by
      cases hsub <;> exact ⟨_, _, rfl⟩
    obtain ⟨-, -, htail⟩ := hpath.tail
    obtain ⟨hdepth, hheading, hold⟩ := hentries.of_get? hget
    refine hentries.replace hregular.nodup hget (fun _ hfits => hfits) ⟨hdepth, hheading, ?_⟩
    refine Member.entriesSound_iff.mpr (ih htail ?_ (hregular.of_get? hget).entries
      (Member.entriesSound_iff.mp hold))
    simp only [List.length_cons] at hlength ⊢
    cases kind <;> simp only [TableKind.bodyDepth] <;> omega
  | @element direct entries old sub key path heading front hget hsub ih =>
    obtain ⟨next, path, rfl⟩ : ∃ next rest, path = next :: rest := by
      cases hsub <;> exact ⟨_, _, rfl⟩
    obtain ⟨-, -, htail⟩ := hpath.tail
    obtain ⟨hdepth, hold⟩ := hentries.of_get? hget
    rw [Member.elementsSound_iff, List.forall_mem_append, List.forall_mem_singleton] at hold
    refine hentries.replace hregular.nodup hget (fun _ hfits => hfits) ⟨hdepth, ?_⟩
    rw [Member.elementsSound_iff, List.forall_mem_append, List.forall_mem_singleton]
    refine ⟨hold.1, hold.2.1, ih htail ?_ (hregular.of_get? hget).2.last.2.1 hold.2.2⟩
    simp only [List.length_cons] at hlength ⊢
    omega

def Opened : List Key → Entries → Prop
  | [], _ => True
  | key :: path, entries =>
    match entries.get? key.name with
    | some (.table kind sub) => (path = [] → ∃ heading, kind = .headed heading) ∧ Opened path sub
    | some (.tables elements) =>
      ∃ front heading sub, elements = front ++ [(heading, sub)] ∧ Opened path sub
    | _ => False

/-- A change that keeps the table at the end of a path sound; no dotted key is above the body of
an opened table. -/
theorem Reached.sound {change : Entries → Entries → Prop} (good : Nat → Prop) {total : Nat}
    (htotal : total < Key.maxPath) (hgood : good 0)
    (hchange : ∀ {body lo hi entries new}, good body → entries.Regular lo hi →
      entries.Sound total body → change entries new → new.Sound total body)
    (h : Reached change path entries new) (hdepth : depth + path.length = total)
    (hpath : ((∀ key ∈ path, key.Middle) ∧ ∀ body, good body) ∨
      Opened path entries ∧ (path = [] → good body))
    (hregular : entries.Regular lo hi) (hentries : entries.Sound depth body) :
    new.Sound depth body := by
  -- along the path: at its end the change is sound, above it one member takes the place of another
  induction h generalizing depth body lo hi with
  | here h =>
    obtain rfl : depth = total := hdepth
    exact hchange (hpath.elim (fun hall => hall.2 body) fun hend => hend.2 rfl) hregular hentries h
  | @fresh entries sub key path hget _ ih =>
    rw [List.length_cons] at hdepth
    rcases hpath with ⟨hmiddle, hall⟩ | ⟨hopened, -⟩
    · obtain ⟨hkey, hrest⟩ := List.forall_mem_cons.mp hmiddle
      refine hentries.append ⟨hkey.1, by simp [Around, hkey.2]⟩ ⟨fun _ => by omega, by simp, ?_⟩
      exact Member.entriesSound_iff.mpr (ih (by omega) (Or.inl ⟨hrest, hall⟩)
        (Entries.regular_nil : Entries.Regular lo hi []) Entries.sound_nil)
    · rw [Opened, hget] at hopened
      exact hopened.elim
  | @table entries old sub key path kind hget _ ih =>
    rw [List.length_cons] at hdepth
    obtain ⟨hkind, hheading, hold⟩ := hentries.of_get? hget
    refine hentries.replace hregular.nodup hget (fun _ hfits => hfits) ⟨hkind, hheading, ?_⟩
    refine Member.entriesSound_iff.mpr (ih (by omega) ?_ (hregular.of_get? hget).entries
      (Member.entriesSound_iff.mp hold))
    rcases hpath with ⟨hmiddle, hall⟩ | ⟨hopened, -⟩
    · exact Or.inl ⟨(List.forall_mem_cons.mp hmiddle).2, hall⟩
    · rw [Opened, hget] at hopened
      refine Or.inr ⟨hopened.2, fun hnil => ?_⟩
      obtain ⟨heading, rfl⟩ := hopened.1 hnil
      exact hgood
  | @element entries old sub key path heading front hget _ ih =>
    rw [List.length_cons] at hdepth
    obtain ⟨hshort, hold⟩ := hentries.of_get? hget
    rw [Member.elementsSound_iff, List.forall_mem_append, List.forall_mem_singleton] at hold
    refine hentries.replace hregular.nodup hget (fun _ hfits => hfits) ⟨hshort, ?_⟩
    rw [Member.elementsSound_iff, List.forall_mem_append, List.forall_mem_singleton]
    refine ⟨hold.1, hold.2.1, ih (by omega) ?_ (hregular.of_get? hget).2.last.2.1 hold.2.2⟩
    rcases hpath with ⟨hmiddle, hall⟩ | ⟨hopened, -⟩
    · exact Or.inl ⟨(List.forall_mem_cons.mp hmiddle).2, hall⟩
    · rw [Opened, hget] at hopened
      obtain ⟨front', heading', sub', hsplit, hsub⟩ := hopened
      obtain ⟨-, hlast⟩ := List.append_inj' hsplit rfl
      obtain ⟨rfl, rfl⟩ := Prod.mk.inj (List.cons.inj hlast).1
      exact Or.inr ⟨hsub, fun _ => hgood⟩

theorem Opens.opened {heading : Heading} (h : Opens heading key entries new) : Opened [key] new := by
  cases h with
  | table hget =>
    rw [Opened, Entries.get?_append, hget, Entries.get?_cons, if_pos rfl]
    exact ⟨fun _ => ⟨heading, rfl⟩, trivial⟩
  | complete hget =>
    rw [Opened, Entries.get?_append, Entries.get?_erase, if_pos rfl, Entries.get?_cons, if_pos rfl]
    exact ⟨fun _ => ⟨heading, rfl⟩, trivial⟩
  | array hget =>
    rw [Opened, Entries.get?_append, hget, Entries.get?_cons, if_pos rfl]
    exact ⟨[], heading, [], rfl, trivial⟩
  | element hget =>
    rw [Opened, Entries.get?_replace, if_pos rfl, hget]
    exact ⟨_, heading, [], rfl, trivial⟩

theorem Reached.opened {change : Entries → Entries → Prop}
    (hchange : ∀ {entries new}, change entries new → Opened [key] new)
    (h : Reached change path entries new) : Opened (path ++ [key]) new := by
  induction h with
  | here h => exact hchange h
  | fresh hget _ ih =>
    rw [List.cons_append, Opened, Entries.get?_append, hget, Entries.get?_cons, if_pos rfl]
    exact ⟨by simp, ih⟩
  | table hget _ ih =>
    rw [List.cons_append, Opened, Entries.get?_replace, if_pos rfl, hget]
    exact ⟨by simp, ih⟩
  | element hget _ ih =>
    rw [List.cons_append, Opened, Entries.get?_replace, if_pos rfl, hget]
    exact ⟨_, _, _, rfl, ih⟩

theorem Reached.still_opened {change : Entries → Entries → Prop} (h : Reached change path entries new)
    (hopened : Opened path entries) : Opened path new := by
  induction h with
  | here h => trivial
  | fresh hget _ ih =>
    rw [Opened, hget] at hopened
    exact hopened.elim
  | table hget _ ih =>
    rw [Opened, hget] at hopened
    rw [Opened, Entries.get?_replace, if_pos rfl, hget]
    exact ⟨hopened.1, ih hopened.2⟩
  | element hget _ ih =>
    rw [Opened, hget] at hopened
    obtain ⟨front', heading', sub', hsplit, hsub⟩ := hopened
    obtain ⟨-, hlast⟩ := List.append_inj' hsplit rfl
    obtain ⟨rfl, rfl⟩ := Prod.mk.inj (List.cons.inj hlast).1
    rw [Opened, Entries.get?_replace, if_pos rfl, hget]
    exact ⟨_, _, _, rfl, ih hsub⟩

end steps

namespace Document

structure Draft.Sound (draft : Draft) : Prop where
  regular : draft.root.Regular 0 (draft.headers + 1)
  entries : draft.root.Sound 0 0
  opened : Opened draft.current draft.root
  short : draft.current.length < Key.maxPath

theorem Draft.Sound.add? {draft draft' : Draft} (h : draft.Sound) {st : Statement} (hst : st.Kept)
    (hadd : draft.add? st = some draft') : draft'.Sound := by
  rcases add?_cases hadd with ⟨array, init, key, around, rfl, hcurrent, -, hreached⟩ |
    ⟨path, e, rfl, hcurrent, -, hreached⟩
  · obtain ⟨hsettled, hlength, haround⟩ := hst
    rw [List.length_append, List.length_singleton] at hlength
    have hkey : key.Sound ∧ Around Spaces Spaces key.outer := by
      obtain ⟨last, before, after, hlast, houter, hbefore, hafter⟩ := hsettled.last
      obtain rfl : key = last := by simpa using hlast
      refine ⟨hsettled.sound key (by simp), fun a ha => ?_⟩
      rw [houter] at ha
      cases ha
      exact ⟨hbefore, hafter⟩
    have hmiddle : ∀ k ∈ init, k.Middle := fun k hk =>
      ⟨hsettled.sound k (List.mem_append_left _ hk), hsettled.middle k (by simpa using hk)⟩
    refine ⟨add?_regular hadd h.regular, ?_, ?_, ?_⟩
    · exact hreached.sound (fun _ => True) (by omega : init.length < Key.maxPath) trivial
        (fun _ hregular hentries hopens => hopens.sound haround hkey hlength hregular hentries)
        (Nat.zero_add _) (Or.inl ⟨hmiddle, fun _ => trivial⟩) h.regular h.entries
    · rw [hcurrent]
      exact hreached.opened fun hopens => hopens.opened
    · rw [hcurrent, List.length_append, List.length_singleton]
      exact hlength
  · obtain ⟨hsettled, hlength, he, haround⟩ := hst
    refine ⟨add?_regular hadd h.regular, ?_, ?_, ?_⟩
    · exact hreached.sound (fun body => body = 0) h.short rfl
        (fun hbody hregular hentries hassigns => hassigns.sound hsettled (by omega) he haround
          hregular hentries) (Nat.zero_add _) (Or.inr ⟨h.opened, fun _ => rfl⟩) h.regular h.entries
    · rw [hcurrent]
      exact hreached.still_opened h.opened
    · rw [hcurrent]
      exact h.short

/-- The tree of a document that was read is regular and sound. -/
theorem sound_ofStatements? {sts : List Statement} (hsts : ∀ st ∈ sts, st.Kept) {root : Entries}
    (h : ofStatements? sts = some root) : (∃ hi, root.Regular 0 hi) ∧ root.Sound 0 0 := by
  obtain ⟨draft, hdraft, rfl⟩ := Option.map_eq_some_iff.mp h
  have hstart : Draft.empty.Sound :=
    ⟨Entries.regular_nil, Entries.sound_nil, trivial, by decide⟩
  have hsound := foldlM_add?_invariant Draft.Sound
    (fun st hst _ _ hadd hinv => hinv.add? (hsts st hst) hadd) hdraft hstart
  exact ⟨⟨_, hsound.regular⟩, hsound.entries⟩

end Document

end DeploymentRecords.Toml
