import DeploymentRecords.Proofs.RegularTree
import DeploymentRecords.Proofs.TreeOps
import Mathlib.Tactic.Choose
import Mathlib.Tactic.Push

/-! # Rebuilding a tree from what it writes

The statements of a regular tree build its outline anew just if the tree is ordered: a table of
dotted keys with a value of its own must be written before any header below it. -/

namespace DeploymentRecords.Toml

open Sorting

namespace Member

/-- A block that is written: it has a header of its own or a body that needs one. -/
def Block.Printed (block : Block) : Prop := block.heading ≠ none ∨ block.body ≠ []

mutual

/-- The body around the member is written at the position `held`, and the header before it stands
at the position `last`: no header below a table of dotted keys is written before a value that
stands in this table directly. -/
def Ordered (held last : Nat) : Member → Prop
  | .expr _ => True
  | .table .dotted entries =>
    ((∃ p ∈ entries, ∃ e, p.2 = .expr e) →
      ∀ u ∈ Document.positioned last (entriesBlocks [] entries), u.2.Printed → held ≤ u.1) ∧
      EntriesOrdered held last entries
  | .table .implied entries => EntriesOrdered last last entries
  | .table (.headed heading) entries => EntriesOrdered heading.position heading.position entries
  | .tables elements => ElementsOrdered elements

def EntriesOrdered (held last : Nat) : List (Key × Member) → Prop
  | [] => True
  | (_, member) :: entries =>
    member.Ordered held last ∧ EntriesOrdered held (endOf last (member.blocks [])) entries

def ElementsOrdered : List (Heading × List (Key × Member)) → Prop
  | [] => True
  | (heading, entries) :: elements =>
    EntriesOrdered heading.position heading.position entries ∧ ElementsOrdered elements

end

instance (block : Block) : Decidable block.Printed :=
  inferInstanceAs (Decidable (block.heading ≠ none ∨ block.body ≠ []))

instance : (member : Member) → Decidable (∃ e, member = .expr e)
  | .expr e => isTrue ⟨e, rfl⟩
  | .table _ _ => isFalse (by rintro ⟨_, ⟨⟩⟩)
  | .tables _ => isFalse (by rintro ⟨_, ⟨⟩⟩)

mutual

def decidableOrdered (held last : Nat) : (member : Member) → Decidable (member.Ordered held last)
  | .expr _ => isTrue trivial
  | .table .dotted entries => @instDecidableAnd _ _ inferInstance (decidableEntriesOrdered held last entries)
  | .table .implied entries => decidableEntriesOrdered last last entries
  | .table (.headed heading) entries =>
    decidableEntriesOrdered heading.position heading.position entries
  | .tables elements => decidableElementsOrdered elements

def decidableEntriesOrdered (held last : Nat) :
    (entries : List (Key × Member)) → Decidable (EntriesOrdered held last entries)
  | [] => isTrue trivial
  | (_, member) :: entries => @instDecidableAnd _ _ (decidableOrdered held last member)
    (decidableEntriesOrdered held (endOf last (member.blocks [])) entries)

def decidableElementsOrdered :
    (elements : List (Heading × List (Key × Member))) → Decidable (ElementsOrdered elements)
  | [] => isTrue trivial
  | (heading, entries) :: elements => @instDecidableAnd _ _
    (decidableEntriesOrdered heading.position heading.position entries)
    (decidableElementsOrdered elements)

end

theorem endOf_append (last : Nat) (as bs : List Block) :
    endOf last (as ++ bs) = endOf (endOf last as) bs := List.foldl_append

theorem endOf_under (path : List Key) (last : Nat) (blocks : List Block) :
    endOf last (blocks.map (Block.under path)) = endOf last blocks := by
  simp only [endOf, List.foldl_map]
  rfl

theorem entriesOrdered_iff {held last : Nat} {entries : Entries} :
    EntriesOrdered held last entries ↔ ∀ front p back, entries = front ++ p :: back →
      p.2.Ordered held (endOf last (entriesBlocks [] front)) := by
  induction entries generalizing last with
  | nil => simp [EntriesOrdered]
  | cons q entries ih =>
    rw [EntriesOrdered, ih]
    constructor
    · rintro ⟨hq, hrest⟩ front p back h
      cases front with
      | nil =>
        obtain ⟨rfl, -⟩ := List.cons.inj h
        exact hq
      | cons r front =>
        rw [List.cons_append] at h
        obtain ⟨rfl, hsplit⟩ := List.cons.inj h
        rw [entriesBlocks_cons, endOf_append, endOf_under]
        exact hrest front p back hsplit
    · intro h
      refine ⟨h [] q entries rfl, fun front p back hsplit => ?_⟩
      have := h (q :: front) p back (by rw [hsplit]; rfl)
      rwa [entriesBlocks_cons, endOf_append, endOf_under] at this

theorem Block.own_ne_nil {block : Block} : block.own ≠ [] ↔ block.Printed := by
  rw [ne_eq, Block.own_eq_nil, Classical.not_and_iff_not_or_not]
  rfl

def Idle (member : Member) : Prop := member.deeds = [] ∧ ∀ block ∈ member.blocks [], block.own = []

def EntriesIdle (entries : Entries) : Prop :=
  bodyOps entries = [] ∧ ∀ block ∈ entriesBlocks [] entries, block.own = []

theorem EntriesIdle.member {entries : Entries} (h : EntriesIdle entries) :
    ∀ p ∈ entries, p.2.Idle := by
  obtain ⟨hbody, hblocks⟩ := h
  intro p hp
  constructor
  · rw [bodyOps_eq, List.flatMap_eq_nil_iff] at hbody
    exact List.map_eq_nil_iff.mp (hbody p hp)
  · intro block hblock
    rw [entriesBlocks_eq] at hblocks
    have := hblocks (block.under [p.1])
      (List.mem_flatMap.mpr ⟨p, hp, List.mem_map_of_mem hblock⟩)
    rwa [Block.own_under] at this

theorem assignOps_eq_nil {entries : Entries} (h : entriesBody [] entries = []) :
    bodyOps entries = [] := by
  rw [bodyOps, h]
  rfl

theorem Regular.not_idle {lo hi : Nat} {member : Member} (h : member.Regular lo hi) :
    ¬ member.Idle := by
  induction member using Member.induct generalizing lo hi with
  | hexpr e =>
    rintro ⟨hdeeds, -⟩
    cases hdeeds
  | htable kind entries ih =>
    rintro ⟨hdeeds, hblocks⟩
    obtain ⟨-, hempty, -, hentries⟩ := h
    rw [entriesRegular_iff] at hentries
    have hidle : EntriesIdle entries → entries = [] := by
      intro hidle
      by_contra hne
      obtain ⟨p, rest, rfl⟩ := List.exists_cons_of_ne_nil hne
      exact ih p List.mem_cons_self (hentries p List.mem_cons_self)
        (hidle.member p List.mem_cons_self)
    cases kind with
    | headed heading =>
      rw [blocks, List.forall_mem_cons, Block.own_eq_nil] at hblocks
      cases hblocks.1.1
    | implied =>
      rw [blocks, List.forall_mem_cons, Block.own_eq_nil] at hblocks
      obtain ⟨heading, hheading⟩ := hempty (hidle ⟨assignOps_eq_nil hblocks.1.2, hblocks.2⟩)
      cases hheading
    | dotted =>
      rw [deeds_dotted, List.map_eq_nil_iff] at hdeeds
      obtain ⟨heading, hheading⟩ := hempty (hidle ⟨hdeeds, hblocks⟩)
      cases hheading
  | htables elements ih =>
    rintro ⟨-, hblocks⟩
    obtain ⟨⟨heading, entries⟩, rest, rfl⟩ := List.exists_cons_of_ne_nil h.1
    rw [blocks, elementBlocks, List.cons_append, List.forall_mem_cons, Block.own_eq_nil] at hblocks
    cases hblocks.1.1

theorem entriesHeadings {lo hi : Nat} {entries : Entries}
    (h : ∀ p ∈ entries, ∀ block ∈ p.2.blocks [], ∀ heading, block.heading = some heading →
      lo ≤ heading.position ∧ heading.position < hi) :
    ∀ block ∈ entriesBlocks [] entries, ∀ heading, block.heading = some heading →
      lo ≤ heading.position ∧ heading.position < hi := by
  intro block hblock heading hheading
  obtain ⟨p, hp, inner, hinner, rfl⟩ := exists_under_of_mem hblock
  exact h p hp inner hinner heading hheading

theorem Regular.headings {lo hi : Nat} {member : Member} (h : member.Regular lo hi) :
    ∀ block ∈ member.blocks [], ∀ heading, block.heading = some heading →
      lo ≤ heading.position ∧ heading.position < hi := by
  induction member using Member.induct generalizing lo hi with
  | hexpr e => exact fun _ hblock => (by cases hblock)
  | htable kind entries ih =>
    obtain ⟨hkind, -, -, hentries⟩ := h
    rw [entriesRegular_iff] at hentries
    have hrest := entriesHeadings fun p hp => ih p hp (hentries p hp)
    cases kind with
    | headed heading =>
      rw [blocks, List.forall_mem_cons]
      refine ⟨fun other hother => ?_, hrest⟩
      obtain rfl := Option.some.inj hother
      exact hkind _ rfl
    | implied =>
      rw [blocks, List.forall_mem_cons]
      exact ⟨fun _ hother => (by cases hother), hrest⟩
    | dotted => exact hrest
  | htables elements ih =>
    rw [blocks]
    have helements := h.2
    clear h
    -- each element begins where the one before it has ended
    induction elements generalizing lo with
    | nil => exact fun _ hblock => (by cases hblock)
    | cons element elements ihs =>
      obtain ⟨heading, entries⟩ := element
      obtain ⟨mid, hlo, hmid, hhi, -, hentries, hrest⟩ := helements
      rw [entriesRegular_iff] at hentries
      rw [List.forall_mem_cons] at ih
      have hfirst := entriesHeadings fun p hp => ih.1 p hp (hentries p hp)
      have hlater := ihs ih.2 hrest
      rw [elementBlocks, List.cons_append, List.forall_mem_cons, List.forall_mem_append]
      refine ⟨fun other hother => ?_, fun block hblock other hother => ?_,
        fun block hblock other hother => ?_⟩
      · obtain rfl := Option.some.inj hother
        exact ⟨hlo, Nat.lt_of_lt_of_le hmid hhi⟩
      · have := hfirst block hblock other hother
        omega
      · have := hlater block hblock other hother
        omega

theorem position_mem {last : Nat} {blocks : List Block} {u : Nat × Block}
    (h : u ∈ Document.positioned last blocks) : u.1 = last ∨
      ∃ block ∈ blocks, ∃ heading, block.heading = some heading ∧ u.1 = heading.position := by
  induction blocks generalizing last with
  | nil => cases h
  | cons block blocks ih =>
    have hfirst : (block.heading.map Heading.position).getD last = last ∨
        ∃ heading, block.heading = some heading ∧
          (block.heading.map Heading.position).getD last = heading.position := by
      cases block.heading with
      | none => exact Or.inl rfl
      | some heading => exact Or.inr ⟨heading, rfl, rfl⟩
    have hposition : ∀ n, n = (block.heading.map Heading.position).getD last → n = last ∨
        ∃ other ∈ block :: blocks, ∃ heading, other.heading = some heading ∧ n = heading.position := by
      rintro n rfl
      rcases hfirst with hlast | ⟨heading, hheading, he⟩
      · exact Or.inl hlast
      · exact Or.inr ⟨block, List.mem_cons_self, heading, hheading, he⟩
    rw [Document.positioned] at h
    rcases List.mem_cons.mp h with rfl | h
    · exact hposition _ rfl
    · rcases ih h with hlast | ⟨other, hother, heading, hheading, he⟩
      · exact hposition _ hlast
      · exact Or.inr ⟨other, List.mem_cons_of_mem _ hother, heading, hheading, he⟩

def blockUnits (last : Nat) (entries : Entries) : List (Nat × List Op) :=
  (Document.positioned last (entriesBlocks [] entries)).map fun u => (u.1, u.2.ops)

def early (held last : Nat) (entries : Entries) : List Op :=
  schedule ((blockUnits last entries).filter fun u => decide (u.1 < held))

def late (held last : Nat) (entries : Entries) : List Op :=
  schedule ((blockUnits last entries).filter fun u => decide (held ≤ u.1))

theorem schedule_entriesUnits (held last : Nat) (entries : Entries) :
    schedule (entriesUnits held last entries) =
      early held last entries ++ (bodyOps entries ++ late held last entries) :=
  schedule_cons held (bodyOps entries) (blockUnits last entries)

theorem deedUnits_eq (last : Nat) (entries : Entries) :
    ((Document.positioned last (entriesBlocks [] entries)).map fun u => (u.1, u.2.deeds)) =
      (blockUnits last entries).map fun u => (u.1, u.2.map insideOf) := by
  rw [blockUnits, List.map_map]
  refine List.map_congr_left fun u hu => ?_
  obtain ⟨p, -, inner, -, hinner⟩ := exists_under_of_mem (mem_of_mem_positioned hu)
  rw [Function.comp_apply, hinner, Block.deeds_under]

theorem schedule_header (n : Nat) (array : Bool) (entries : Entries) :
    schedule ((n, .header array :: (bodyOps entries).map insideOf) ::
        (blockUnits n entries).map fun u => (u.1, u.2.map insideOf)) =
      (early n n entries).map insideOf ++ .header array ::
        (bodyOps entries ++ late n n entries).map insideOf := by
  rw [schedule_cons_map, List.map_append]
  rfl

theorem runSlot?_header (as bs : List Op) :
    runSlot? (as.map insideOf ++ .header false :: bs.map insideOf) none =
      (Outlines.empty.run? (as ++ bs)).map fun t => some (.table .headed t) := by
  by_cases has : as = []
  · subst has
    rw [List.map_nil, List.nil_append, runSlot?_cons, List.nil_append]
    exact runSlot?_inside .headed bs Outlines.empty
  · rw [runSlot?_append, runSlot?_inside_none has, Outlines.run?_append]
    cases Outlines.empty.run? as with
    | none => rfl
    | some t =>
      rw [Option.map_some, Option.bind_some, Option.bind_some, runSlot?_cons]
      exact runSlot?_inside .headed bs t

theorem runSlot?_dotted (as cs : List Op) {bs : List Op} (hbs : ∀ op ∈ bs, op.2.IsAssign)
    (hne : as ++ (bs ++ cs) ≠ [])
    (hdirect : as = [] ∨ ∀ op ∈ bs, ∃ y path v, op.2 = .assign (y :: path) v) :
    ∃ origin, runSlot? (as.map insideOf ++ (bs.map prolongOf ++ cs.map insideOf)) none =
      (Outlines.empty.run? (as ++ (bs ++ cs))).map fun t => some (.table origin t) := by
  by_cases has : as = []
  · subst has
    rw [List.map_nil, List.nil_append, List.nil_append]
    rw [List.nil_append] at hne
    by_cases hb : bs = []
    · subst hb
      exact ⟨.implied, runSlot?_inside_none hne⟩
    · refine ⟨.dotted, ?_⟩
      rw [runSlot?_append, runSlot?_prolong_none hb hbs, Outlines.run?_append]
      cases Outlines.empty.run? bs with
      | none => rfl
      | some t => exact runSlot?_inside .dotted cs t
  · refine ⟨.implied, ?_⟩
    rw [runSlot?_append, runSlot?_inside_none has, Outlines.run?_append]
    cases Outlines.empty.run? as with
    | none => rfl
    | some t =>
      rw [Option.map_some, Option.bind_some, Option.bind_some, runSlot?_append,
        runSlot?_prolong_implied (hdirect.resolve_left has), Outlines.run?_append]
      cases t.run? bs with
      | none => rfl
      | some t => exact runSlot?_inside .implied cs t

theorem runSlot?_dotted_eq_none {as bs cs : List Op} (hbs : ∀ op ∈ bs, op.2.IsAssign)
    (has : as ≠ []) (hleaf : ∃ op ∈ bs, ∃ v, op.2 = .assign [] v) :
    runSlot? (as.map insideOf ++ (bs.map prolongOf ++ cs.map insideOf)) none = none := by
  rw [runSlot?_append, runSlot?_inside_none has]
  cases Outlines.empty.run? as with
  | none => rfl
  | some t =>
    rw [Option.map_some, Option.bind_some, runSlot?_append, runSlot?_prolong_eq_none hbs hleaf]
    rfl

theorem deeds_cases (member : Member) : ∀ deed ∈ member.deeds,
    (∃ e, member = .expr e) ∨ ∃ y path v, deed = .assign (y :: path) v := by
  intro deed hdeed
  match member with
  | .expr e => exact Or.inl ⟨e, rfl⟩
  | .table .dotted entries =>
    rw [deeds_dotted] at hdeed
    obtain ⟨op, hop, rfl⟩ := List.mem_map.mp hdeed
    obtain ⟨path, v, hassign⟩ := isAssign_bodyOps op hop
    exact Or.inr ⟨op.1, path, v, by rw [prolongOf, hassign]; rfl⟩
  | .table .implied _ => cases hdeed
  | .table (.headed _) _ => cases hdeed
  | .tables _ => cases hdeed

/-- A dotted key ends in a table just if a value stands in the table directly. -/
theorem exists_leaf {entries : Entries} (h : ∃ p ∈ entries, ∃ e, p.2 = .expr e) :
    ∃ op ∈ bodyOps entries, ∃ v, op.2 = .assign [] v := by
  obtain ⟨⟨key, member⟩, hp, e, rfl⟩ := h
  refine ⟨(key.name, .assign [] e.settledValue), ?_, _, rfl⟩
  rw [bodyOps_eq]
  exact List.mem_flatMap.mpr ⟨_, hp, List.mem_map_of_mem List.mem_cons_self⟩

theorem no_leaf {entries : Entries} (h : ¬ ∃ p ∈ entries, ∃ e, p.2 = .expr e) :
    ∀ op ∈ bodyOps entries, ∃ y path v, op.2 = .assign (y :: path) v := by
  intro op hop
  rw [bodyOps_eq] at hop
  obtain ⟨p, hp, hop⟩ := List.mem_flatMap.mp hop
  obtain ⟨deed, hdeed, rfl⟩ := List.mem_map.mp hop
  exact (deeds_cases p.2 deed hdeed).resolve_left fun ⟨e, he⟩ => h ⟨p, hp, e, he⟩

theorem early_eq_nil_iff {held last : Nat} {entries : Entries} : early held last entries = [] ↔
    ∀ u ∈ Document.positioned last (entriesBlocks [] entries), u.2.Printed → held ≤ u.1 := by
  have hops : ∀ u ∈ Document.positioned last (entriesBlocks [] entries),
      u.2.ops = [] ↔ ¬ u.2.Printed := by
    intro u hu
    obtain ⟨p, -, inner, -, hinner⟩ := exists_under_of_mem (mem_of_mem_positioned hu)
    rw [← Block.own_ne_nil, not_not, hinner, Block.ops_under, Block.own_under, List.map_eq_nil_iff,
      Block.deeds, List.map_eq_nil_iff]
  rw [early, schedule_eq_nil]
  constructor
  · intro h u hu hprinted
    by_contra hlt
    have hmem : (u.1, u.2.ops) ∈ blockUnits last entries := List.mem_map_of_mem hu
    have := h _ (List.mem_filter.mpr ⟨hmem, by simpa using hlt⟩)
    exact (hops u hu).mp this hprinted
  · intro h u hu
    obtain ⟨hmem, hlt⟩ := List.mem_filter.mp hu
    obtain ⟨v, hv, rfl⟩ := List.mem_map.mp hmem
    rw [decide_eq_true_eq] at hlt
    exact (hops v hv).mpr fun hprinted => absurd (h v hv hprinted) (by omega)

def Yields {α : Type} (ordered : Prop) (result : Option α) (good : α → Prop) : Prop :=
  (ordered ∧ ∃ a, result = some a ∧ good a) ∨ (¬ ordered ∧ result = none)

theorem Yields.map {α β : Type} {ordered : Prop} {result : Option α} {good : α → Prop}
    {good' : β → Prop} {f : α → β} (h : Yields ordered result good) (hf : ∀ a, good a → good' (f a)) :
    Yields ordered (result.map f) good' := by
  rcases h with ⟨hordered, a, rfl, ha⟩ | ⟨hordered, rfl⟩
  · exact Or.inl ⟨hordered, f a, rfl, hf a ha⟩
  · exact Or.inr ⟨hordered, rfl⟩

def Rebuilt (held last : Nat) (member : Member) : Prop :=
  Yields (member.Ordered held last) (runSlot? (schedule (member.units held last)) none) fun slot =>
    ∃ o, slot = some o ∧ o.plain = (member.outline Expr.settledValue).plain

def EntriesRebuilt (held last : Nat) (entries : Entries) : Prop :=
  Yields (EntriesOrdered held last entries) (Outlines.empty.run? (schedule (entriesUnits held last entries)))
    fun t => t.plain = Outlines.plain (outlines Expr.settledValue entries)

theorem entries_rebuilt {entries : Entries} (hnodup : (names entries).Nodup) (held last : Nat)
    (h : ∀ p ∈ entries, ∀ held last, p.2.Rebuilt held last) : EntriesRebuilt held last entries := by
  let ops := schedule (entriesUnits held last entries)
  have hdeeds : ∀ front p back, entries = front ++ p :: back → deedsAt p.1.name ops =
      schedule (p.2.units held (endOf last (entriesBlocks [] front))) := by
    rintro front p back hsplit
    subst hsplit
    exact deedsAt_entriesUnits hnodup held last
  by_cases hordered : EntriesOrdered held last entries
  · refine Or.inl ⟨hordered, ?_⟩
    rw [entriesOrdered_iff] at hordered
    -- what the deeds to each name make of it
    have hslot : ∀ x, ∃ slot, runSlot? (deedsAt x ops) none = some slot ∧
        Outline.plainSlot slot = Outline.plainSlot (outlines Expr.settledValue entries x) := by
      intro x
      rw [outlines_apply]
      cases hget : entries.get? x with
      | none =>
        rw [Entries.get?_eq_none_iff] at hget
        exact ⟨none, by rw [deedsAt_entriesUnits_other hget]; rfl, rfl⟩
      | some member =>
        obtain ⟨key, hmem, rfl⟩ := Entries.exists_mem_of_get? hget
        obtain ⟨front, back, hsplit⟩ := List.append_of_mem hmem
        rw [hdeeds front _ back hsplit]
        rcases h _ hmem held (endOf last (entriesBlocks [] front)) with
          ⟨-, slot, hrun, o, rfl, ho⟩ | ⟨hnot, -⟩
        · exact ⟨some o, hrun, congrArg some ho⟩
        · exact absurd (hordered front _ back hsplit) hnot
    choose t ht using hslot
    exact ⟨t, Outlines.run?_eq_some_iff.mpr fun x => (ht x).1, funext fun x => (ht x).2⟩
  · refine Or.inr ⟨hordered, ?_⟩
    rw [entriesOrdered_iff] at hordered
    push Not at hordered
    obtain ⟨front, p, back, hsplit, hnot⟩ := hordered
    cases hrun : Outlines.empty.run? ops with
    | none => rfl
    | some t =>
      have := Outlines.run?_eq_some_iff.mp hrun p.1.name
      rw [hdeeds front p back hsplit] at this
      rcases h p (by simp [hsplit]) held (endOf last (entriesBlocks [] front)) with
        ⟨hyes, -⟩ | ⟨-, hnone⟩
      · exact absurd hyes hnot
      · rw [Outlines.empty, hnone] at this
        cases this

def arraySlot : List Outlines → Option Outline
  | [] => none
  | t :: ts => some (.tables (t :: ts))

def elementUnits (last : Nat) (elements : List (Heading × Entries)) : List (Nat × List Deed) :=
  (Document.positioned last (elementBlocks [] elements)).map fun u => (u.1, u.2.deeds)

theorem elementUnits_cons (last : Nat) (heading : Heading) (entries : Entries)
    (elements : List (Heading × Entries)) : ∃ last',
      elementUnits last ((heading, entries) :: elements) =
        ((heading.position, .header true :: (bodyOps entries).map insideOf) ::
          (blockUnits heading.position entries).map fun u => (u.1, u.2.map insideOf)) ++
            elementUnits last' elements := by
  refine ⟨endOf heading.position (entriesBlocks [] entries), ?_⟩
  rw [elementUnits, elementBlocks, List.cons_append, Document.positioned, Option.map_some,
    Option.getD_some, positioned_append, List.map_cons, List.map_append, deedUnits_eq, List.cons_append]
  congr 1
  simp [Block.deeds, Block.own, Deed.through, bodyOps]

theorem blockUnits_bound {lo hi last : Nat} {entries : Entries} (h : EntriesRegular lo hi entries)
    (hlast : lo ≤ last ∧ last < hi) : ∀ u ∈ blockUnits last entries, lo ≤ u.1 ∧ u.1 < hi := by
  rw [entriesRegular_iff] at h
  intro u hu
  obtain ⟨v, hv, rfl⟩ := List.mem_map.mp hu
  rcases position_mem hv with he | ⟨block, hblock, heading, hheading, he⟩
  · exact he.symm ▸ hlast
  · exact he.symm ▸ entriesHeadings (fun p hp => (h p hp).headings) block hblock heading hheading

theorem elementUnits_bound {lo hi : Nat} {elements : List (Heading × Entries)}
    (h : ElementsRegular lo hi elements) (last : Nat) : ∀ u ∈ elementUnits last elements, lo ≤ u.1 := by
  induction elements generalizing lo last with
  | nil => exact fun _ hu => (by cases hu)
  | cons element elements ih =>
    obtain ⟨heading, entries⟩ := element
    obtain ⟨mid, hlo, hmid, -, -, hentries, hrest⟩ := h
    obtain ⟨last', hunits⟩ := elementUnits_cons last heading entries elements
    rw [hunits, List.cons_append, List.forall_mem_cons, List.forall_mem_append]
    refine ⟨hlo, fun u hu => ?_, fun u hu => ?_⟩
    · obtain ⟨v, hv, rfl⟩ := List.mem_map.mp hu
      have := blockUnits_bound hentries ⟨Nat.le_refl _, hmid⟩ v hv
      exact Nat.le_trans hlo this.1
    · have := ih hrest last' u hu
      omega

/-- Elements are written one after the other, each as a whole. -/
theorem schedule_elementUnits {lo hi : Nat} {heading : Heading} {entries : Entries}
    {elements : List (Heading × Entries)} (h : ElementsRegular lo hi ((heading, entries) :: elements))
    (last : Nat) : ∃ last', schedule (elementUnits last ((heading, entries) :: elements)) =
      .header true :: (schedule (entriesUnits heading.position heading.position entries)).map insideOf ++
        schedule (elementUnits last' elements) := by
  obtain ⟨mid, -, hmid, -, -, hentries, hrest⟩ := h
  obtain ⟨last', hunits⟩ := elementUnits_cons last heading entries elements
  have hbound := blockUnits_bound hentries ⟨Nat.le_refl heading.position, hmid⟩
  have hearly : early heading.position heading.position entries = [] := by
    rw [early, List.filter_eq_nil_iff.mpr]
    · rfl
    · intro u hu
      have := hbound u hu
      simp only [decide_eq_true_eq]
      omega
  refine ⟨last', ?_⟩
  rw [hunits, schedule_append, schedule_header, schedule_entriesUnits, hearly]
  · rfl
  · intro u hu v hv
    have hv := elementUnits_bound hrest last' v hv
    rcases List.mem_cons.mp hu with rfl | hu
    · omega
    · obtain ⟨w, hw, rfl⟩ := List.mem_map.mp hu
      have := (hbound w hw).2
      omega

theorem elements_rebuilt {lo hi : Nat} {elements : List (Heading × Entries)}
    (h : ElementsRegular lo hi elements)
    (hentries : ∀ element ∈ elements, ∀ n, EntriesRebuilt n n element.2) (older : List Outlines)
    (last : Nat) :
    Yields (ElementsOrdered elements)
      (runSlot? (schedule (elementUnits last elements)) (arraySlot older)) fun slot =>
        ∃ ts, slot = arraySlot (ts ++ older) ∧ ts.map Outlines.plain =
          (elementOutlines Expr.settledValue elements).reverse.map Outlines.plain := by
  induction elements generalizing lo older last with
  | nil => exact Or.inl ⟨trivial, _, rfl, [], rfl, rfl⟩
  | cons element elements ih =>
    obtain ⟨heading, entries⟩ := element
    obtain ⟨last', hschedule⟩ := schedule_elementUnits h last
    obtain ⟨mid, -, -, -, -, -, hrest⟩ := h
    rw [List.forall_mem_cons] at hentries
    have hheader : (Deed.header true).perform? (arraySlot older) =
        some (.tables (Outlines.empty :: older)) := by
      cases older <;> rfl
    have hrun : runSlot? (schedule (elementUnits last ((heading, entries) :: elements)))
        (arraySlot older) =
          (Outlines.empty.run? (schedule (entriesUnits heading.position heading.position entries))).bind
            fun t => runSlot? (schedule (elementUnits last' elements)) (arraySlot (t :: older)) := by
      rw [hschedule, List.cons_append, runSlot?_cons, hheader, Option.bind_some, runSlot?_append,
        runSlot?_inside_tables]
      cases Outlines.empty.run? (schedule (entriesUnits heading.position heading.position entries)) <;> rfl
    rw [hrun]
    rcases hentries.1 heading.position with ⟨hordered, t, ht, hplain⟩ | ⟨hordered, hnone⟩
    · rw [ht, Option.bind_some]
      rcases ih hrest hentries.2 (t :: older) last' with ⟨hrest, slot, hslot, ts, rfl, hts⟩ | ⟨hrest, hnone⟩
      · refine Or.inl ⟨⟨hordered, hrest⟩, _, hslot, ts ++ [t], by simp, ?_⟩
        rw [elementOutlines, List.reverse_cons, List.map_append, List.map_append, hts, List.map_singleton,
          List.map_singleton, hplain]
      · exact Or.inr ⟨fun hboth => hrest hboth.2, hnone⟩
    · exact Or.inr ⟨fun hboth => hordered hboth.1, by rw [hnone]; rfl⟩

theorem positioned_snd (last : Nat) (blocks : List Block) :
    (Document.positioned last blocks).map (·.2) = blocks := by
  induction blocks generalizing last with
  | nil => rfl
  | cons block blocks ih => rw [Document.positioned, List.map_cons, ih]

theorem ordered_perm (entries : Entries) : (Document.ordered entries).Perm (entriesBlocks [] entries) := by
  have := (sort_perm (fun a b => decide (a.1 < b.1)) (Document.positioned 0 (entriesBlocks [] entries))).map Prod.snd
  rwa [positioned_snd] at this

theorem Regular.schedule_ne_nil {lo hi : Nat} {member : Member} (h : member.Regular lo hi)
    (held last : Nat) : schedule (member.units held last) ≠ [] := by
  rw [ne_eq, schedule_eq_nil, units, List.forall_mem_cons]
  rintro ⟨hdeeds, hblocks⟩
  refine h.not_idle ⟨hdeeds, fun block hblock => ?_⟩
  rw [← positioned_snd last (member.blocks [])] at hblock
  obtain ⟨u, hu, rfl⟩ := List.mem_map.mp hblock
  exact List.map_eq_nil_iff.mp (hblocks _ (List.mem_map_of_mem hu))

theorem outline_rebuilt {entries : Entries} (kind : TableKind) (origin : Origin) {t : Outlines}
    (h : t.plain = Outlines.plain (outlines Expr.settledValue entries)) :
    ∃ o, some (Outline.table origin t) = some o ∧
      o.plain = ((Member.table kind entries).outline Expr.settledValue).plain :=
  ⟨_, rfl, by rw [outline, Outline.plain_table, Outline.plain_table, h]⟩

section Tables

variable {entries : Entries} (hentries : ∀ held last, EntriesRebuilt held last entries)

include hentries

/-- A table with a header of its own at the position `n`. -/
theorem header_rebuilt (kind : TableKind) (held n : Nat) :
    Yields (EntriesOrdered n n entries)
      (runSlot? (schedule ((held, []) :: (n, .header false :: (bodyOps entries).map insideOf) ::
        (blockUnits n entries).map fun u => (u.1, u.2.map insideOf))) none) fun slot =>
          ∃ o, slot = some o ∧ o.plain = ((Member.table kind entries).outline Expr.settledValue).plain := by
  have hrun := runSlot?_header (early n n entries) (bodyOps entries ++ late n n entries)
  rw [schedule_idle, schedule_header, hrun, ← schedule_entriesUnits]
  exact (hentries n n).map fun t => outline_rebuilt kind .headed

theorem headed_rebuilt (heading : Heading) (held last : Nat) :
    (Member.table (.headed heading) entries).Rebuilt held last := by
  have hunits : (Member.table (.headed heading) entries).units held last = (held, []) ::
      (heading.position, .header false :: (bodyOps entries).map insideOf) ::
        (blockUnits heading.position entries).map fun u => (u.1, u.2.map insideOf) := by
    rw [units, blocks, Document.positioned, Option.map_some, Option.getD_some, List.map_cons,
      deedUnits_eq]
    simp [Block.deeds, Block.own, Deed.through, bodyOps, deeds, body]
  rw [Rebuilt, hunits]
  exact header_rebuilt hentries (.headed heading) held heading.position

theorem implied_rebuilt {held last : Nat}
    (hwritten : schedule ((Member.table .implied entries).units held last) ≠ []) :
    (Member.table .implied entries).Rebuilt held last := by
  by_cases hbody : entriesBody [] entries = []
  · have hunits : (Member.table .implied entries).units held last = (held, []) :: (last, []) ::
        (blockUnits last entries).map fun u => (u.1, u.2.map insideOf) := by
      rw [units, blocks, Document.positioned, Option.map_none, Option.getD_none, List.map_cons,
        deedUnits_eq]
      simp [Block.deeds, Block.own, hbody, deeds, body]
    rw [hunits, schedule_idle, schedule_idle, ← schedule_map, ne_eq, List.map_eq_nil_iff] at hwritten
    have hrun := runSlot?_inside_none hwritten
    have hschedule : schedule (entriesUnits last last entries) =
        schedule (blockUnits last entries) := by
      rw [entriesUnits, assignOps_eq_nil hbody, schedule_idle]
      rfl
    rw [Rebuilt, hunits, schedule_idle, schedule_idle, ← schedule_map, hrun, ← hschedule]
    exact (hentries last last).map fun t => outline_rebuilt .implied .implied
  · -- a body needs a header, which is written in front of it
    have hunits : (Member.table .implied entries).units held last = (held, []) ::
        (last, .header false :: (bodyOps entries).map insideOf) ::
          (blockUnits last entries).map fun u => (u.1, u.2.map insideOf) := by
      rw [units, blocks, Document.positioned, Option.map_none, Option.getD_none, List.map_cons,
        deedUnits_eq]
      simp [Block.deeds, Block.own, Deed.through, bodyOps, hbody, deeds, body]
    rw [Rebuilt, hunits]
    exact header_rebuilt hentries .implied held last

theorem dotted_rebuilt {held last : Nat}
    (hwritten : schedule ((Member.table .dotted entries).units held last) ≠ []) :
    (Member.table .dotted entries).Rebuilt held last := by
  have hunits : schedule ((Member.table .dotted entries).units held last) =
      (early held last entries).map insideOf ++ ((bodyOps entries).map prolongOf ++
        (late held last entries).map insideOf) := by
    rw [units, blocks, deedUnits_eq, deeds_dotted, schedule_cons_map]
    rfl
  rw [hunits] at hwritten
  rw [Rebuilt, hunits]
  by_cases hdirect : (∃ p ∈ entries, ∃ e, p.2 = .expr e) → early held last entries = []
  · obtain ⟨origin, hrun⟩ := runSlot?_dotted (early held last entries)
      (late held last entries) isAssign_bodyOps (fun hnil => hwritten (by simpa using hnil))
      (by
        by_cases hleaf : ∃ p ∈ entries, ∃ e, p.2 = .expr e
        · exact Or.inl (hdirect hleaf)
        · exact Or.inr (no_leaf hleaf))
    have hordered : (Member.table .dotted entries).Ordered held last ↔
        EntriesOrdered held last entries := by
      rw [Ordered]
      exact and_iff_right fun hleaf => early_eq_nil_iff.mp (hdirect hleaf)
    rw [hrun, ← schedule_entriesUnits, hordered]
    exact (hentries held last).map fun t => outline_rebuilt .dotted origin
  · push Not at hdirect
    obtain ⟨hleaf, hearly⟩ := hdirect
    refine Or.inr ⟨?_, runSlot?_dotted_eq_none isAssign_bodyOps hearly (exists_leaf hleaf)⟩
    rw [Ordered]
    exact fun hordered => hearly (early_eq_nil_iff.mpr (hordered.1 hleaf))

end Tables

theorem tables_rebuilt {lo hi : Nat} {elements : List (Heading × Entries)} (hne : elements ≠ [])
    (hregular : ElementsRegular lo hi elements)
    (hentries : ∀ element ∈ elements, ∀ n, EntriesRebuilt n n element.2) (held last : Nat) :
    (Member.tables elements).Rebuilt held last := by
  have hunits : (Member.tables elements).units held last = (held, []) :: elementUnits last elements := rfl
  rw [Rebuilt, hunits, schedule_idle, Ordered]
  have hrebuilt := elements_rebuilt hregular hentries [] last
  rw [arraySlot] at hrebuilt
  rcases hrebuilt with ⟨hordered, slot, hslot, ts, rfl, hts⟩ | hnone
  · refine Or.inl ⟨hordered, _, hslot, .tables ts, ?_, ?_⟩
    · have hlength := congrArg List.length hts
      rw [elementOutlines_eq] at hlength
      simp only [List.length_map, List.length_reverse] at hlength
      obtain ⟨t, ts, rfl⟩ := List.exists_cons_of_length_pos (l := ts)
        (by rw [hlength]; exact List.length_pos_iff.mpr hne)
      rw [List.append_nil]
      rfl
    · rw [outline, Outline.plain_tables, Outline.plain_tables, hts]
  · exact Or.inr hnone

theorem Regular.rebuilt {lo hi : Nat} {member : Member} (h : member.Regular lo hi) (held last : Nat) :
    member.Rebuilt held last := by
  have hwritten := h.schedule_ne_nil held last
  induction member using Member.induct generalizing lo hi held last with
  | hexpr e => exact Or.inl ⟨trivial, _, rfl, _, rfl, rfl⟩
  | htable kind entries ih =>
    obtain ⟨-, -, hnodup, hregular⟩ := h
    rw [entriesRegular_iff] at hregular
    have hentries : ∀ held last, EntriesRebuilt held last entries := fun held last =>
      entries_rebuilt hnodup held last fun p hp held last =>
        ih p hp (hregular p hp) held last ((hregular p hp).schedule_ne_nil held last)
    cases kind with
    | headed heading => exact headed_rebuilt hentries heading held last
    | implied => exact implied_rebuilt hentries hwritten
    | dotted => exact dotted_rebuilt hentries hwritten
  | htables elements ih =>
    obtain ⟨hne, helements⟩ := h
    refine tables_rebuilt hne helements (fun element helement n => ?_) held last
    obtain ⟨mid, mid', hnodup, hregular⟩ := helements.entries element helement
    rw [entriesRegular_iff] at hregular
    exact entries_rebuilt hnodup n n fun p hp held last =>
      ih element helement p hp (hregular p hp) held last ((hregular p hp).schedule_ne_nil held last)

end Member

end DeploymentRecords.Toml
