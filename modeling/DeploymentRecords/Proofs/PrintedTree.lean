import DeploymentRecords.Proofs.SoundTree
import DeploymentRecords.Proofs.TreeOps

/-! # The statements of a sound tree

Whatever a sound tree writes reads back. -/

namespace DeploymentRecords.Toml

open Text

theorem Key.Fits.sound {key : Key} {member : Member} (h : key.Fits member) : key.Sound := by
  cases member <;> exact h.1

structure Member.Block.Printable (block : Block) : Prop where
  path_ne_nil : block.path ≠ []
  short : block.path.length < Key.maxPath
  keys : ∀ key ∈ block.path, key.Sound
  outer : Around Spaces Spaces (block.path.getLast?.bind Key.outer)
  heading : ∀ heading, block.heading = some heading → heading.Sound
  body : ∀ q ∈ block.body, (Statement.assign q.1 q.2).Printable

namespace Member

variable {depth body : Nat} {front : List Key}

theorem sound_concat (hfront : ∀ key ∈ front, key.Sound) {key : Key} (hkey : key.Sound) :
    ∀ k ∈ front ++ [key], k.Sound := by
  rw [List.forall_mem_append, List.forall_mem_singleton]
  exact ⟨hfront, hkey⟩

theorem Sound.body_printable {member : Member} (h : member.Sound depth body) {key : Key}
    (hkey : key.Fits member) (hfront : ∀ key ∈ front, key.Sound) (hlength : front.length = body) :
    ∀ q ∈ member.body (front ++ [key]), (Statement.assign q.1 q.2).Printable := by
  induction member using Member.induct generalizing depth body key front with
  | hexpr e =>
    obtain ⟨hshort, he, haround⟩ := h
    rw [Member.body, List.forall_mem_singleton]
    refine ⟨by simp, by simpa [hlength] using hshort, sound_concat hfront hkey.1, ?_, he, haround⟩
    rw [List.getLast?_concat]
    exact hkey.2
  | htable kind entries ih =>
    cases kind with
    | headed heading => exact fun q hq => (by cases hq)
    | implied => exact fun q hq => (by cases hq)
    | dotted =>
      have hentries := entriesSound_iff.mp h.2.2
      rw [Member.body, entriesBody_flatMap]
      intro q hq
      obtain ⟨p, hp, hq⟩ := List.mem_flatMap.mp hq
      exact ih p hp (hentries p hp).2 (hentries p hp).1 (sound_concat hfront hkey.sound)
        (by simp [hlength, TableKind.bodyDepth]) q hq
  | htables elements => exact fun q hq => (by cases hq)

theorem entriesBody_printable {entries : Entries} (h : entries.Sound depth 0) :
    ∀ q ∈ entriesBody [] entries, (Statement.assign q.1 q.2).Printable := by
  intro q hq
  rw [entriesBody_flatMap] at hq
  obtain ⟨p, hp, hq⟩ := List.mem_flatMap.mp hq
  exact @Sound.body_printable _ _ [] p.2 (h p hp).2 p.1 (h p hp).1 (by simp) rfl q hq

theorem block_printable {key : Key} {array : Bool} {heading : Option Heading}
    {entries : Entries} (hkey : key.Sound ∧ Around Spaces Spaces key.outer)
    (hfront : ∀ key ∈ front, key.Sound) (hshort : front.length + 1 < Key.maxPath)
    (hheading : ∀ other, heading = some other → other.Sound) (hentries : entries.Sound depth 0) :
    Block.Printable ⟨array, front ++ [key], heading, entriesBody [] entries⟩ where
  path_ne_nil := by simp
  short := by simpa using hshort
  keys := sound_concat hfront hkey.1
  outer := by
    rw [List.getLast?_concat]
    exact hkey.2
  heading := hheading
  body := entriesBody_printable hentries

def BlocksPrintable (member : Member) : Prop := ∀ {depth body : Nat} {key : Key} {front : List Key},
  member.Sound depth body → key.Fits member → (∀ key ∈ front, key.Sound) → front.length = depth →
    ∀ block ∈ member.blocks (front ++ [key]), block.Printable

theorem entriesBlocks_printable {entries : Entries} (ih : ∀ p ∈ entries, p.2.BlocksPrintable)
    (h : entries.Sound depth body) (hfront : ∀ key ∈ front, key.Sound) (hlength : front.length = depth) :
    ∀ block ∈ entriesBlocks front entries, block.Printable := by
  intro block hblock
  rw [entriesBlocks_flatMap] at hblock
  obtain ⟨p, hp, hblock⟩ := List.mem_flatMap.mp hblock
  exact ih p hp (h p hp).2 (h p hp).1 hfront hlength block hblock

theorem blocks_printable (member : Member) : member.BlocksPrintable := by
  induction member using Member.induct with
  | hexpr e => exact fun _ _ _ _ block hblock => (by cases hblock)
  | htable kind entries ih =>
    intro depth body key front h hkey hfront hlength
    obtain ⟨hshort, hheading, hsound⟩ := h
    have hsound := entriesSound_iff.mp hsound
    have hrest := entriesBlocks_printable ih hsound (sound_concat hfront hkey.sound)
      (by rw [List.length_append, hlength]; rfl)
    rw [← hlength] at hshort
    cases kind with
    | headed heading =>
      rw [blocks, List.forall_mem_cons]
      refine ⟨block_printable hkey hfront
        (hshort (by simp)) ?_ hsound, hrest⟩
      rintro other ⟨⟩
      exact hheading heading rfl
    | implied =>
      rw [blocks, List.forall_mem_cons]
      exact ⟨block_printable hkey hfront (hshort (by simp))
        (by simp) hsound, hrest⟩
    | dotted => exact hrest
  | htables elements ih =>
    intro depth body key front h hkey hfront hlength block hblock
    obtain ⟨hshort, hsound⟩ := h
    rw [elementsSound_iff] at hsound
    rw [blocks, elementBlocks_flatMap] at hblock
    obtain ⟨element, helement, hblock⟩ := List.mem_flatMap.mp hblock
    rcases List.mem_cons.mp hblock with rfl | hblock
    · refine block_printable hkey hfront (hlength ▸ hshort) ?_
        (hsound element helement).2
      rintro other ⟨⟩
      exact (hsound element helement).1
    · exact entriesBlocks_printable (ih element helement) (hsound element helement).2
        (sound_concat hfront hkey.sound) (by rw [List.length_append, hlength]; rfl) block hblock

end Member

namespace Document

theorem assigns_printable {body : List (List Key × Expr)}
    (h : ∀ q ∈ body, (Statement.assign q.1 q.2).Printable) :
    ∀ st ∈ body.map (fun (path, e) => Statement.assign path e), st.Printable := by
  intro st hst
  obtain ⟨q, hq, rfl⟩ := List.mem_map.mp hst
  exact h q hq

theorem blockStatements_printable (first : Bool) {blocks : List Member.Block}
    (h : ∀ block ∈ blocks, block.Printable) : ∀ st ∈ blockStatements first blocks, st.Printable := by
  induction blocks generalizing first with
  | nil => exact fun st hst => (by cases hst)
  | cons block blocks ih =>
    obtain ⟨hblock, hblocks⟩ := List.forall_mem_cons.mp h
    have hassigns := assigns_printable hblock.body
    rw [blockStatements]
    cases hheading : block.heading with
    | some heading =>
      obtain ⟨hbefore, hafter⟩ := hblock.heading heading hheading
      simp only [List.cons_append, List.forall_mem_cons, List.forall_mem_append]
      exact ⟨⟨hblock.path_ne_nil, hblock.short, hblock.keys, hblock.outer, hbefore, hafter⟩,
        hassigns, ih false hblocks⟩
    | none =>
      by_cases hbody : block.body = []
      · simp only [hbody, if_true]
        exact ih first hblocks
      · simp only [hbody, if_false, List.cons_append, List.forall_mem_cons, List.forall_mem_append]
        refine ⟨⟨hblock.path_ne_nil, hblock.short, hblock.keys, hblock.outer, ?_, spaces_nil.trail⟩,
          hassigns, ih false hblocks⟩
        cases first
        · exact .line (Or.inl rfl : IsNewline ['\n']) .nil
        · exact .nil

/-- Whatever is written for a sound tree reads back. -/
theorem statements_printable {doc : Document} (h : doc.root.Sound 0 0) :
    ∀ st ∈ doc.statements, st.Printable := by
  rw [statements, List.forall_mem_append]
  refine ⟨assigns_printable (Member.entriesBody_printable h),
    blockStatements_printable _ fun block hblock => ?_⟩
  obtain ⟨u, hu, rfl⟩ := List.mem_map.mp hblock
  exact Member.entriesBlocks_printable (fun p _ => Member.blocks_printable p.2) h (by simp) rfl _
    (Member.mem_of_mem_positioned (Sorting.mem_sort.mp hu))

end Document

end DeploymentRecords.Toml
