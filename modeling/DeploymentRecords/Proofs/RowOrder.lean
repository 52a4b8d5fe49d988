import DeploymentRecords.Proofs.Listings

/-! # The order of the rows of a section

A section is what follows a header on its heading line, and rows. The address of a label is that of the
first row, or of the heading line, on which the label has one; if no two of these lines have one for the
same label, the rows may stand in any order. -/

namespace DeploymentRecords.Documentation

open Text Address

variable {header line : Text} {label : Label} {rows rows' : List Text}

theorem listed_iff : Nonempty (Listing label line) ↔ addressOf? label false line ≠ none := by
  rw [ne_eq, addressOf?_eq_none_iff_unlisted, not_not]

instance : Decidable (Nonempty (Listing label line)) := decidable_of_iff' _ listed_iff

/-- No label has an address on two of the lines. A label that stands on one line only has none on two. -/
def ListedOnce (lines : List Text) : Prop :=
  ∀ label ∈ labels, lines.Pairwise fun a b => ¬ (Nonempty (Listing label a) ∧ Nonempty (Listing label b))

instance (lines : List Text) : Decidable (ListedOnce lines) :=
  inferInstanceAs (Decidable (∀ label ∈ labels, _))

/-- Where at most one line has a result, it does not matter where the line stands. -/
theorem findSome?_perm {f : Text → Option Text} (h : rows.Perm rows')
    (honce : rows.Pairwise fun a b => ¬ (f a ≠ none ∧ f b ≠ none)) : rows.findSome? f = rows'.findSome? f := by
  induction h with
  | nil => rfl
  | cons row h ih => rw [List.findSome?_cons, List.findSome?_cons, ih (List.pairwise_cons.mp honce).2]
  | swap a b rows =>
    have hboth : ¬ (f b ≠ none ∧ f a ≠ none) := (List.pairwise_cons.mp honce).1 a List.mem_cons_self
    simp only [List.findSome?_cons]
    cases ha : f a with
    | none => rfl
    | some x =>
      cases hb : f b with
      | none => rfl
      | some y => exact absurd ⟨by simp [hb], by simp [ha]⟩ hboth
  | trans h₁ h₂ ih₁ ih₂ =>
    have hsymm : ∀ {a b : Text}, ¬ (f a ≠ none ∧ f b ≠ none) → ¬ (f b ≠ none ∧ f a ≠ none) :=
      fun hno hboth => hno hboth.symm
    exact (ih₁ honce).trans (ih₂ ((h₁.pairwise_iff hsymm).mp honce))

def below (rows : List Text) : Text := rows.flatMap fun row => '\n' :: row

theorem addressOf?_below (hlabel : label ∈ labels) (b : Bool) (line : Text) (rows : List Text) :
    addressOf? label b (line ++ below rows) =
      (addressOf? label b line).or (rows.findSome? (addressOf? label false)) := by
  induction rows generalizing b line with
  | nil => rw [below, List.flatMap_nil, List.append_nil, List.findSome?_nil, Option.or_none]
  | cons row rows ih =>
    rw [below, List.flatMap_cons, List.cons_append, addressOf?_append hlabel]
    have hrow := ih false row
    rw [below] at hrow
    rw [hrow, List.findSome?_cons]
    cases addressOf? label false row <;> rfl

structure IsRow (row : Text) : Prop where
  oneLine : '\n' ∉ row
  inside : ¬ "###".toList <+: row

theorem not_contains_sectionEnd (h : '\n' ∉ line) : contains sectionEnd line = false := by
  cases hc : contains sectionEnd line with
  | false => rfl
  | true =>
    obtain ⟨before, after, hline⟩ := contains_iff.mp hc
    exact absurd (by rw [hline]; simp [sectionEnd]) h

def AtLineEnd (t : Text) : Prop := t = [] ∨ ∃ u, t = '\n' :: u

theorem IsRow.after?_eq_none {row t : Text} (h : IsRow row) (ht : AtLineEnd t) :
    Text.after? "###".toList (row ++ t) = none := by
  have hrow : Text.after? "###".toList row = none := by
    cases hread : Text.after? "###".toList row with
    | none => rfl
    | some rest => exact absurd ⟨rest, (after?_eq_some_iff.mp hread).symm⟩ h.inside
  rcases ht with rfl | ⟨u, rfl⟩
  · rwa [List.append_nil]
  · rw [local_after? (by decide), hrow]
    rfl

def IsEnding (ending : Text) : Prop := ending = [] ∨ ∃ after, ending = sectionEnd ++ after

theorem atLineEnd_below {ending : Text} (h : IsEnding ending) (rows : List Text) :
    AtLineEnd (below rows ++ ending) := by
  cases rows with
  | cons row rows => exact Or.inr ⟨row ++ (below rows ++ ending), by simp [below]⟩
  | nil => exact h.imp (fun h => h) fun ⟨after, h⟩ => ⟨"###".toList ++ after, h⟩

/-- A section takes all of its rows and nothing behind them. -/
theorem untilSection_below {ending : Text} (hline : '\n' ∉ line) (hrows : ∀ row ∈ rows, IsRow row)
    (hending : IsEnding ending) : untilSection (line ++ (below rows ++ ending)) = line ++ below rows := by
  have hquiet := not_contains_sectionEnd hline
  induction rows generalizing line with
  | nil =>
    refine untilSection_eq_iff.mpr ⟨by simpa [below] using hquiet, ?_⟩
    exact hending.imp (fun h => by rw [h, List.append_nil]) fun ⟨after, h⟩ => ⟨after, by rw [h]; simp [below]⟩
  | cons row rows ih =>
    rw [List.forall_mem_cons] at hrows
    obtain ⟨hrow, hrows⟩ := hrows
    have hsplit : line ++ (below (row :: rows) ++ ending) =
        line ++ '\n' :: (row ++ (below rows ++ ending)) := by simp [below]
    have hrest := ih hrow.oneLine hrows (not_contains_sectionEnd hrow.oneLine)
    rw [hsplit, untilSection_append, cut?_eq_none_iff.mpr hquiet,
      hrow.after?_eq_none (atLineEnd_below hending rows), hrest]
    simp [below]

theorem search?_atLineEnd {s rest t : Text} (hheader : '\n' ∉ header)
    (h : search? (afterFolded? header) s = some rest) (ht : AtLineEnd t) :
    search? (afterFolded? header) (s ++ t) = some (rest ++ t) := by
  rcases ht with rfl | ⟨u, rfl⟩
  · rwa [List.append_nil, List.append_nil]
  by_cases hne : header = []
  · have hall : ∀ s, search? (afterFolded? []) s = some s := by
      intro s
      cases s <;> rfl
    rw [hne, hall] at h ⊢
    rw [Option.some.inj h]
  · rw [search?_header hne hheader, h]
    rfl

/-- A page on which a header is first found in a heading line, with the rows below it up to the next
heading. -/
structure TitledPage (header : Text) where
  pre : Text
  heading : Text
  rows : List Text
  ending : Text
  header_oneLine : '\n' ∉ header
  heading_oneLine : '\n' ∉ heading
  heading_titled : HoldsFolded header heading
  /-- The header does not begin in front of the heading. -/
  pre_quiet : ∀ before found after, pre ++ heading = before ++ (found ++ after) → Titles header found →
    pre.length ≤ before.length
  rows_inside : ∀ row ∈ rows, IsRow row
  ending_ends : IsEnding ending

namespace TitledPage

variable (page : TitledPage header)

def text : Text := page.pre ++ (page.heading ++ (below page.rows ++ page.ending))

def tail : Text := (search? (afterFolded? header) page.heading).getD []

def lines : List Text := page.tail :: page.rows

def reordered (rows : List Text) (h : page.rows.Perm rows) : TitledPage header :=
  { page with rows := rows, rows_inside := fun row hrow => page.rows_inside row (h.mem_iff.mpr hrow) }

theorem search?_heading : search? (afterFolded? header) page.heading = some page.tail := by
  obtain ⟨rest, hrest⟩ := Option.isSome_iff_exists.mp (holdsFolded_iff.mp page.heading_titled)
  rw [tail, hrest]
  rfl

theorem search?_pre : search? (afterFolded? header) (page.pre ++ page.heading) = some page.tail := by
  rw [search?_append, page.search?_heading]
  intro a b hab hb
  cases hread : afterFolded? header (b ++ page.heading) with
  | none => rfl
  | some rest =>
    obtain ⟨found, hsplit, hfound⟩ := afterFolded?_eq_some hread
    have hlength := page.pre_quiet a found rest (by rw [hab, List.append_assoc, hsplit]) hfound
    have hpos := List.length_pos_iff.mpr hb
    rw [hab, List.length_append] at hlength
    omega

theorem tail_oneLine : '\n' ∉ page.tail := by
  obtain ⟨lead, found, rest, hpart, hrest⟩ :=
    (takes_afterFolded? header).search?_eq_some_iff.mp page.search?_heading
  intro hmem
  apply page.heading_oneLine
  rw [hpart.split, ← hrest]
  simp [hmem]

theorem section?_text : section? page.text header = some (page.tail ++ below page.rows) := by
  have hends := atLineEnd_below page.ending_ends page.rows
  have hsearch := search?_atLineEnd page.header_oneLine page.search?_pre hends
  rw [List.append_assoc] at hsearch
  rw [section?_eq, text, hsearch, Option.map_some,
    untilSection_below page.tail_oneLine page.rows_inside page.ending_ends]

theorem addressOf?_lines (hlabel : label ∈ labels) : addressOf? label false (page.tail ++ below page.rows) =
    page.lines.findSome? (addressOf? label false) := by
  rw [addressOf?_below hlabel, lines, List.findSome?_cons]
  cases addressOf? label false page.tail <;> rfl

/-- If no label has an address on two lines of a section, its rows may stand in any order. The field of a
label then has the address of the first listing on the line that lists it, and is empty if none does. -/
theorem read_reordered (rows : List Text) (hperm : page.rows.Perm rows) (honce : ListedOnce page.lines) :
    read (page.reordered rows hperm).text header = read page.text header ∧
    ∀ label ∈ labels,
      (∀ line ∈ page.lines, ∀ l : Listing label line, l.IsFirst →
        (read page.text header).lookup label.field = some (lower l.literal)) ∧
      ((∀ line ∈ page.lines, ¬ Nonempty (Listing label line)) →
        (read page.text header).lookup label.field = some []) := by
  have hpairwise : ∀ label ∈ labels, page.lines.Pairwise fun a b =>
      ¬ (addressOf? label false a ≠ none ∧ addressOf? label false b ≠ none) := by
    intro label hlabel
    exact (honce label hlabel).imp fun hno hboth => hno (hboth.imp listed_iff.mpr listed_iff.mpr)
  refine ⟨?_, fun label hlabel => ⟨fun line hline l hfirst => ?_, fun hunlisted => ?_⟩⟩
  · rw [read_of_section? page.section?_text, read_of_section? (page.reordered rows hperm).section?_text]
    refine tableOf_congr fun label hlabel => ?_
    rw [page.addressOf?_lines hlabel, (page.reordered rows hperm).addressOf?_lines hlabel]
    exact (findSome?_perm (hperm.cons page.tail) (hpairwise label hlabel)).symm
  · -- with this line in front of the others the search ends at once
    have hfront := findSome?_perm (List.perm_cons_erase hline) (hpairwise label hlabel)
    rw [lookup_read page.section?_text hlabel, page.addressOf?_lines hlabel, hfront, List.findSome?_cons,
      addressOf?_of_isFirst hfirst]
    rfl
  · have hnone : page.lines.findSome? (addressOf? label false) = none := by
      refine List.findSome?_eq_none_iff.mpr fun line hline => ?_
      exact addressOf?_eq_none_iff_unlisted.mpr (hunlisted line hline)
    rw [lookup_read page.section?_text hlabel, page.addressOf?_lines hlabel, hnone]
    rfl

def stakedRow : Text := "| veZKC | 0x00000000000000000000000000000000000000b2 |".toList

def tokenRow : Text := "| ZKC 0x0 | ZKC 0xABCDEFabcdef0123456789ABCDEFabcdef012345 |".toList

def pendingRow : Text := "| SetVerifier | pending |".toList

def tokenPage : TitledPage "### base".toList where
  pre := "# Addresses on Base\n## Base\n".toList
  heading := "### Base ### Base".toList
  rows := ["".toList, stakedRow, tokenRow, pendingRow]
  ending := "\n### Other\nSetVerifier 0x00000000000000000000000000000000000000b1".toList
  header_oneLine := by decide
  heading_oneLine := by decide
  heading_titled := by decide +kernel
  pre_quiet := by
    have hfirst : FirstPart (Titles "### base".toList)
        ("# Addresses on Base\n## Base\n".toList ++ "### Base ### Base".toList)
        "# Addresses on Base\n## Base\n".toList "### Base".toList " ### Base".toList := by decide +kernel
    exact hfirst.first
  rows_inside := by
    intro row hrow
    simp only [List.mem_cons, List.not_mem_nil, or_false] at hrow
    rcases hrow with rfl | rfl | rfl | rfl
    · exact ⟨by decide, by decide⟩
    · exact ⟨by decide, by decide⟩
    · exact ⟨by decide, by decide⟩
    · exact ⟨by decide, by decide⟩
  ending_ends := Or.inr ⟨" Other\nSetVerifier 0x00000000000000000000000000000000000000b1".toList, by decide⟩

def tokenRowListing : Listing stakedToken tokenRow where
  before := "| ".toList
  gap := " 0x0 | ZKC ".toList
  literal := tokenAddress
  after := " |".toList
  split := rfl
  apart := fun _ => ⟨by rintro c ⟨⟩; decide +kernel, by rintro c ⟨⟩; decide +kernel⟩
  oneLine := by decide
  written := tokenListing.written

theorem read_reordered_token :
    ∃ hperm : tokenPage.rows.Perm [pendingRow, tokenRow, stakedRow, "".toList],
      ListedOnce tokenPage.lines ∧
      read (tokenPage.reordered _ hperm).text "### base".toList = read tokenPage.text "### base".toList ∧
      tokenRowListing.IsFirst ∧
      (read tokenPage.text "### base".toList).lookup stakedToken.field =
        some (lower tokenRowListing.literal) := by
  have hperm : tokenPage.rows.Perm [pendingRow, tokenRow, stakedRow, "".toList] :=
    (List.reverse_perm tokenPage.rows).symm
  have honce : ListedOnce tokenPage.lines := by decide +kernel
  have hfirst : tokenRowListing.IsFirst := by decide +kernel
  have hrow : tokenRow ∈ ["".toList, stakedRow, tokenRow, pendingRow] :=
    List.mem_cons_of_mem _ (List.mem_cons_of_mem _ List.mem_cons_self)
  have hline : tokenRow ∈ tokenPage.lines := List.mem_cons_of_mem _ hrow
  have hlabel : stakedToken ∈ labels := by decide
  obtain ⟨hsame, hlisted⟩ := tokenPage.read_reordered _ hperm honce
  exact ⟨hperm, honce, hsame, hfirst, (hlisted stakedToken hlabel).1 tokenRow hline tokenRowListing hfirst⟩

end TitledPage

end DeploymentRecords.Documentation
