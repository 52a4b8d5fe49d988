import DeploymentRecords.Proofs.PageLines

/-! # Sections among other text

For every header, whatever it is, the section lies between the first part of the page that matches the
header and the first `\n###` at or behind the end of that part. The table that is read comes from the
section alone: the text in front, the letter case of the header and the text behind the section may be
replaced. -/

namespace DeploymentRecords.Documentation

open Text

/-- `inside` is what `rest` holds in front of its first `\n###`, or all of it. -/
structure IsSection (rest inside : Text) : Prop where
  quiet : contains sectionEnd inside = false
  ended : rest = inside ∨ ∃ after, rest = inside ++ (sectionEnd ++ after)

variable {header content before found rest inside : Text}

instance : Decidable (Lacks (Titles header) content) :=
  decidable_of_iff _ (takes_afterFolded? header).search?_eq_none_iff

instance : Decidable (FirstPart (Titles header) content before found rest) :=
  decidable_of_iff' _ (takes_afterFolded? header).firstPart_iff

theorem cut?_sectionEnd {after : Text} : cut? sectionEnd rest = some (inside, after) ↔
    rest = inside ++ (sectionEnd ++ after) ∧ contains sectionEnd inside = false :=
  cut?_eq_some_iff (show '\n' ∉ "###".toList by decide)

theorem untilSection_eq_iff : untilSection rest = inside ↔ IsSection rest inside := by
  rw [untilSection]
  constructor
  · rintro rfl
    cases hcut : cut? sectionEnd rest with
    | none => exact ⟨cut?_eq_none_iff.mp hcut, Or.inl rfl⟩
    | some p =>
      obtain ⟨hrest, hquiet⟩ := cut?_sectionEnd.mp hcut
      exact ⟨hquiet, Or.inr ⟨p.2, hrest⟩⟩
  · rintro ⟨hquiet, rfl | ⟨after, hrest⟩⟩
    · rw [cut?_eq_none_iff.mpr hquiet]
    · rw [cut?_sectionEnd.mpr ⟨hrest, hquiet⟩]

/-- What follows the section may be replaced. -/
theorem isSection_append (h : contains sectionEnd inside = false) (after : Text) :
    IsSection (inside ++ (sectionEnd ++ after)) inside := ⟨h, Or.inr ⟨after, rfl⟩⟩

theorem tableOf_perm (inside : Text) : (tableOf inside).Perm
    (labels.map fun label => (label.field, (addressOf? label false inside).getD [])) := by
  apply AddressTable.ofList_perm
  rw [List.map_map]
  exact (by decide : (labels.map Label.field).Nodup)

theorem section?_eq_some_iff : section? content header = some inside ↔
    ∃ before found rest, FirstPart (Titles header) content before found rest ∧ IsSection rest inside := by
  simp only [section?_eq, Option.map_eq_some_iff, (takes_afterFolded? header).search?_eq_some_iff,
    untilSection_eq_iff]
  constructor
  · rintro ⟨rest, ⟨before, found, _, hfirst, rfl⟩, hsection⟩
    exact ⟨before, found, rest, hfirst, hsection⟩
  · rintro ⟨before, found, rest, hfirst, hsection⟩
    exact ⟨rest, ⟨before, found, rest, hfirst, rfl⟩, hsection⟩

theorem read_of_section? (h : section? content header = some inside) :
    read content header = tableOf inside := by
  rw [read, h]
  rfl

theorem read_of_firstPart (hfirst : FirstPart (Titles header) content before found rest)
    (hsection : IsSection rest inside) : read content header = tableOf inside :=
  read_of_section? (section?_eq_some_iff.mpr ⟨before, found, rest, hfirst, hsection⟩)

/-- Headers that match each other have the same section. -/
theorem afterFolded?_congr {header' : Text} (h : Titles header header') :
    afterFolded? header' = afterFolded? header := by
  funext s
  refine Option.ext fun rest => ?_
  rw [takes_afterFolded? header' s rest, takes_afterFolded? header s rest]
  have hsame : ∀ found, Titles header' found ↔ Titles header found := by
    intro found
    rw [Titles, Titles, h]
  simp only [hsame]

/-- A page on which nothing matches the header lists nothing. Otherwise the table has the nine fields of
the labels and is that of the section, and it stays the same where other text without an earlier
match stands in front, the header is spelt in another letter case, or the text behind the `\n###`
that ends the section is replaced. -/
theorem read_located (content header : Text) :
    (Lacks (Titles header) content → read content header = []) ∧
    (¬ Lacks (Titles header) content → ∃ before found rest inside,
      FirstPart (Titles header) content before found rest ∧ IsSection rest inside) ∧
    ∀ before found rest inside, FirstPart (Titles header) content before found rest →
      IsSection rest inside →
      read content header = tableOf inside ∧
      ((read content header).map Prod.fst).Perm (labels.map Label.field) ∧
      (read content header).length = 9 ∧
      (∀ before', FirstPart (Titles header) (before' ++ (found ++ rest)) before' found rest →
        read (before' ++ (found ++ rest)) header = read content header) ∧
      (∀ header', Titles header header' → read content header' = read content header) ∧
      ∀ after', read (before ++ (found ++ (inside ++ (sectionEnd ++ after')))) header = read content header := by
  refine ⟨fun hlacks => ?_, fun hhas => ?_, fun before found rest inside hfirst hsection => ?_⟩
  · rw [read_eq, (takes_afterFolded? header).search?_eq_none_iff.mpr hlacks]
    rfl
  · obtain ⟨before, found, rest, hfirst⟩ := (takes_afterFolded? header).exists_first hhas
    exact ⟨before, found, rest, untilSection rest, hfirst, untilSection_eq_iff.mp rfl⟩
  · have hread := read_of_firstPart hfirst hsection
    have hkeys : ((read content header).map Prod.fst).Perm (labels.map Label.field) := by
      rw [hread]
      have := (tableOf_perm inside).map Prod.fst
      rwa [List.map_map] at this
    refine ⟨hread, hkeys, ?_, fun before' hfirst' => ?_, fun header' hheader => ?_, fun after' => ?_⟩
    · rw [← List.length_map (f := Prod.fst), hkeys.length_eq]
      rfl
    · exact (read_of_firstPart hfirst' hsection).trans hread.symm
    · rw [read_eq, read_eq, afterFolded?_congr hheader]
    · have hfirst' := hfirst.replace_after (fun f g hf hg => hf.length_eq hg)
        (inside ++ (sectionEnd ++ after'))
      have hsection' := isSection_append hsection.quiet after'
      exact (read_of_firstPart hfirst' hsection').trans hread.symm

def kelvinTitle : Text := "### [\u212Aovan]".toList

def repeatingSection : Text :=
  " (testnet)\nSetVerifier 0xABCDEFabcdef0123456789ABCDEFabcdef012345\n## see ### [kovan]".toList

def deeperHeading : Text := "# Notes\nSetVerifier: none\n".toList

theorem read_located_kelvin :
    let header := "### [Kovan]".toList
    let rest := repeatingSection ++ (sectionEnd ++ deeperHeading)
    let content := "# Page\n".toList ++ (kelvinTitle ++ rest)
    let other := "[Kovan]\n### Kovan\n".toList ++ (kelvinTitle ++ rest)
    Lacks (Titles header) "# Page\n".toList ∧ read "# Page\n".toList header = [] ∧
    FirstPart (Titles header) content "# Page\n".toList kelvinTitle rest ∧
    IsSection rest repeatingSection ∧ read content header = tableOf repeatingSection ∧
    FirstPart (Titles header) other "[Kovan]\n### Kovan\n".toList kelvinTitle rest ∧
    read other header = read content header ∧
    Titles header "### [KOVAN]".toList ∧ read content "### [KOVAN]".toList = read content header := by
  have hlacks : Lacks (Titles "### [Kovan]".toList) "# Page\n".toList := by decide +kernel
  have hfirst : FirstPart (Titles "### [Kovan]".toList)
      ("# Page\n".toList ++ (kelvinTitle ++ (repeatingSection ++ (sectionEnd ++ deeperHeading))))
      "# Page\n".toList kelvinTitle (repeatingSection ++ (sectionEnd ++ deeperHeading)) := by
    decide +kernel
  have hsection : IsSection (repeatingSection ++ (sectionEnd ++ deeperHeading)) repeatingSection :=
    isSection_append (by decide +kernel) deeperHeading
  have hother : FirstPart (Titles "### [Kovan]".toList)
      ("[Kovan]\n### Kovan\n".toList ++
        (kelvinTitle ++ (repeatingSection ++ (sectionEnd ++ deeperHeading))))
      "[Kovan]\n### Kovan\n".toList kelvinTitle (repeatingSection ++ (sectionEnd ++ deeperHeading)) := by
    decide +kernel
  have htitles : Titles "### [Kovan]".toList "### [KOVAN]".toList :=
    (by decide +kernel : "### [KOVAN]".toList.map fold = "### [Kovan]".toList.map fold)
  obtain ⟨hread, -, -, hbefore, hheader, -⟩ :=
    (read_located _ _).2.2 _ _ _ _ hfirst hsection
  exact ⟨hlacks, (read_located _ _).1 hlacks, hfirst, hsection, hread, hother, hbefore _ hother, htitles,
    hheader _ htitles⟩

end DeploymentRecords.Documentation
