import DeploymentRecords.Proofs.Attribution
import DeploymentRecords.Proofs.PageLines

/-! # Sections of a page

A page is written here as a preamble and sections, each a heading line and a body. A header finds the
first section whose heading line holds it and reads that section alone, so the order of sections
matters exactly as far as it decides which of several such sections comes first. -/

namespace DeploymentRecords

open Text

def headingMark : Text := "### ".toList

structure PageSection where
  name : Text
  body : Text
  name_oneLine : '\n' ∉ name
  body_ended : body = [] ∨ body.getLast? = some '\n'
  body_quiet : contains "###".toList body = false
  deriving DecidableEq

namespace PageSection

def heading (sec : PageSection) : Text := headingMark ++ sec.name

def text (sec : PageSection) : Text := sec.heading ++ '\n' :: sec.body

def IsUnder (header : Text) (sec : PageSection) : Prop := HoldsFolded header sec.heading

instance (header : Text) (sec : PageSection) : Decidable (sec.IsUnder header) :=
  inferInstanceAs (Decidable (HoldsFolded _ _))

end PageSection

structure Page where
  preamble : Text
  sections : List PageSection
  preamble_quiet : contains "###".toList preamble = false
  names_nodup : (sections.map PageSection.name).Nodup

namespace Page

def text (page : Page) : Text := page.preamble ++ page.sections.flatMap PageSection.text

def firstUnder (page : Page) (header : Text) : Option PageSection :=
  page.sections.find? fun sec => sec.IsUnder header

end Page

def AtHeading (s : Text) : Prop := s = [] ∨ ∃ t, s = headingMark ++ t

theorem atHeading_sections (sections : List PageSection) :
    AtHeading (sections.flatMap PageSection.text) := by
  cases sections with
  | nil => exact Or.inl rfl
  | cons sec sections =>
    refine Or.inr ⟨sec.name ++ '\n' :: sec.body ++ sections.flatMap PageSection.text, ?_⟩
    rw [List.flatMap_cons, PageSection.text, PageSection.heading]
    simp

structure IsHeader (header : Text) : Prop where
  marked : ∃ name, header = headingMark ++ name
  oneLine : '\n' ∉ header

theorem IsHeader.ne_nil {header : Text} (h : IsHeader header) : header ≠ [] := by
  obtain ⟨name, rfl⟩ := h.marked
  simp [headingMark]

variable {header s : Text}

theorem mark_of_afterFolded? {rest : Text} (h : IsHeader header)
    (hread : afterFolded? header s = some rest) : ∃ t, s = headingMark ++ t := by
  obtain ⟨name, rfl⟩ := h.marked
  obtain ⟨found, rfl, hfound⟩ := afterFolded?_eq_some hread
  obtain ⟨mark, tail, rfl, hmark, -⟩ := List.map_eq_append_iff.mp (hfound.trans List.map_append)
  have hfold : ∀ d ∈ headingMark, ∀ c, fold c = fold d → c = d := by
    intro d hd c hc
    have hd' : d = '#' ∨ d = ' ' := by simpa [headingMark] using hd
    rcases hd' with rfl | rfl
    · exact eq_of_fold_eq (by decide) (by decide) (by decide +kernel) hc
    · exact eq_of_fold_eq (by decide) (by decide) (by decide +kernel) hc
  have heq : mark = headingMark := by
    clear hfound hread
    generalize headingMark = target at hmark hfold
    induction target generalizing mark with
    | nil => simpa using hmark
    | cons d target ih =>
      obtain ⟨c, mark, rfl, hc, hrest⟩ := List.map_eq_cons_iff.mp hmark
      rw [List.forall_mem_cons] at hfold
      rw [hfold.1 c hc, ih mark hrest hfold.2]
  exact ⟨tail ++ rest, by rw [heq, List.append_assoc]⟩

/-- A header is not found in a text without marks, not even with the mark of a heading behind it. -/
theorem search?_quiet_page {quiet : Text} (h : IsHeader header)
    (hquiet : contains "###".toList quiet = false) (hs : AtHeading s) :
    search? (afterFolded? header) (quiet ++ s) = search? (afterFolded? header) s := by
  apply search?_append
  intro a b hab hb
  cases hread : afterFolded? header (b ++ s) with
  | none => rfl
  | some rest =>
    exfalso
    obtain ⟨t, ht⟩ := mark_of_afterFolded? h hread
    have hno : ∀ r, b ≠ '#' :: '#' :: '#' :: r := by
      rintro r rfl
      rw [contains_iff.mpr ⟨a, r, by simp [hab]⟩] at hquiet
      cases hquiet
    rcases hs with rfl | ⟨u, rfl⟩
    · rw [List.append_nil] at ht
      exact hno _ ht
    · -- a mark that begins in `b` and ends behind it would have `#` for its blank
      match b, hb with
      | [c], _ => simp [headingMark] at ht
      | [c, d], _ => simp [headingMark] at ht
      | c :: d :: e :: r, _ =>
        simp only [headingMark, String.reduceToList, List.cons_append, List.nil_append,
          List.cons.injEq] at ht
        obtain ⟨rfl, rfl, rfl, -⟩ := ht
        exact hno r rfl

namespace Documentation

theorem untilSection_quiet {quiet : Text} (hquiet : contains "###".toList quiet = false) (s : Text) :
    untilSection (quiet ++ '\n' :: s) =
      if (Text.after? "###".toList s).isSome then quiet else quiet ++ '\n' :: untilSection s := by
  have hcut : cut? sectionEnd quiet = none := by
    cases hc : cut? sectionEnd quiet with
    | none => rfl
    | some p =>
      obtain ⟨before, rest⟩ := p
      rw [contains_iff.mpr ⟨before ++ ['\n'], rest, by rw [eq_of_cut? hc]; simp [sectionEnd]⟩] at hquiet
      cases hquiet
  rw [untilSection_append, hcut]
  rfl

theorem addressOf?_section {label : Label} (hlabel : label ∈ labels) (sec : PageSection)
    (hs : AtHeading s) (rest : Text) :
    addressOf? label false (untilSection (rest ++ '\n' :: (sec.body ++ s))) =
      addressOf? label false (untilSection (rest ++ '\n' :: sec.body)) := by
  have hnil : untilSection [] = [] := rfl
  have hmark : ∀ t, (Text.after? "###".toList (headingMark ++ t)).isSome = true := fun _ => rfl
  have hend : ∀ x, addressOf? label false (x ++ ['\n']) = addressOf? label false x := by
    intro x
    rw [addressOf?_append hlabel]
    exact Option.or_none
  rw [untilSection_append, untilSection_append]
  -- the section may end in `rest` already, and then what follows does not matter
  by_cases hcut : (cut? sectionEnd rest).isSome = true
  · rw [if_pos hcut, if_pos hcut]
  rw [if_neg hcut, if_neg hcut]
  rcases sec.body_ended with hbody | hbody
  · rw [hbody, List.nil_append]
    rcases hs with rfl | ⟨t, rfl⟩
    · rfl
    · rw [if_pos (hmark t)]
      exact (hend rest).symm
  · obtain ⟨body, hbody⟩ := List.getLast?_eq_some_iff.mp hbody
    have hquiet : contains "###".toList body = false := by
      have := sec.body_quiet
      rw [hbody, contains_append_cons (by decide) (by decide), Bool.or_eq_false_iff] at this
      exact this.1
    have hstart : ∀ t, Text.after? "###".toList (body ++ '\n' :: t) = none := by
      intro t
      rw [local_after? (by decide) body t]
      cases ha : Text.after? "###".toList body with
      | none => rfl
      | some r =>
        rw [contains_iff.mpr ⟨[], r, by simpa using after?_eq_some_iff.mp ha⟩] at hquiet
        cases hquiet
    have hassoc : body ++ ['\n'] ++ s = body ++ '\n' :: s := by simp
    rw [hbody, hassoc, hstart, hstart, untilSection_quiet hquiet, untilSection_quiet hquiet]
    rcases hs with rfl | ⟨t, rfl⟩
    · rfl
    · simp only [Option.isSome_none, Bool.false_eq_true, if_false, hmark, if_true]
      rw [show Text.after? "###".toList [] = none from rfl, hnil]
      simp only [Option.isSome_none, Bool.false_eq_true, if_false]
      rw [addressOf?_append hlabel, addressOf?_append hlabel, hend]

/-- A header reads the section whose heading holds it, as if nothing followed it, and passes over any
other. -/
theorem read_section (h : IsHeader header) (sec : PageSection) (hs : AtHeading s) :
    read (sec.text ++ s) header =
      if sec.IsUnder header then read sec.text header else read s header := by
  have hsearch : ∀ t, AtHeading t → search? (afterFolded? header) (sec.text ++ t) =
      ((search? (afterFolded? header) sec.heading).map (· ++ '\n' :: (sec.body ++ t))).or
        (search? (afterFolded? header) t) := by
    intro t ht
    rw [PageSection.text, List.append_assoc, List.cons_append, search?_header h.ne_nil h.oneLine,
      search?_quiet_page h sec.body_quiet ht]
  have hself := hsearch [] (Or.inl rfl)
  rw [List.append_nil, List.append_nil] at hself
  rw [read_eq, read_eq, read_eq, hsearch s hs, hself]
  by_cases hunder : sec.IsUnder header
  · obtain ⟨rest, hrest⟩ := Option.isSome_iff_exists.mp (holdsFolded_iff.mp hunder)
    simp only [if_pos hunder, hrest, Option.map_some, Option.some_or, Option.getD_some]
    exact tableOf_congr fun label hlabel => addressOf?_section hlabel sec hs rest
  · rw [if_neg hunder, Option.not_isSome_iff_eq_none.mp (mt holdsFolded_iff.mpr hunder)]
    rfl

theorem read_sections (h : IsHeader header) (sections : List PageSection) :
    read (sections.flatMap PageSection.text) header =
      ((sections.find? fun sec => sec.IsUnder header).map fun sec => read sec.text header).getD [] := by
  induction sections with
  | nil =>
    rw [List.flatMap_nil, read_eq, search?, afterFolded?_nil h.ne_nil]
    rfl
  | cons sec sections ih =>
    rw [List.flatMap_cons, read_section h sec (atHeading_sections sections), List.find?_cons, ih]
    by_cases hunder : sec.IsUnder header
    · simp [hunder]
    · simp [hunder]

/-- A header reads nothing of a page but the first section under it. -/
theorem read_page (h : IsHeader header) (page : Page) : read page.text header =
    ((page.firstUnder header).map fun sec => read sec.text header).getD [] := by
  rw [read_eq, Page.text, search?_quiet_page h page.preamble_quiet (atHeading_sections _), ← read_eq,
    read_sections h, Page.firstUnder]

end Documentation

/-- A placeholder stands in the preamble or in one of the sections. -/
theorem contains_sections (a : Text) (sections : List PageSection) :
    contains "TODO".toList (a ++ sections.flatMap PageSection.text) =
      (contains "TODO".toList a || sections.any fun sec => contains "TODO".toList sec.text) := by
  induction sections generalizing a with
  | nil => simp
  | cons sec sections ih =>
    let tail := "## ".toList ++ sec.name ++ '\n' :: sec.body
    have htext : sec.text = '#' :: tail := by
      simp [PageSection.text, PageSection.heading, headingMark, tail]
    have hsec : contains "TODO".toList sec.text = contains "TODO".toList tail := by
      rw [htext, ← List.nil_append ('#' :: tail), contains_append_cons (by decide) (by decide)]
      rfl
    rw [List.flatMap_cons, List.any_cons, hsec, htext, List.cons_append,
      contains_append_cons (by decide) (by decide), ih]

def Plan.headers (plan : Plan) : List Text :=
  plan.groups.flatMap fun group => group.networks.filterMap Network.header

theorem Plan.isHeader_standard : ∀ header ∈ standard.headers, IsHeader header := by
  intro header hheader
  have hlist : header ∈ ["### Base".toList, "### Base Sepolia".toList, "### Ethereum Sepolia".toList] :=
    hheader
  simp only [List.mem_cons, List.not_mem_nil, or_false] at hlist
  rcases hlist with rfl | rfl | rfl
  · exact ⟨⟨"Base".toList, rfl⟩, by decide⟩
  · exact ⟨⟨"Base Sepolia".toList, rfl⟩, by decide⟩
  · exact ⟨⟨"Ethereum Sepolia".toList, rfl⟩, by decide⟩

/-- Two pages of the same sections make the same report if each header of the standard plan finds the
same section first in both; what it finds there is what this section lists on its own. -/
theorem audit_sections_perm (records : Records) {page page' : Page}
    (hplain : contains "TODO".toList page.text = false) (hpreamble : page'.preamble = page.preamble)
    (hperm : page'.sections.Perm page.sections)
    (hfirst : ∀ header ∈ Plan.standard.headers, page'.firstUnder header = page.firstUnder header) :
    Plan.standard.audit { records with documentation := page'.text } =
        Plan.standard.audit { records with documentation := page.text } ∧
      ∀ header ∈ Plan.standard.headers, Documentation.read page'.text header =
        ((page.firstUnder header).map fun sec => Documentation.read sec.text header).getD [] := by
  have hread : ∀ header ∈ Plan.standard.headers, Documentation.read page'.text header =
      ((page.firstUnder header).map fun sec => Documentation.read sec.text header).getD [] := by
    intro header hheader
    rw [Documentation.read_page (Plan.isHeader_standard header hheader), hfirst header hheader]
  refine ⟨?_, hread⟩
  have hplain' : contains "TODO".toList page'.text = false := by
    rw [Page.text, contains_sections] at hplain ⊢
    rw [hpreamble, hperm.any_eq]
    exact hplain
  have hnetworks : ∀ group ∈ Plan.standard.groups, ∀ network ∈ group.networks,
      Audit.ofNetwork Plan.standard { records with documentation := page'.text } group network =
        Audit.ofNetwork Plan.standard { records with documentation := page.text } group network := by
    intro group hgroup network hnetwork
    refine Audit.ofNetwork_congr (fun _ => rfl) rfl fun header hheader => ?_
    have hmem : header ∈ Plan.standard.headers :=
      List.mem_flatMap.mpr ⟨group, hgroup, List.mem_filterMap.mpr ⟨network, hnetwork, hheader⟩⟩
    exact (hread header hmem).trans (Documentation.read_page (Plan.isHeader_standard header hmem) page).symm
  rw [Plan.audit, Plan.audit, Documentation.placeholders_eq_nil hplain,
    Documentation.placeholders_eq_nil hplain']
  exact congrArg Audit.mk (congrArg ([] ++ ·)
    (List.flatMap_congr fun group hgroup => List.flatMap_congr (hnetworks group hgroup)))

def baseSection : PageSection :=
  ⟨"base mainnet".toList, "| CollateralToken | pending |\n".toList, by decide, by decide, by decide⟩

def sepoliaSection : PageSection :=
  ⟨"Base Sepolia".toList, "SetVerifier 0xABCDEFabcdef0123456789ABCDEFabcdef01234567\n".toList,
    by decide, by decide, by decide⟩

def ethereumSection : PageSection :=
  ⟨"Ethereum Sepolia (## Base)".toList, [], by decide, by decide, by decide⟩

def orderedPage : Page :=
  ⟨"# Deployments\n".toList, [baseSection, sepoliaSection, ethereumSection], by decide, by decide⟩

def rotatedPage : Page :=
  ⟨"# Deployments\n".toList, [ethereumSection, baseSection, sepoliaSection], by decide, by decide⟩

def reversedPage : Page :=
  ⟨"# Deployments\n".toList, [ethereumSection, sepoliaSection, baseSection], by decide, by decide⟩

theorem audit_rotatedPage :
    contains "TODO".toList orderedPage.text = false ∧
    rotatedPage.sections.Perm orderedPage.sections ∧
    (∀ header ∈ Plan.standard.headers,
      rotatedPage.firstUnder header = orderedPage.firstUnder header) ∧
    Plan.standard.audit ⟨[], [], rotatedPage.text⟩ = Plan.standard.audit ⟨[], [], orderedPage.text⟩ := by
  have hplain : contains "TODO".toList orderedPage.text = false := by decide
  have hpreamble : rotatedPage.preamble = orderedPage.preamble := rfl
  have hperm : rotatedPage.sections.Perm orderedPage.sections := by decide
  have hfirst : ∀ header ∈ Plan.standard.headers,
      rotatedPage.firstUnder header = orderedPage.firstUnder header := by decide +kernel
  exact ⟨hplain, hperm, hfirst, (audit_sections_perm ⟨[], [], []⟩ hplain hpreamble hperm hfirst).1⟩

/-- In front of the mainnet the section of the test network is read for both. -/
theorem audit_reversedPage :
    contains "TODO".toList orderedPage.text = false ∧ reversedPage.preamble = orderedPage.preamble ∧
    reversedPage.sections.Perm orderedPage.sections ∧
    Plan.standard.audit ⟨[], [], reversedPage.text⟩ ≠ Plan.standard.audit ⟨[], [], orderedPage.text⟩ :=
  ⟨by decide, rfl, by decide, by decide +kernel⟩

end DeploymentRecords
