import DeploymentRecords.Proofs.Attribution
import DeploymentRecords.Proofs.Listings

/-! # A line more

A placeholder line that names no contract, opens no section and holds no header adds itself to what
an audit finds, at its place among the placeholders, and nothing else: it may stand before, between,
inside or behind sections. -/

namespace DeploymentRecords

open Text

namespace Text

variable {l : Text}

theorem lines_line (hl : '\n' ∉ l) (hr : '\r' ∉ l) (s : Text) : lines (l ++ '\n' :: s) = l :: lines s := by
  induction l with
  | nil => rfl
  | cons c l ih =>
    simp only [List.mem_cons, not_or] at hl hr
    exact lines_cons (Ne.symm hl.1) (fun h => absurd h.symm hr.1) (ih hl.2 hr.2)

end Text

namespace Documentation

variable {label : Label} {header a b line : Text}

/-- The text holds the name of a label, as a word of its own if the label is one. -/
def Label.Matches (label : Label) (s : Text) : Prop :=
  ∃ before after, s = before ++ (label.name ++ after) ∧
    (label.whole = true → Stops isWord before.reverse ∧ Stops isWord after)

theorem Label.contains_of_matches {s : Text} (h : label.Matches s) : contains label.name s = true := by
  obtain ⟨before, after, rfl, -⟩ := h
  exact contains_iff.mpr ⟨before, after, by simp⟩

theorem addressOf?_eq_none (h : ¬ label.Matches line) : addressOf? label false line = none := by
  rw [addressOf?_eq_none_iff_unlisted]
  rintro ⟨l⟩
  exact h ⟨l.before, _, l.split, l.apart⟩

/-- A line that the searches of a page pass over. -/
structure Passed (header line : Text) : Prop where
  oneLine : '\n' ∉ line
  noHeading : ¬ ∃ rest, line = "###".toList ++ rest
  unlabelled : ∀ label ∈ labels, ¬ label.Matches line
  untitled : ¬ HoldsFolded header line

theorem untilSection_line (hline : '\n' ∉ line) (h : ¬ ∃ rest, line = "###".toList ++ rest) (s b : Text) :
    untilSection (s ++ '\n' :: (line ++ '\n' :: b)) =
      if (cut? sectionEnd s).isSome then untilSection s
      else s ++ '\n' :: (if (Text.after? "###".toList b).isSome then line
        else line ++ '\n' :: untilSection b) := by
  have hcut : cut? sectionEnd line = none :=
    cut?_eq_none_iff.mpr (not_contains_of_not_mem (by decide) hline)
  have hheading : Text.after? "###".toList (line ++ '\n' :: b) = none := by
    cases ha : Text.after? "###".toList line with
    | none => rw [local_after? (by decide) line b, ha, Option.map_none]
    | some rest => exact absurd ⟨rest, after?_eq_some_iff.mp ha⟩ h
  rw [untilSection_append, hheading, untilSection_append, hcut]
  rfl

/-- Inside a section the line adds no address. -/
theorem addressOf?_insert {label : Label} (hlabel : label ∈ labels) (hline : '\n' ∉ line)
    (hheading : ¬ ∃ rest, line = "###".toList ++ rest) (hmatches : ¬ label.Matches line) (s b : Text) :
    addressOf? label false (untilSection (s ++ '\n' :: (line ++ '\n' :: b))) =
      addressOf? label false (untilSection (s ++ '\n' :: b)) := by
  rw [untilSection_line hline hheading, untilSection_append]
  split
  · rfl
  · split
    · rw [addressOf?_append hlabel, addressOf?_eq_none hmatches, Option.or_none]
    · rw [addressOf?_append hlabel, addressOf?_append hlabel, addressOf?_append hlabel,
        addressOf?_eq_none hmatches, Option.none_or]

/-- Wherever it stands, a line that is passed over leaves the table under a header as it is. -/
theorem read_insert (hne : header ≠ []) (hheader : '\n' ∉ header) (hline : Passed header line)
    (ha : a = [] ∨ a.getLast? = some '\n') :
    read (a ++ (line ++ '\n' :: b)) header = read (a ++ b) header := by
  have hskip : search? (afterFolded? header) (line ++ '\n' :: b) = search? (afterFolded? header) b := by
    rw [search?_header hne hheader, Option.not_isSome_iff_eq_none.mp (mt holdsFolded_iff.mpr hline.untitled)]
    rfl
  rcases ha with rfl | ha
  · rw [List.nil_append, List.nil_append, read_eq, read_eq, hskip]
  · obtain ⟨s, rfl⟩ := List.getLast?_eq_some_iff.mp ha
    have hassoc : ∀ t, s ++ ['\n'] ++ t = s ++ '\n' :: t := fun t => by simp
    rw [hassoc, hassoc, read_eq, read_eq, search?_header hne hheader s, hskip,
      search?_header hne hheader s]
    cases search? (afterFolded? header) s with
    | none => rfl
    | some rest =>
      -- the header stands in front of the line, which may be in its section
      simp only [Option.map_some, Option.some_or, Option.getD_some]
      exact tableOf_congr fun label hlabel => addressOf?_insert hlabel hline.oneLine hline.noHeading
        (hline.unlabelled label hlabel) rest b

theorem placeholders_insert (hline : '\n' ∉ line ∧ '\r' ∉ line) (hmark : contains placeholderMark line = true)
    (ha : a = [] ∨ a.getLast? = some '\n') :
    placeholders (a ++ (line ++ '\n' :: b)) = placeholders a ++ line :: placeholders b ∧
      placeholders (a ++ b) = placeholders a ++ placeholders b := by
  have hsplit : ∀ t, placeholders (a ++ t) = placeholders a ++ placeholders t := by
    intro t
    rcases ha with rfl | ha
    · rfl
    · obtain ⟨s, rfl⟩ := List.getLast?_eq_some_iff.mp ha
      rw [List.append_assoc, List.singleton_append, placeholders, lines_append_newline,
        List.filter_append]
      rfl
  refine ⟨?_, hsplit b⟩
  have hfirst : placeholders (line ++ '\n' :: b) = line :: placeholders b := by
    rw [placeholders, lines_line hline.1 hline.2, List.filter_cons_of_pos hmark, placeholders]
  rw [hsplit, hfirst]

end Documentation

theorem disagreements_audit (plan : Plan) (records : Records) :
    (plan.audit records).disagreements = (plan.groups.flatMap fun group =>
      group.networks.flatMap fun network => Audit.ofNetwork plan records group network).filter
        fun finding => !finding.isPlaceholder := by
  rw [Audit.disagreements, Plan.audit, List.filter_append, List.filter_eq_nil_iff.mpr, List.nil_append]
  intro finding hfinding
  obtain ⟨line, -, rfl⟩ := List.mem_map.mp hfinding
  simp [Finding.isPlaceholder]

/-- A placeholder line that is nothing else to an audit. -/
structure PlaceholderLine (plan : Plan) (line : Text) : Prop where
  marked : ∃ before after, line = before ++ "TODO".toList ++ after
  oneLine : '\n' ∉ line ∧ '\r' ∉ line
  noHeading : ¬ ∃ rest, line = "###".toList ++ rest
  unlabelled : ∀ label ∈ Documentation.labels, ¬ label.Matches line
  untitled : ∀ group ∈ plan.groups, ∀ network ∈ group.networks, ∀ header,
    network.header = some header → ¬ HoldsFolded header line

theorem insertIdx_length {α : Type} (x : α) (xs ys : List α) :
    (xs ++ ys).insertIdx xs.length x = xs ++ x :: ys := by
  induction xs with
  | nil => rfl
  | cons y xs ih => rw [List.cons_append, List.length_cons, List.insertIdx_succ_cons, ih]; rfl

/-- A placeholder line adds one finding, behind those of the placeholders above it, and leaves all
that is said about addresses as it is. -/
theorem audit_insert_placeholder (plan : Plan) (records : Records) {a b line : Text}
    (hheaders : ∀ group ∈ plan.groups, ∀ network ∈ group.networks, ∀ header,
      network.header = some header → header ≠ [] ∧ '\n' ∉ header)
    (ha : a = [] ∨ a.getLast? = some '\n') (hline : PlaceholderLine plan line) :
    let before := plan.audit { records with documentation := a ++ b }
    let after := plan.audit { records with documentation := a ++ (line ++ '\n' :: b) }
    after.findings = before.findings.insertIdx
        ((lines a).countP fun l => contains "TODO".toList l) (.placeholder line) ∧
      after.disagreements = before.disagreements := by
  intro before after
  have hmark : contains Documentation.placeholderMark line = true := contains_iff.mpr hline.marked
  obtain ⟨hafter, hbefore⟩ := Documentation.placeholders_insert (b := b) hline.oneLine hmark ha
  have hnetworks : ∀ group ∈ plan.groups, ∀ network ∈ group.networks,
      Audit.ofNetwork plan { records with documentation := a ++ (line ++ '\n' :: b) } group network =
        Audit.ofNetwork plan { records with documentation := a ++ b } group network := by
    intro group hgroup network hnetwork
    refine Audit.ofNetwork_congr (fun _ => rfl) rfl fun header hheader => ?_
    obtain ⟨hne, hnewline⟩ := hheaders group hgroup network hnetwork header hheader
    exact Documentation.read_insert hne hnewline
      ⟨hline.oneLine.1, hline.noHeading, hline.unlabelled,
        hline.untitled group hgroup network hnetwork header hheader⟩ ha
  have haddresses : (plan.groups.flatMap fun group => group.networks.flatMap fun network =>
        Audit.ofNetwork plan { records with documentation := a ++ (line ++ '\n' :: b) } group network) =
      plan.groups.flatMap fun group => group.networks.flatMap fun network =>
        Audit.ofNetwork plan { records with documentation := a ++ b } group network :=
    List.flatMap_congr fun group hgroup => List.flatMap_congr (hnetworks group hgroup)
  have hcount : (lines a).countP (fun l => contains "TODO".toList l) =
      ((Documentation.placeholders a).map Finding.placeholder).length := by
    rw [List.length_map, Documentation.placeholders, List.countP_eq_length_filter]
    rfl
  constructor
  · simp only [after, before, Plan.audit, hafter, hbefore, haddresses, List.map_append, List.map_cons,
      List.append_assoc, List.cons_append, hcount, insertIdx_length]
  · rw [disagreements_audit, disagreements_audit, haddresses]

def reviewNote : Text := "## base: TODO review 0x0b144e07a0826182b6b59788c34b32bfa86fb711".toList

def reviewedSection : Text := "TODO\n### Base\nSetVerifier,\n".toList

def nextSection : Text := "### Base Sepolia\nSetVerifier, TODO\n".toList

theorem audit_insert_reviewNote :
    PlaceholderLine Plan.standard reviewNote ∧
    (Plan.standard.audit ⟨[], [], reviewedSection ++ (reviewNote ++ '\n' :: nextSection)⟩).findings =
      (Plan.standard.audit ⟨[], [], reviewedSection ++ nextSection⟩).findings.insertIdx
        1 (.placeholder reviewNote) := by
  have hheading : after? "###".toList reviewNote = none := by decide
  have hnames : ∀ label ∈ Documentation.labels, contains label.name reviewNote = false := by decide
  have hline : PlaceholderLine Plan.standard reviewNote :=
    { marked := ⟨"## base: ".toList, _, rfl⟩
      oneLine := by decide
      noHeading := fun ⟨rest, hrest⟩ => by
        rw [after?_eq_some_iff.mpr hrest] at hheading
        cases hheading
      unlabelled := fun label hlabel hmatches => by
        have hfound := Documentation.Label.contains_of_matches hmatches
        rw [hnames label hlabel] at hfound
        cases hfound
      untitled := by decide +kernel }
  exact ⟨hline, (audit_insert_placeholder Plan.standard ⟨[], [], []⟩ (by decide) (Or.inr (by decide)) hline).1⟩

end DeploymentRecords
