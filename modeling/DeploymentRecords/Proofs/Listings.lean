import DeploymentRecords.Proofs.LocatedSections

/-! # What a section lists under a label

A listing is a place in a section: a label, a gap without line feeds and an address. The field of a label
has the address of the first listing, the one whose label stands farthest in front and of these the one
whose address does; without a listing it is empty. A label without an address on its line is thus passed
over, and no address comes from another line or from in front of its label. -/

namespace DeploymentRecords

open Text Number

namespace Address

def Written (s : Text) : Prop :=
  ∃ digits : Text, digits.length = digitCount ∧ digits.all isHexDigit = true ∧ s = '0' :: 'x' :: digits

variable {s : Text}

theorem read?_eq_some_iff {a : Text × Text} : read? s = some a ↔
    ∃ literal after, s = literal ++ after ∧ Written literal ∧ a = (lower literal, after) := by
  constructor
  · intro h
    obtain ⟨address, after⟩ := a
    obtain ⟨digits, hlength, hdigits, rfl, rfl⟩ := eq_of_read? h
    refine ⟨'0' :: 'x' :: digits, after, rfl, ⟨digits, hlength, hdigits, rfl⟩, ?_⟩
    rw [← SourceTable.lower_digits hdigits]
    rfl
  · rintro ⟨_, after, rfl, ⟨digits, hlength, hdigits, rfl⟩, rfl⟩
    exact SourceTable.read?_digits hlength hdigits after

instance : Decidable (Written s) := decidable_of_iff (read? s = some (lower s, [])) (by
  rw [read?_eq_some_iff]
  constructor
  · rintro ⟨literal, after, hs, hwritten, ha⟩
    obtain rfl : after = [] := (Prod.mk.inj ha).2.symm
    rwa [hs, List.append_nil]
  · intro h
    exact ⟨s, [], (List.append_nil s).symm, h, rfl⟩)

theorem takes_read? : Takes (fun s => (read? s).map (·.1)) Written fun literal _ => lower literal := by
  intro s a
  simp only [Option.map_eq_some_iff, read?_eq_some_iff]
  constructor
  · rintro ⟨_, ⟨literal, after, hs, hwritten, rfl⟩, rfl⟩
    exact ⟨literal, after, hs, hwritten, rfl⟩
  · rintro ⟨literal, after, hs, hwritten, rfl⟩
    exact ⟨_, ⟨literal, after, hs, hwritten, rfl⟩, rfl⟩

theorem Written.length (h : Written s) : s.length = digitCount + 2 := by
  obtain ⟨digits, hlength, -, rfl⟩ := h
  rw [List.length_cons, List.length_cons, hlength]

theorem Written.ne_nil (h : Written s) : s ≠ [] := by
  obtain ⟨digits, -, -, rfl⟩ := h
  exact List.cons_ne_nil _ _

theorem Written.oneLine (h : Written s) : '\n' ∉ s := by
  obtain ⟨digits, -, hdigits, rfl⟩ := h
  intro hmem
  simp only [List.mem_cons] at hmem
  rcases hmem with hmem | hmem | hmem
  · cases hmem
  · cases hmem
  · exact absurd (List.all_eq_true.mp hdigits '\n' hmem) (by decide)

end Address

namespace Documentation

open Address

variable {label : Label} {content header inside before s : Text}

/-- An address behind a label on the line of the label, which is a word of its own if it is a whole
one; the ends of the section count as ends of words. -/
structure Listing (label : Label) (inside : Text) where
  before : Text
  gap : Text
  literal : Text
  after : Text
  split : inside = before ++ (label.name ++ (gap ++ (literal ++ after)))
  apart : label.whole = true → Stops isWord before.reverse ∧ Stops isWord (gap ++ (literal ++ after))
  oneLine : '\n' ∉ gap
  written : Written literal

/-- No listing has its label farther in front, and none of the same label its address. -/
def Listing.IsFirst (l : Listing label inside) : Prop :=
  ∀ other : Listing label inside, l.before.length ≤ other.before.length ∧
    (other.before.length = l.before.length → l.gap.length ≤ other.gap.length)

theorem takeWhile_line {x : Text} (hx : '\n' ∉ x) (y : Text) :
    (x ++ y).takeWhile (· ≠ '\n') = x ++ y.takeWhile (· ≠ '\n') := by
  apply List.takeWhile_append_of_pos
  intro c hc
  have hne : c ≠ '\n' := fun h => hx (h ▸ hc)
  simpa using hne

theorem line_split {gap literal : Text} (hwritten : Written literal) :
    (∃ after, s.takeWhile (· ≠ '\n') = gap ++ (literal ++ after)) ↔
      '\n' ∉ gap ∧ ∃ after, s = gap ++ (literal ++ after) := by
  constructor
  · rintro ⟨after, hline⟩
    refine ⟨fun hmem => ?_, after ++ s.dropWhile (· ≠ '\n'), ?_⟩
    · have hall := List.all_eq_true.mp (List.all_takeWhile (l := s) (p := (· ≠ '\n'))) '\n'
        (by rw [hline]; exact List.mem_append_left _ hmem)
      simp at hall
    · calc s = s.takeWhile (· ≠ '\n') ++ s.dropWhile (· ≠ '\n') :=
          List.takeWhile_append_dropWhile.symm
        _ = gap ++ (literal ++ (after ++ s.dropWhile (· ≠ '\n'))) := by rw [hline]; simp
  · rintro ⟨hgap, after, rfl⟩
    rw [takeWhile_line hgap, takeWhile_line hwritten.oneLine]
    exact ⟨_, rfl⟩

theorem addressOnLine?_eq_none_iff : addressOnLine? s = none ↔
    ∀ gap literal after, s = gap ++ (literal ++ after) → '\n' ∉ gap → ¬ Written literal := by
  rw [addressOnLine?, takes_read?.search?_eq_none_iff]
  constructor
  · intro hlacks gap literal after hs hgap hwritten
    obtain ⟨after', hline⟩ := (line_split hwritten).mpr ⟨hgap, after, hs⟩
    exact hlacks gap literal after' hline hwritten
  · intro hnone gap literal after hline hwritten
    obtain ⟨hgap, after', hs⟩ := (line_split hwritten).mp ⟨after, hline⟩
    exact hnone gap literal after' hs hgap hwritten

theorem first_of_addressOnLine? {a : Text} (h : addressOnLine? s = some a) :
    ∃ gap literal after, s = gap ++ (literal ++ after) ∧ '\n' ∉ gap ∧ Written literal ∧
      a = lower literal ∧ ∀ g l t, s = g ++ (l ++ t) → '\n' ∉ g → Written l → gap.length ≤ g.length := by
  rw [addressOnLine?, takes_read?.search?_eq_some_iff] at h
  obtain ⟨gap, literal, after, hpart, rfl⟩ := h
  obtain ⟨hgap, after', hs⟩ := (line_split hpart.holds).mp ⟨after, hpart.split⟩
  refine ⟨gap, literal, after', hs, hgap, hpart.holds, rfl, fun g l t hs' hg hl => ?_⟩
  obtain ⟨t', hline⟩ := (line_split hl).mpr ⟨hg, t, hs'⟩
  exact hpart.first g l t' hline hl

theorem startsWord_eq_false_iff : startsWord s = false ↔ Stops isWord s := by
  cases s with
  | nil => simp [startsWord]
  | cons c s => simp [startsWord]

theorem Label.after?_behind_iff {rest : Text} : label.after? (startsWord before.reverse) s = some rest ↔
    s = label.name ++ rest ∧ (label.whole = true → Stops isWord before.reverse ∧ Stops isWord rest) := by
  rw [← startsWord_eq_false_iff, ← startsWord_eq_false_iff, Label.after?]
  constructor
  · intro h
    split at h
    · cases h
    · next t hname =>
      split at h
      · cases h
      · next hapart =>
        obtain rfl := Option.some.inj h
        refine ⟨Text.after?_eq_some_iff.mp hname, fun hwhole => ?_⟩
        simpa [hwhole] using hapart
  · rintro ⟨rfl, hapart⟩
    rw [Text.after?_append]
    refine if_neg ?_
    rintro ⟨hwhole, hword⟩
    obtain ⟨hbefore, hrest⟩ := hapart hwhole
    rw [hbefore, hrest] at hword
    simp at hword

theorem Listing.before_eq (l : Listing label inside) (h : inside = before ++ s)
    (hlength : l.before.length = before.length) :
    l.before = before ∧ s = label.name ++ (l.gap ++ (l.literal ++ l.after)) := by
  obtain ⟨hbefore, hs⟩ := List.append_inj (h.symm.trans l.split) hlength.symm
  exact ⟨hbefore.symm, hs⟩

/-- No address stands behind a label at this place exactly if no listing begins here. -/
theorem here_eq_none_iff (h : inside = before ++ s) :
    (label.after? (startsWord before.reverse) s).bind addressOnLine? = none ↔
      ∀ l : Listing label inside, l.before.length ≠ before.length := by
  rw [Option.bind_eq_none_iff]
  constructor
  · intro hnone l hlength
    obtain ⟨rfl, hs⟩ := l.before_eq h hlength
    have hline := hnone _ (Label.after?_behind_iff.mpr ⟨hs, l.apart⟩)
    exact addressOnLine?_eq_none_iff.mp hline l.gap l.literal l.after rfl l.oneLine l.written
  · intro hno rest hrest
    obtain ⟨rfl, hapart⟩ := Label.after?_behind_iff.mp hrest
    rw [addressOnLine?_eq_none_iff]
    rintro gap literal after rfl hgap hwritten
    exact hno ⟨before, gap, literal, after, h, hapart, hgap, hwritten⟩ rfl

theorem exists_here {a : Text} (h : inside = before ++ s)
    (ha : (label.after? (startsWord before.reverse) s).bind addressOnLine? = some a) :
    ∃ l : Listing label inside, l.before = before ∧ a = lower l.literal ∧
      ∀ other : Listing label inside, other.before.length = before.length →
        l.gap.length ≤ other.gap.length := by
  obtain ⟨rest, hrest, hline⟩ := Option.bind_eq_some_iff.mp ha
  obtain ⟨rfl, hapart⟩ := Label.after?_behind_iff.mp hrest
  obtain ⟨gap, literal, after, rfl, hgap, hwritten, rfl, hfirst⟩ := first_of_addressOnLine? hline
  refine ⟨⟨before, gap, literal, after, h, hapart, hgap, hwritten⟩, rfl, rfl, fun other hlength => ?_⟩
  obtain ⟨-, hs⟩ := other.before_eq h hlength
  exact hfirst other.gap other.literal other.after (List.append_cancel_left hs) other.oneLine other.written

/-- An address that begins in the gap of a listing stands behind the same label. -/
theorem Listing.exists_in_gap (l : Listing label inside) {j : Nat} {a : Text × Text}
    (hj : j < l.gap.length) (hread : read? ((l.gap ++ (l.literal ++ l.after)).drop j) = some a) :
    ∃ other : Listing label inside, other.before = l.before ∧ other.gap.length = j := by
  obtain ⟨literal, after, hdrop, hwritten, -⟩ := read?_eq_some_iff.mp hread
  have htake : (l.gap ++ (l.literal ++ l.after)).take j = l.gap.take j :=
    List.take_append_of_le_length (Nat.le_of_lt hj)
  have hrest : l.gap ++ (l.literal ++ l.after) = l.gap.take j ++ (literal ++ after) := by
    rw [← hdrop, ← htake, List.take_append_drop]
  refine ⟨⟨l.before, l.gap.take j, literal, after, ?_, ?_, ?_, hwritten⟩, rfl, ?_⟩
  · rw [← hrest]
    exact l.split
  · rw [← hrest]
    exact l.apart
  · exact fun hmem => l.oneLine (List.mem_of_mem_take hmem)
  · exact List.length_take_of_le (Nat.le_of_lt hj)

/-- A listing is the first exactly if none begins with an earlier label and no address begins in its gap. -/
theorem Listing.isFirst_iff (l : Listing label inside) : l.IsFirst ↔
    (∀ i < l.before.length,
      (label.after? (startsWord (inside.take i).reverse) (inside.drop i)).bind addressOnLine? = none) ∧
    ∀ j < l.gap.length, read? ((l.gap ++ (l.literal ++ l.after)).drop j) = none := by
  have hbound : l.before.length ≤ inside.length := by
    have := congrArg List.length l.split
    rw [List.length_append] at this
    omega
  constructor
  · intro hfirst
    refine ⟨fun i hi => ?_, fun j hj => ?_⟩
    · rw [here_eq_none_iff (List.take_append_drop i inside).symm]
      intro other hother
      rw [List.length_take_of_le (by omega)] at hother
      have := (hfirst other).1
      omega
    · cases hread : read? ((l.gap ++ (l.literal ++ l.after)).drop j) with
      | none => rfl
      | some a =>
        obtain ⟨other, hbefore, hlength⟩ := l.exists_in_gap hj hread
        have hgap := (hfirst other).2 (congrArg List.length hbefore)
        omega
  · rintro ⟨hlabel, hgap⟩ other
    have hbefore : l.before.length ≤ other.before.length := by
      refine Nat.le_of_not_lt fun hlt => ?_
      have hnone := hlabel other.before.length hlt
      rw [here_eq_none_iff (List.take_append_drop _ inside).symm] at hnone
      exact hnone other (List.length_take_of_le (by omega)).symm
    refine ⟨hbefore, fun hsame => Nat.le_of_not_lt fun hlt => ?_⟩
    obtain ⟨-, hrest⟩ := other.before_eq l.split hsame
    have hnone := hgap other.gap.length hlt
    rw [List.append_cancel_left hrest, List.drop_left,
      read?_eq_some_iff.mpr ⟨other.literal, other.after, rfl, other.written, rfl⟩] at hnone
    cases hnone

instance (l : Listing label inside) : Decidable l.IsFirst := decidable_of_iff' _ l.isFirst_iff

/-- From any place on, the scan for a label ends at the first listing there. -/
theorem addressOf?_from (h : inside = before ++ s) :
    (addressOf? label (startsWord before.reverse) s = none →
      ∀ l : Listing label inside, l.before.length < before.length) ∧
    ∀ a, addressOf? label (startsWord before.reverse) s = some a →
      ∃ l : Listing label inside, before.length ≤ l.before.length ∧ a = lower l.literal ∧
        ∀ other : Listing label inside, before.length ≤ other.before.length →
          l.before.length ≤ other.before.length ∧
            (other.before.length = l.before.length → l.gap.length ≤ other.gap.length) := by
  -- on the text still to be scanned; the listings are those of the whole section throughout
  induction s generalizing before with
  | nil =>
    refine ⟨fun _ l => ?_, by rintro a ⟨⟩⟩
    have hlength := congrArg List.length (h.symm.trans l.split)
    have hpos := List.length_pos_iff.mpr l.written.ne_nil
    simp only [List.length_append, List.length_nil] at hlength
    omega
  | cons c s ih =>
    have hnext : inside = (before ++ [c]) ++ s := by rw [h, List.append_assoc]; rfl
    have ih := ih hnext
    have hword : startsWord (before ++ [c]).reverse = isWord c := by
      rw [List.reverse_append]
      rfl
    rw [hword, List.length_append, List.length_singleton] at ih
    rw [addressOf?]
    cases hhere : (label.after? (startsWord before.reverse) (c :: s)).bind addressOnLine? with
    | some a =>
      refine ⟨by rintro ⟨⟩, ?_⟩
      rintro _ ⟨rfl⟩
      obtain ⟨l, hl, ha, hgap⟩ := exists_here h hhere
      refine ⟨l, Nat.le_of_eq (by rw [hl]), ha, fun other hother => ?_⟩
      rw [hl]
      exact ⟨hother, hgap other⟩
    | none =>
      have hno := (here_eq_none_iff h).mp hhere
      refine ⟨fun hnone l => ?_, fun a ha => ?_⟩
      · have := ih.1 hnone l
        have := hno l
        omega
      · obtain ⟨l, hl, ha, hfirst⟩ := ih.2 a ha
        refine ⟨l, by omega, ha, fun other hother => hfirst other ?_⟩
        have := hno other
        omega

theorem addressOf?_eq_none_iff_unlisted :
    addressOf? label false inside = none ↔ ¬ Nonempty (Listing label inside) := by
  have hscan := @addressOf?_from label inside [] inside rfl
  constructor
  · rintro hnone ⟨l⟩
    exact Nat.not_lt_zero _ (hscan.1 hnone l)
  · intro hunlisted
    cases ha : addressOf? label false inside with
    | none => rfl
    | some a =>
      obtain ⟨l, -⟩ := hscan.2 a ha
      exact absurd ⟨l⟩ hunlisted

theorem exists_first_of_addressOf? {a : Text} (h : addressOf? label false inside = some a) :
    ∃ l : Listing label inside, l.IsFirst ∧ a = lower l.literal := by
  have hscan := @addressOf?_from label inside [] inside rfl
  obtain ⟨l, -, ha, hfirst⟩ := hscan.2 a h
  exact ⟨l, fun other => hfirst other (Nat.zero_le _), ha⟩

theorem Listing.IsFirst.literal_eq {l l' : Listing label inside} (h : l.IsFirst) (h' : l'.IsFirst) :
    l.literal = l'.literal := by
  have hbefore : l.before.length = l'.before.length := Nat.le_antisymm (h l').1 (h' l).1
  have hgap : l.gap.length = l'.gap.length :=
    Nat.le_antisymm ((h l').2 hbefore.symm) ((h' l).2 hbefore)
  obtain ⟨-, hrest⟩ := l.before_eq l'.split hbefore
  obtain ⟨-, hrest⟩ := List.append_inj (List.append_cancel_left hrest) hgap.symm
  exact (List.append_inj hrest (l'.written.length.trans l.written.length.symm)).1.symm

theorem addressOf?_of_isFirst {l : Listing label inside} (h : l.IsFirst) :
    addressOf? label false inside = some (lower l.literal) := by
  cases ha : addressOf? label false inside with
  | none => exact absurd ⟨l⟩ (addressOf?_eq_none_iff_unlisted.mp ha)
  | some a =>
    obtain ⟨l', hfirst, rfl⟩ := exists_first_of_addressOf? ha
    rw [hfirst.literal_eq h]

theorem lookup_read (hsection : section? content header = some inside) (hlabel : label ∈ labels) :
    (read content header).lookup label.field = some ((addressOf? label false inside).getD []) := by
  have hperm := tableOf_perm inside
  rw [read_of_section? hsection]
  refine AddressTable.lookup_of_mem ?_ (hperm.mem_iff.mpr (List.mem_map_of_mem hlabel))
  rw [(hperm.map Prod.fst).nodup_iff, List.map_map]
  exact (by decide : (labels.map Label.field).Nodup)

/-- The field of a label is empty if the section lists nothing under the label, and has the address of the
first listing otherwise. -/
theorem lookup_listed (hsection : section? content header = some inside) (hlabel : label ∈ labels) :
    (¬ Nonempty (Listing label inside) → (read content header).lookup label.field = some []) ∧
    (Nonempty (Listing label inside) → ∃ l : Listing label inside, l.IsFirst) ∧
    ∀ l : Listing label inside, l.IsFirst →
      (read content header).lookup label.field = some (lower l.literal) := by
  rw [lookup_read hsection hlabel]
  refine ⟨fun hunlisted => ?_, fun hlisted => ?_, fun l hfirst => ?_⟩
  · rw [addressOf?_eq_none_iff_unlisted.mpr hunlisted]
    rfl
  · have hne : addressOf? label false inside ≠ none :=
      fun hnone => addressOf?_eq_none_iff_unlisted.mp hnone hlisted
    obtain ⟨a, ha⟩ := Option.ne_none_iff_exists'.mp hne
    obtain ⟨l, hfirst, -⟩ := exists_first_of_addressOf? ha
    exact ⟨l, hfirst⟩
  · rw [addressOf?_of_isFirst hfirst]
    rfl

def stakedToken : Label := ⟨"zkc_address".toList, "ZKC".toList, true⟩

def pendingToken : Label := ⟨"collateral_token_address".toList, "CollateralToken".toList, false⟩

def longerWord : Text :=
  "\n| veZKC | 0x00000000000000000000000000000000000000b2 |\nCollateralToken, ZKC (soon)\n| ".toList

def tokenAddress : Text := "0xABCDEFabcdef0123456789ABCDEFabcdef012345".toList

def secondAddress : Text := " 0x00000000000000000000000000000000000000b1 |\n".toList

def tokenSection : Text :=
  longerWord ++ (stakedToken.name ++ (" | 0x".toList ++ (tokenAddress ++ secondAddress)))

def tokenListing : Listing stakedToken tokenSection where
  before := longerWord
  gap := " | 0x".toList
  literal := tokenAddress
  after := secondAddress
  split := rfl
  apart := fun _ => ⟨by rintro c ⟨⟩; decide +kernel, by rintro c ⟨⟩; decide +kernel⟩
  oneLine := by decide
  written := by decide +kernel

theorem lookup_listed_token :
    let content := "### Base".toList ++ tokenSection
    stakedToken ∈ labels ∧ section? content "### Base".toList = some tokenSection ∧
    pendingToken ∈ labels ∧ tokenListing.IsFirst ∧
    (read content "### Base".toList).lookup stakedToken.field =
      some "0xabcdefabcdef0123456789abcdefabcdef012345".toList ∧
    ¬ Nonempty (Listing pendingToken tokenSection) ∧
    (read content "### Base".toList).lookup pendingToken.field = some [] := by
  have hsection : section? ("### Base".toList ++ tokenSection) "### Base".toList = some tokenSection := by
    decide +kernel
  have hlabel : stakedToken ∈ labels := by decide
  have hpending : pendingToken ∈ labels := by decide
  have hfirst : tokenListing.IsFirst := by decide +kernel
  have hunlisted : ¬ Nonempty (Listing pendingToken tokenSection) :=
    addressOf?_eq_none_iff_unlisted.mp (by decide +kernel)
  have hlower : lower tokenListing.literal = "0xabcdefabcdef0123456789abcdefabcdef012345".toList := by
    decide +kernel
  refine ⟨hlabel, hsection, hpending, hfirst, ?_, hunlisted, (lookup_listed hsection hpending).1 hunlisted⟩
  rw [← hlower]
  exact (lookup_listed hsection hlabel).2.2 tokenListing hfirst

end Documentation

end DeploymentRecords
