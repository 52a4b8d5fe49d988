import DeploymentRecords.Address
import DeploymentRecords.Text.Fold
import DeploymentRecords.Text.Lines
import DeploymentRecords.Text.Word

/-!
# Addresses in documentation

A section begins behind the first occurrence of its header, letter case aside, and ends before the
next line that begins with `###`. In it each label has the first address that follows it on its
line; an occurrence with no address behind it on its line is passed over.
-/

namespace DeploymentRecords.Documentation

/-- The name under which a page lists the contract of a field. A `whole` label is no part of a
longer word. -/
structure Label where
  field : Text
  name : Text
  whole : Bool
  deriving DecidableEq, Repr

def Label.pattern (label : Label) : Text :=
  if label.whole then "\\b".toList ++ label.name ++ "\\b".toList else label.name

def labels : List Label :=
  [⟨"boundless_market_address".toList, "BoundlessMarket".toList, false⟩,
   ⟨"set_verifier_address".toList, "SetVerifier".toList, false⟩,
   ⟨"verifier_router_address".toList, "RiscZeroVerifierRouter".toList, false⟩,
   ⟨"collateral_token_address".toList, "CollateralToken".toList, false⟩,
   ⟨"zkc_address".toList, "ZKC".toList, true⟩,
   ⟨"vezkc_address".toList, "veZKC".toList, true⟩,
   ⟨"staking_rewards_address".toList, "StakingRewards".toList, false⟩,
   ⟨"povw_accounting_address".toList, "POVW_ACCOUNTING".toList, true⟩,
   ⟨"povw_mint_address".toList, "POVW_MINT".toList, true⟩]

def sectionEnd : Text := "\n###".toList

def section? (content header : Text) : Option Text :=
  (Text.search? (Text.afterFolded? header) content).map fun rest =>
    match Text.cut? sectionEnd rest with
    | some (inside, _) => inside
    | none => rest

def startsWord : Text → Bool
  | [] => false
  | c :: _ => Text.isWord c

/-- What follows a label at the front of a text that itself follows a word character iff
`afterWord`. -/
def Label.after? (label : Label) (afterWord : Bool) (s : Text) : Option Text :=
  match Text.after? label.name s with
  | none => none
  | some rest => if label.whole ∧ (afterWord ∨ startsWord rest) then none else some rest

def addressOnLine? (s : Text) : Option Text :=
  Text.search? (fun s => (Address.read? s).map (·.1)) (s.takeWhile (· ≠ '\n'))

def addressOf? (label : Label) (afterWord : Bool) : Text → Option Text
  | [] => none
  | c :: s =>
    match (label.after? afterWord (c :: s)).bind addressOnLine? with
    | some address => some address
    | none => addressOf? label (Text.isWord c) s

def read (content header : Text) : AddressTable :=
  match section? content header with
  | none => []
  | some inside =>
    AddressTable.ofList (labels.map fun label =>
      (label.field, (addressOf? label false inside).getD []))

def placeholderMark : Text := "TODO".toList

def placeholders (content : Text) : List Text := (Text.lines content).filter (Text.contains placeholderMark)

end DeploymentRecords.Documentation
