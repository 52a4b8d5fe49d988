import DeploymentRecords.Files.Path

/-!
# Plans

A plan says which fields of which networks are to agree, and where the three records of them are:
the deployment file, the source file of each group, and the documentation.
-/

namespace DeploymentRecords

open Files

/-- A network under its key in the deployment file, its constant in the source file, and its
header in the documentation if it is listed there. -/
structure Network where
  key : Text
  constant : Text
  header : Option Text
  deriving DecidableEq, Repr

structure TrackedField where
  key : Text
  name : Text
  deriving DecidableEq, Repr

structure Group where
  name : Text
  source : Path
  networks : List Network
  fields : List TrackedField
  deriving DecidableEq, Repr

structure Plan where
  deployments : Path
  documentation : Path
  groups : List Group
  deriving DecidableEq, Repr

namespace Plan

def networksKey : Text := "deployment".toList

def deploymentPath : Path := "contracts/deployment.toml".toList
def marketPath : Path := "crates/boundless-market/src/deployments.rs".toList
def zkcPath : Path := "crates/zkc/src/deployments.rs".toList
def povwPath : Path := "crates/povw/src/deployments.rs".toList
def documentationPath : Path :=
  "documentation/site/pages/developers/smart-contracts/deployments.mdx".toList

def network (key constant : String) (header : Option String) : Network :=
  ⟨key.toList, constant.toList, header.map String.toList⟩

def field (key name : String) : TrackedField := ⟨key.toList, name.toList⟩

def ethereum : List Network :=
  [network "ethereum-mainnet" "MAINNET" none, network "ethereum-sepolia" "SEPOLIA" none]

def market : Group where
  name := "boundless-market".toList
  source := marketPath
  networks :=
    [network "base-mainnet" "BASE" (some "### Base"),
     network "base-sepolia" "BASE_SEPOLIA" (some "### Base Sepolia"),
     network "ethereum-sepolia" "SEPOLIA" (some "### Ethereum Sepolia")]
  fields :=
    [field "boundless-market" "boundless_market_address",
     field "verifier" "verifier_router_address",
     field "set-verifier" "set_verifier_address",
     field "collateral-token" "collateral_token_address"]

def zkc : Group where
  name := "zkc".toList
  source := zkcPath
  networks := ethereum
  fields := [field "zkc" "zkc_address", field "vezkc" "vezkc_address"]

def povw : Group where
  name := "povw".toList
  source := povwPath
  networks := ethereum
  fields :=
    [field "zkc" "zkc_address",
     field "vezkc" "vezkc_address",
     field "povw-accounting" "povw_accounting_address",
     field "povw-mint" "povw_mint_address"]

def standard : Plan := ⟨deploymentPath, documentationPath, [market, zkc, povw]⟩

def sources (plan : Plan) : List Path :=
  plan.groups.foldl (fun paths group =>
    if paths.any (Path.same group.source) then paths else paths ++ [group.source]) []

def deploymentName (plan : Plan) : Text :=
  (Path.fileName? plan.deployments).getD plan.deployments

end Plan

end DeploymentRecords
