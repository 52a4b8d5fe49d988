import DeploymentRecords.Command.Flags
import DeploymentRecords.Command.Outcome
import DeploymentRecords.DeploymentFile

/-!
# The update command

Writes the fields given as flags into the deployment file, in the order of `settableFields`, and
prints each of them. The network is named by the environment. The command has one option for each
field; that an option's value reaches the field of its name is a matter of three lists in one order.
-/

namespace DeploymentRecords.Command.Update

open Files

def options : List Text :=
  ["admin", "verifier", "set_verifier", "boundless_market", "boundless_market_impl",
   "boundless_market_old_impl", "collateral_token", "assessor_image_id", "assessor_guest_url",
   "povw_accounting", "povw_accounting_impl", "povw_accounting_old_impl", "povw_mint",
   "povw_mint_impl", "povw_mint_old_impl", "povw_log_updater_id", "povw_mint_calculator_id",
   "povw_accounting_deployment_commit", "povw_mint_deployment_commit", "zkc", "vezkc"].map
    String.toList

def flagName (option : Text) : Text := option.map fun c => if c = '_' then '-' else c

def valueName (option : Text) : Text := option.map Char.toUpper

def flags : List Text := options.map flagName

def descriptions : List (Text × Text) :=
  options.zip (
    ["Admin address", "Verifier contract address", "SetVerifier contract address",
     "BoundlessMarket contract address", "BoundlessMarket impl contract address",
     "BoundlessMarket old impl contract address", "CollateralToken contract address",
     "Assessor image ID (hex)", "URL to the assessor guest package",
     "PovwAccounting contract address", "PovwAccounting impl contract address",
     "PovwAccounting old impl contract address", "PovwMint contract address",
     "PovwMint impl contract address", "PovwMint old impl contract address",
     "PoVW log updater image ID (hex)", "PoVW mint calculator image ID (hex)",
     "PoVW accounting deployment commit hash", "PoVW mint deployment commit hash",
     "ZKC contract address", "veZKC contract address"].map String.toList)

def help : Text :=
  "Update deployment.<CHAIN_KEY> fields in the deployment TOML file

Usage: update-deployment-toml [OPTIONS]

Options:
".toList ++
    (descriptions.flatMap fun (option, description) =>
      "      --".toList ++ flagName option ++ " <".toList ++ valueName option ++
        ">\n          ".toList ++ description ++ ['\n']) ++
    "  -h, --help\n          Print help\n".toList

def misuse : Text :=
  "error: unexpected argument\n\nUsage: update-deployment-toml [OPTIONS]\n".toList

/-- The options in the order in which their values stand beside the fields. -/
def placed : List Text :=
  ["admin", "verifier", "set_verifier", "boundless_market", "boundless_market_impl",
   "boundless_market_old_impl", "collateral_token", "assessor_image_id", "assessor_guest_url",
   "povw_accounting", "povw_accounting_impl", "povw_accounting_old_impl", "povw_mint",
   "povw_mint_impl", "povw_mint_old_impl", "povw_log_updater_id", "povw_mint_calculator_id",
   "povw_accounting_deployment_commit", "povw_mint_deployment_commit", "zkc", "vezkc"].map
    String.toList

def ordered (values : List (Text × Text)) : List (Text × Text) :=
  (settableFields.zip (placed.map fun option => values.lookup (flagName option))).filterMap
    fun (field, value?) => value?.map fun value => (field, value)

def writtenText (network : Text) (written : Written) : Text :=
  "Updated '".toList ++ written.field ++ "' to '".toList ++ written.value ++
    "' in [deployment.".toList ++ network ++ "]\n".toList

def run (destination : Destination) (values : List (Text × Text)) (tree : Tree) : Outcome :=
  match DeploymentFile.update tree destination.path destination.network (ordered values) with
  | .error f =>
    ⟨Outcome.failure, [], failureIn ("Failed to update ".toList ++ destination.path) f, tree⟩
  | .ok (written, tree) =>
    ⟨Outcome.success,
     written.flatMap (writtenText destination.network) ++
       destination.path ++ " updated successfully.\n".toList,
     [], tree⟩

def command (chainKey : Option ByteArray) (args : List ByteArray) (tree : Tree) : Outcome :=
  match Request.read flags args with
  | .help => ⟨Outcome.success, help, [], tree⟩
  | .misuse => ⟨Outcome.misuse, [], misuse, tree⟩
  | .flags values => run (Destination.ofEnvironment chainKey) values tree

def reads : List Path := [Plan.deploymentPath]

end DeploymentRecords.Command.Update
