import Bismuth.Lib.Run
import Bismuth.Store.Query

/-!
# The node

The part of the node's state that `digest.py` reads and writes, its configuration, and the curated
exceptions of `validation_exceptions.py`.
-/

namespace Bismuth
open Py

/-- A transaction as it arrives: the eight fields of the wire tuple. -/
structure RawTx where
  timestamp : Val
  address : Text
  recipient : Text
  amount : Val
  signature : Text
  publicKey : Text
  operation : Text
  openfield : Text
  deriving DecidableEq

inductive Network where
  | mainnet
  | testnet
  | regnet
  deriving DecidableEq

inductive Check where
  | signature
  | overspend
  | duplicate
  | pow
  | timestamp
  deriving DecidableEq

structure Waiver where
  checks : List Check
  signatures : Option (List Text)

/-- What is fixed while the node runs. `π` is the state of the plugins. -/
structure Config (π : Type) where
  network : Network
  mode : Mode
  forkWindow : Nat := 1000
  forkBoundary : Nat := 1000
  forkBury : Nat := 30
  assumeValidHeight : Nat := 0
  /-- The overrides of the built-in tables. -/
  checkpoints : Option (OrdTable Nat Text) := none
  validationExceptions : Option (OrdTable Nat Waiver) := none
  /-- What the hooks and the plugins do with a block. -/
  onBlock : Nat → List Row → π → π
  /-- What dropping the heights from a given one on does to the state of the plugins. -/
  onRollback : Nat → π → π
  forkBoundary_pos : 0 < forkBoundary := by decide

theorem Config.default_forkBoundary_pos : 0 < 1000 := by decide

structure Node (π : Type) where
  store : Store
  plugins : π
  /-- The mempool, by signature. -/
  mempool : OrdTable Text RawTx
  lastBlock : Nat
  lastBlockHash : Text
  lastBlockTimestamp : Number
  forkHeight : Option Nat
  forkCaughtUp : Bool
  baseFee : Number

abbrev Digest (π α : Type) := Run Err (Node π) α

variable {π : Type}

def Node.height (n : Node π) : Nat := n.lastBlock + 1

def Node.postFork (n : Node π) : Bool := Bismuth.postFork n.forkHeight n.height

/-! ## Curated exceptions -/

def mainnetCheckpoints : OrdTable Nat Text where
  entries :=
    [(4000000, "6f4794262f38f5de41379fd860bb58332f1825c1c6e04885ca11db7f".toList),
      (4500000, "f717f8368c668408c18f34acaa2ede445e90174366ddb0f666756f8c".toList),
      (4800000, "88d6292c08e0371a20ea630af491933547f1aed71be519f0de591cb4".toList)]
  sorted := by decide

namespace Config
variable (cfg : Config π)

/-- `_checkpoints`. -/
def checkpointTable : OrdTable Nat Text :=
  match cfg.checkpoints with
  | some t => t
  | none => if cfg.network = .mainnet then mainnetCheckpoints else ∅

/-- `_network_registry`; the built-in registry of the mainnet is empty. -/
def registry : OrdTable Nat Waiver := cfg.validationExceptions.getD ∅

/-- `is_exempt`. Only a signature waiver looks at the signature. -/
def isExempt (height : Nat) (check : Check) (signature : Text) : Bool :=
  match cfg.registry.get? height with
  | none => false
  | some w => w.checks.contains check &&
    (check ≠ .signature || w.signatures.all (·.any fun p => p.isPrefixOf signature))

/-- `in_trusted_prefix`: at or below a horizon that a checkpoint anchors. -/
def inTrustedPrefix (height : Nat) : Bool :=
  0 < cfg.assumeValidHeight && height ≤ cfg.assumeValidHeight &&
    cfg.checkpointTable.lastKey?.any (cfg.assumeValidHeight ≤ ·)

def verifyCheckpoint (height : Nat) (blockHash : Text) : Except Err Unit :=
  match cfg.checkpointTable.get? height with
  | some want => if blockHash = want then .ok () else .error (.raised .checkpoint)
  | none => .ok ()

end Config

end Bismuth
