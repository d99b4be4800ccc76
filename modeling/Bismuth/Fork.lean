import Bismuth.Node

/-!
# Fork scheduling

`fork.py`: the activation height that the coinbase openfields signal, and the check of the reward
just after an earlier fork.
-/

namespace Bismuth
open Py

variable {π : Type}

def hasForkSignal (openfield : Text) : Bool := 
  openfield.tails.any fun s => ['h', 'f', '2'].isPrefixOf s

/-- `db_fork_signal_reader`. -/
def forkSignal (mode : Mode) (st : Store) (height : Nat) : Except Err Bool := do
  return (← st.lastOpenfield mode height).any hasForkSignal

def nextForkBoundary (height boundary : Nat) : Nat := (height / boundary + 1) * boundary

/-- The height that closes the first run of `window` signalled blocks. -/
def firstWindow (read : Nat → Except Err Bool) (window : Nat) :
    (run : Nat) → List Nat → Except Err (Option Nat)
  | _, [] => .ok none
  | run, h :: hs => do
    if ← read h then
      if window ≤ run + 1 then return some h else firstWindow read window (run + 1) hs
    else firstWindow read window 0 hs

def dynamicForkHeight (cfg : Config π) (read : Nat → Except Err Bool) (tip : Nat) :
    Except Err (Option Nat) := do
  if tip < cfg.forkWindow then return none
  let lockIn ← firstWindow read cfg.forkWindow 0 (List.range' 1 tip)
  return lockIn.map fun h => nextForkBoundary (h + cfg.forkBury) cfg.forkBoundary

/-- Whether every height is signalled, read up to the first that is not. -/
def allSignalled (read : Nat → Except Err Bool) : List Nat → Except Err Bool
  | [] => .ok true
  | h :: hs => do if ← read h then allSignalled read hs else return false

def lockinAtTip (cfg : Config π) (read : Nat → Except Err Bool) (tip : Nat) :
    Except Err (Option Nat) := do
  if tip < cfg.forkWindow then return none
  if ← allSignalled read (List.range' (tip + 1 - cfg.forkWindow) cfg.forkWindow) then
    return some (nextForkBoundary (tip + cfg.forkBury) cfg.forkBoundary)
  else return none

/-- The activation height found against the confirmed chain. -/
def findForkHeight (cfg : Config π) (n : Node π) : Except Err (Option Nat) :=
  let read := forkSignal cfg.mode n.store
  if n.forkCaughtUp then lockinAtTip cfg read n.lastBlock
  else dynamicForkHeight cfg read n.lastBlock

/-- The fork detection of `process_block_data`; an exception in it is logged and changes nothing. -/
def detectFork (cfg : Config π) (n : Node π) : Node π :=
  match n.forkHeight with
  | some _ => { n with forkCaughtUp := true }
  | none =>
    match findForkHeight cfg n with
    | .ok fh => { n with forkHeight := fh, forkCaughtUp := true }
    | .error _ => n

/-! ## The reward after the earlier fork -/

def powFork : Nat := 1450000
def powForkTestnet : Nat := 894170

/-- `v < REWARD_MAX`. -/
def belowRewardMax : Val → Except Err Bool
  | .int n => .ok (n < 6)
  | .float x => .ok (floatLt x (.ofRat 6))
  | .str _ => .error .typeError

/-- `check_postfork_reward`: a reward that cannot be read counts as valid. -/
def checkPostforkReward (P : Prims) (mode : Mode) (st : Store) (fork : Nat) : Except Err Bool :=
  match st.coinbase P mode (fork + 1 : Nat) with
  | .ok (some r) => belowRewardMax r.reward
  | _ => .ok true

def rollbackUnder (P : Prims) (cfg : Config π) (height : Int) : Digest π Unit := do
  let n ← Run.get
  let (store, _) ← Run.lift (rollback P cfg.mode n.store (height - 1) n.forkHeight)
  Run.modify fun n => { n with store }

/-- The fork whose reward `check_fork_reward` looks at. -/
def Config.rewardFork (cfg : Config π) : Nat :=
  if cfg.network = .testnet then powForkTestnet else powFork

/-- Whether the reward after that fork is in order, as far as the chain reaches it. -/
def forkRewardOk (P : Prims) (cfg : Config π) (n : Node π) : Except Err Bool :=
  if n.lastBlock > cfg.rewardFork then checkPostforkReward P cfg.mode n.store cfg.rewardFork
  else .ok true

def checkForkReward (P : Prims) (cfg : Config π) : Digest π Unit := do
  let n ← Run.get
  if ← Run.lift (forkRewardOk P cfg n) then pure ()
  else do
    rollbackUnder P cfg (cfg.rewardFork - 1 : Nat)
    Run.lift (.error (.raised .oldForkData))

end Bismuth
