import Bismuth.Genesis
import Bismuth.Resolve.Decide

/-!
# Fork resolution: one run

`chain_ops._blocknf_measured` with the parts of `fork_resolution.py` that ask a peer. The peers and the
other threads are an environment with a state of its own: it answers every probe, and it may act between
any two atomic steps until the run holds the database lock.
-/

namespace Bismuth
open Py

structure World (σ π : Type) where
  env : σ
  node : Node π

/-- What a run meets: the other threads, and the peers `κ` with their answers, which may be missing. -/
structure Env (σ κ π : Type) where
  /-- What the other threads do between two steps. -/
  others : World σ π → World σ π
  dbLocked : World σ π → Bool
  forkLocked : World σ π → Bool
  /-- The hook `filter_rollback_ip` refuses the peer. -/
  filtered : World σ π → Bool
  /-- `last_block_ago > 30000`. -/
  lastBlockOld : World σ π → Bool
  /-- The entry of `peer_opinion_dict`. -/
  opinion : World σ π → Option Nat
  cached : World σ π → Text → Option Verdict
  checkpoint : Nat
  rollbackAllowed : World σ π → Nat → Bool
  /-- `candidate_peers`, the advertiser first. -/
  donors : World σ π → Nat → List κ
  /-- `candidate_peers` without the advertiser. -/
  corroborators : World σ π → Nat → List κ
  alive : κ → σ → Bool × σ
  knows : κ → Nat → Text → σ → Option Bool × σ
  hashAt : κ → Nat → σ → Option Text × σ
  /-- A batch of blocks; an entry that is no block is none. -/
  blocksAfter : κ → Nat → Text → σ → Option (List (Option Submission)) × σ
  /-- Whether there is time left to fetch. -/
  inBudget : σ → Bool × σ
  /-- The readings of the clock while the backup is applied, by block. -/
  now : Nat → Nat → Number

structure Advert (κ : Type) where
  peer : κ
  blockHash : Text
  peerHeight : Option Nat
  hyperblocks : Bool

/-- How a run ends early: it is skipped, or the ledger raises. -/
inductive Stop where
  | skipped (v : Verdict)
  | failed (e : Err)

abbrev Resolve (σ π α : Type) := Run Stop (World σ π) α

section
variable {σ κ π : Type} (P : Prims) (cfg : Config π) (E : Env σ κ π)

/-! ## Steps -/

/-- Look at the node after the other threads had their turn. -/
def look (f : World σ π → α) : Resolve σ π α := fun w => (.ok (f (E.others w)), E.others w)

/-- Ask the outside after the other threads had their turn. -/
def ask (f : σ → α × σ) : Resolve σ π α := fun w =>
  (.ok (f (E.others w).env).1, { E.others w with env := (f (E.others w).env).2 })

def skip (v : Verdict) : Resolve σ π α := Run.lift (.error (.skipped v))

def locked (x : Digest π α) : Resolve σ π α := fun w =>
  match x w.node with
  | (.ok a, n) => (.ok a, { w with node := n })
  | (.error e, n) => (.error (.failed e), { w with node := n })

def heldHash : Except Err (Option Text) → Option Text
  | .ok hash => hash.filter (· ≠ [])
  | .error _ => none

/-- `our_hash_at`, as its callers test it. -/
def Store.ourHashAt (st : Store) (height : Nat) : Option Text := heldHash (st.blockHash height)

def ourHashAt (height : Nat) : Resolve σ π (Option Text) := look E fun w => w.node.store.ourHashAt height

/-- One probe of `find_common_ancestor`. The floor is at least one, so that no height is negative. -/
def agrees (link : κ) (height : Int) : Resolve σ π (Option Bool) := do
  match ← ourHashAt E height.toNat with
  | none => return none
  | some hash => ask E (E.knows link height.toNat hash)

/-! ## Measuring -/

/-- The loop of `majority_disagrees`: how many of the peers answer, and how many of these do not know our
tip. -/
def countAnswers (tip : Nat) (tipHash : Text) : List κ → Nat → Nat → Resolve σ π (Nat × Nat)
  | [], answers, disagree => return (answers, disagree)
  | p :: ps, answers, disagree => do
    let answer ← (do if ← ask E (E.alive p) then ask E (E.knows p tip tipHash) else return none)
    match answer with
    | none => countAnswers tip tipHash ps answers disagree
    | some true => countAnswers tip tipHash ps (answers + 1) disagree
    | some false => countAnswers tip tipHash ps (answers + 1) (disagree + 1)

/-- `deep_ok`: the advertiser counts as one that answers no. -/
def deepOk (tip : Nat) (tipHash : Text) (ancestor : Nat) : Resolve σ π Bool := do
  if ← look E fun w => E.rollbackAllowed w (ancestor + 1) then do
    let (answers, disagree) ← countAnswers E tip tipHash (← look E fun w => E.corroborators w tip) 1 1
    return minAnswersDeep ≤ answers && answers < disagree * 2
  else return false

/-- `floor_ok`, or else `deep_ok`. -/
def reorgOk (tip : Nat) (tipHash : Text) (ancestor : Nat) : Resolve σ π Bool :=
  if E.checkpoint ≤ ancestor + 1 then return true else deepOk E tip tipHash ancestor

def classify (ancestor tip peerHeight : Nat) (ok : Nat → Resolve σ π Bool) : Resolve σ π Verdict :=
  if tip ≤ ancestor then return if tip < peerHeight then .behind else .synced
  else if peerHeight < tip then return .synced
  else do return if ← ok ancestor then .reorg else .deadFork

def probeFloor (tip : Nat) : Nat := max 1 (tip - maxProbeDepth)

/-- `measure`: the ancestor of a verdict for a reorg. -/
def measure (link : κ) (tip : Nat) (tipHash : Text) (peerHeight : Nat) : Resolve σ π Nat := do
  if peerHeight < tip then skip .synced
  else
    match ← findCommonAncestor (agrees E link) (probeFloor tip) tip linearProbes with
    | none => skip .unknown
    | some ancestor =>
      if ancestor < probeFloor tip then skip .deadFork
      else
        match ← classify ancestor.toNat tip peerHeight (reorgOk E tip tipHash) with
        | .reorg => return ancestor.toNat
        | v => skip v

/-- The donor of the branch: the advertiser, or a peer that does not know our tip either. -/
def chooseLink [DecidableEq κ] (advertiser : κ) (tip : Nat) (tipHash : Text) :
    List κ → Resolve σ π (Option κ)
  | [] => return none
  | p :: ps => do
    if ← ask E (E.alive p) then
      if p = advertiser then return some p
      else if (← ask E (E.knows p tip tipHash)) = some false then return some p
      else chooseLink advertiser tip tipHash ps
    else chooseLink advertiser tip tipHash ps

/-! ## Possession -/

/-- The `for` loop of `fetch_branch`: what is held after a batch, and whether the fetch ends there. -/
def takeBatch (held : List Submission) : List (Option Submission) → List Submission × Bool
  | [] => (held, false)
  | none :: _ => (held, true)
  | some b :: batch =>
    if fetchCapBlocks ≤ held.length + 1 then (held ++ [b], true) else takeBatch (held ++ [b]) batch

/-- The `while` loop of `fetch_branch`. Every round but the last adds a block, so that the cap bounds the
rounds. -/
def fetchLoop (link : κ) (ancestor stopHeight : Nat) :
    Nat → List Submission → Text → Resolve σ π (List Submission)
  | 0, held, _ => return held
  | fuel + 1, held, hash => do
    if fetchCapBlocks ≤ held.length then return held
    else if !(← ask E E.inBudget) then return held
    else
      match ← ask E (E.blocksAfter link (ancestor + held.length) hash) with
      | none => return held
      | some [] => return held
      | some batch =>
        match takeBatch held batch with
        | (held, true) => return held
        | (held, false) =>
          if stopHeight ≤ ancestor + held.length then return held
          else
            match ← ask E (E.hashAt link (ancestor + held.length)) with
            | none => return held
            | some next => if next = [] then return held else fetchLoop link ancestor stopHeight fuel held next

/-- `fetch_branch`, without the flag that the peer's warning looks at. -/
def fetchBranch (link : κ) (ancestor : Nat) (hash : Text) (stopHeight : Nat) :
    Resolve σ π (List Submission) :=
  fetchLoop E link ancestor stopHeight (fetchCapBlocks + 1) [] hash

/-! ## Rolling back and applying -/

def TypedRow.wire (r : TypedRow) : RawTx where
  timestamp := r.timestamp
  address := r.address
  recipient := r.recipient
  amount := r.amount
  signature := r.signature
  publicKey := r.publicKey
  operation := r.operation
  openfield := r.openfield

/-- `float(from_units(value))`. -/
def displayUnits (v : Val) : Except Err Val := do
  return .float (← Py.float (fromUnits (← v.toInt)))

def displayRow (mode : Mode) (r : TypedRow) : Except Err TypedRow :=
  match mode with
  | .decimal => .ok r
  | .integer => do
    return { r with
      amount := ← displayUnits r.amount, fee := ← displayUnits r.fee, reward := ← displayUnits r.reward }

/-- `blocks_from_rows`: the rows, which come by height, as blocks of wire tuples. -/
def blocksFromRows (mode : Mode) (rows : List TypedRow) : Except Err (List (List RawTx)) := do
  let rows ← rows.mapM (displayRow mode)
  let heights := (rows.map (·.height)).dedup.filter (0 < ·)
  return heights.map fun h => (rows.filter (·.height = h)).map TypedRow.wire

/-- `backup_higher`, which rolls back: the rows that it took. -/
def backupHigher (height : Nat) : Digest π (List TypedRow) := do
  let n ← Run.get
  let (store, removed) ← Run.lift (rollback P cfg.mode n.store ((height : Int) - 1) n.forkHeight)
  Run.modify fun n => { n with store }
  return removed

/-- `rollback` of `chain_ops`. -/
def rollbackChain (height : Nat) : Digest π Unit := do
  rollbackUnder P cfg height
  Run.modify fun n => { n with plugins := cfg.onRollback height n.plugins }

def applyBlocksLocked (ss : List Submission) : Resolve σ π Unit :=
  Run.modify fun w => { w with node := (digestBlock P cfg ss w.node).2 }

structure Reorg (π : Type) where
  /-- The tip that it had read. -/
  tip : Nat
  ancestor : Nat
  /-- The hash that the peer reported for the block above the ancestor, in a tie. -/
  reported : Option (Option Text)
  held : List Submission
  /-- The node when the lock was taken. -/
  before : Node π
  adopted : Bool

def dropBranch (ancestor newTip : Nat) : Resolve σ π Unit :=
  if ancestor < newTip then do
    locked (rollbackChain P cfg (ancestor + 1))
    locked (rollToLocked P cfg ancestor)
  else return ()

def restoreBranch (ancestor newTip : Nat) (backup : List TypedRow) : Resolve σ π Unit := do
  dropBranch P cfg ancestor newTip
  let blocks ← locked (Run.lift (blocksFromRows cfg.mode backup))
  applyBlocksLocked P cfg (blocks.zipIdx.map fun (b, i) => ⟨b, E.now i⟩)

/-- The part under the database lock: whether the branch is adopted. -/
def replaceBranch (tip ancestor : Nat) (tie : Bool) (held : List Submission) : Resolve σ π Bool := do
  let backup ← locked (backupHigher P cfg (ancestor + 1))
  locked (rollToLocked P cfg ancestor)
  applyBlocksLocked P cfg held
  let newTip := (← Run.get).node.lastBlock
  if tip < newTip ∨ tie ∧ newTip = tip ∧ ancestor < newTip then return true
  else do
    restoreBranch P cfg E ancestor newTip backup
    return false

/-! ## The run -/

/-- `block_max_ram`: height and hash of the last row of the tip. -/
def Store.blockMaxRam (st : Store) (mode : Mode) : Except Err (Option (Nat × Text)) := do
  match st.tip with
  | none => return none
  | some tip => return ((← st.getBlock P mode tip).bind (·.getLast?)).map fun r => (r.height, r.blockHash)

def gates (ad : Advert κ) : Resolve σ π (Nat × Text × Nat) := do
  if ← look E E.dbLocked then skip .unknown
  else
    match ← look E fun w => w.node.store.blockMaxRam P cfg.mode with
    | .error _ => skip .unknown
    | .ok none => skip .unknown
    | .ok (some (tip, tipHash)) =>
      if ← look E E.filtered then skip .unknown
      else if tipHash ≠ ad.blockHash then skip .synced
      else if ad.hyperblocks && (← look E E.lastBlockOld) then skip .unknown
      else
        match ad.peerHeight.or (← look E E.opinion) with
        | none => skip .unknown
        | some peerHeight =>
          if peerHeight < tip then skip .synced
          else
            match ← look E fun w => E.cached w tipHash with
            | some v => skip v
            | none =>
              if ← look E E.forkLocked then skip .unknown
              else return (tip, tipHash, peerHeight)

/-- The tie-break of a fork of one height: the hash that the peer reports. -/
def breakTie (link : κ) (ancestor : Nat) : Resolve σ π (Option Text) := do
  let theirs ← ask E (E.hashAt link (ancestor + 1))
  let ours ← ourHashAt E (ancestor + 1)
  if tieWinner ours theirs = .ours then skip .tieWin else return theirs

/-- What the run does about a tie before it fetches. -/
def settleTie (tie : Prop) [Decidable tie] (link : κ) (ancestor : Nat) :
    Resolve σ π (Option (Option Text)) :=
  if tie then some <$> breakTie E link ancestor else return none

/-- `_blocknf_measured`. Without a donor the advertiser is dialled once more. -/
def blocknfMeasured [DecidableEq κ] (ad : Advert κ) : Resolve σ π (Reorg π) := do
  let (tip, tipHash, peerHeight) ← gates P cfg E ad
  let donor ← chooseLink E ad.peer tip tipHash (← look E fun w => E.donors w peerHeight)
  let link := donor.getD ad.peer
  let ancestor ← measure E link tip tipHash peerHeight
  match ← ourHashAt E ancestor with
  | none => skip .unknown
  | some hash =>
    let tie := peerHeight = tip
    let reported ← settleTie E tie link ancestor
    let held ← fetchBranch E link ancestor hash peerHeight
    if held = [] then skip .unknown
    else if ¬(tip < ancestor + held.length ∨ tie ∧ ancestor + held.length = tip) then skip .synced
    else if ← look E E.dbLocked then skip .unknown
    else
      let before ← look E World.node
      let adopted ← replaceBranch P cfg E tip ancestor tie held
      return { tip, ancestor, reported, held, before, adopted }

end

end Bismuth
