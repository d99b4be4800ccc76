import Bismuth.Store.Defs

/-!
# Writing to the block store

`commit_block`, `rollback`, `set_allocations` and `reindex`, and the index entries that the rows of a
block stand for.
-/

namespace Bismuth
open Py

variable (P : Prims) (mode : Mode)

/-! ## Index entries -/

structure IndexEntry where
  sig : Option Bytes
  addr : List Bytes
  deltas : Acc
  txid : Option Bytes

/-- The entries of row `idx` of the block at `height`; the deltas are `_fold`'s. -/
def indexEntry (height : Nat) (forkHeight : Option Nat) (idx : Nat) (r : Row) :
    Except Err IndexEntry := do
  let sig ←
    (if indexableSig r.signature then some <$> sigKey r.signature height idx else .ok none)
  let sender ← addrKey .sender r.address height idx
  let recipient ← addrKey .recipient r.recipient height idx
  let amt ← units mode (.str r.amount)
  let reward ← units mode (.str r.reward)
  let fee ← units mode (.str r.fee)
  let txid ←
    (if postFork forkHeight height then (some ∘ hashKey) <$> txidOf P mode r forkHeight
      else .ok none)
  return {
    sig, addr := [sender, recipient],
    deltas := [(r.recipient, amt, reward, 0, 0), (r.address, 0, 0, amt, fee)], txid }

def indexEntries (height : Nat) (forkHeight : Option Nat) (rows : List Row) :
    Except Err (List IndexEntry) :=
  rows.zipIdx.mapM fun (r, idx) => indexEntry P mode height forkHeight idx r

/-- Whether `_index_rows` writes the entries or deletes them. -/
inductive Dir where
  | write
  | delete
  deriving DecidableEq

namespace Dir

def all [LinearOrder K] (d : Dir) (t : OrdTable K V) (ks : List K) (v : V) : OrdTable K V :=
  match d with
  | .write => t.putAll (ks.map (·, v))
  | .delete => t.eraseAll ks

def parts : Dir → Parts → Parts
  | .write, p => p
  | .delete, p => -p

end Dir

/-- The public keys that the rows of a block at `height` register. -/
def registerKeys (height : Nat) :
    OrdTable Bytes (Nat × Text) → List Row → Except Err (OrdTable Bytes (Nat × Text))
  | pkref, [] => .ok pkref
  | pkref, r :: rows =>
    if isCoinbaseRow r || strip r.publicKey = [] then registerKeys height pkref rows
    else do
      let k ← lmdbKey (abytes r.address)
      if (pkref.get? k).isSome then registerKeys height pkref rows
      else registerKeys height (pkref.put k (height, r.publicKey)) rows

/-- The deltas of some entries folded into `acc`. -/
def Acc.fold (d : Dir) (acc deltas : Acc) : Acc :=
  deltas.foldl (fun acc e => acc.add e.1 (d.parts e.2)) acc

def indexRows (d : Dir) (st : Store) (height : Nat) (rows : List Row) (acc : Acc)
    (forkHeight : Option Nat) : Except Err (Store × Acc) := do
  let es ← indexEntries P mode height forkHeight rows
  let pkref ←
    (if d = .write ∧ postFork forkHeight height then registerKeys height st.pkref rows
      else .ok st.pkref)
  let st := { st with
    sig := d.all st.sig (es.filterMap (·.sig)) ()
    addr := d.all st.addr (es.flatMap (·.addr)) ()
    txid := d.all st.txid (es.filterMap (·.txid)) height
    pkref }
  return (st, acc.fold d (es.flatMap (·.deltas)))

/-! ## Commit and rollback -/

def Store.tip (st : Store) : Option Nat := st.blocks.lastKey?

/-- `_bump` of the transaction count. -/
def bumpTxcount (n : Option Nat) (delta : Int) : Except Err (Option Nat) :=
  some <$> heightKey (max 0 (n.getD 0 + delta))

def putDifficulty (diff : OrdTable Nat Text) (height : Nat) : Option Val → OrdTable Nat Text
  | some d => diff.put height (columnText d)
  | none => diff

def commitBlock (st : Store) (height : Nat) (hash : Text) (rows : List Row)
    (difficulty : Option Val) (forkHeight : Option Nat) : Except Err Store := do
  if st.tip.any (height ≠ · + 1) then throw (.raised .notNextHeight)
  let st ← putBody P mode st height hash rows forkHeight
  let diff := putDifficulty st.diff height difficulty
  let (st, acc) ← indexRows P mode .write { st with diff } height rows [] forkHeight
  let bal ← applyBalances st.bal acc
  return { st with bal, txcount := ← bumpTxcount st.txcount rows.length }

/-- One round of the loop of `rollback`. -/
def rollbackBlock (forkHeight : Option Nat) (st : Store) (acc : Acc) (removed : List TypedRow)
    (h : Nat) : Except Err (Store × Acc × List TypedRow) :=
  match st.blocks.get? h with
  | none => .error .typeError
  | some body => do
    let rows ← expand P mode st.pubkey h body
    let (st, acc) ← indexRows P mode .delete st h rows acc forkHeight
    let txcount ← bumpTxcount st.txcount (-rows.length)
    let typed ← rows.mapM typedRow
    let st := { st with
      hashes := st.hashes.erase body.hashKey, blocks := st.blocks.erase h, diff := st.diff.erase h,
      txcount }
    return (st, acc, typed ++ removed)

def rollbackBlocks (forkHeight : Option Nat) (st : Store) (acc : Acc) (removed : List TypedRow) :
    List Nat → Except Err (Store × Acc × List TypedRow)
  | [] => .ok (st, acc, removed)
  | h :: hs => do
    let (st, acc, removed) ← rollbackBlock P mode forkHeight st acc removed h
    rollbackBlocks forkHeight st acc removed hs

/-- `rollback`: the new store and the rows that were removed. -/
def rollback (st : Store) (toHeight : Int) (forkHeight : Option Nat) :
    Except Err (Store × List TypedRow) := do
  let start ← heightKey (toHeight + 1)
  let heights := (st.blocks.entries.map Prod.fst).filter (start ≤ ·)
  let (st, acc, removed) ← rollbackBlocks P mode forkHeight st [] [] heights.reverse
  let st := { st with bal := ← applyBalances st.bal acc }
  if heights = [] then return (st, removed)
  return ({ st with
    pkref := st.pkref.filter fun _ v => v.1 < start
    txid := st.txid.filter fun _ h => h < start }, removed)

/-! ## Allocations and the full rebuild -/

def Store.allocations (st : Store) : OrdTable Text Int := st.alloc.getD ∅

def fitsMsgpack (u : Int) : Bool := -2 ^ 63 ≤ u && u < 2 ^ 64

/-- `set_allocations`. Python visits the addresses in no fixed order; here it is the old ones and
then the new ones. -/
def setAllocations (st : Store) (alloc : OrdTable Text Int) : Except Err Store := do
  let old := st.allocations
  let addresses := old.entries.map Prod.fst ++
    (alloc.entries.map Prod.fst).filter fun a => (old.get? a).isNone
  let acc : Acc := addresses.map fun a =>
    (a, 0, (alloc.get? a).getD 0 - (old.get? a).getD 0, 0, 0)
  let bal ← applyBalances st.bal acc
  if alloc.entries.all fun e => fitsMsgpack e.2 then return { st with bal, alloc := some alloc }
  else throw .overflowError

/-- The blocks of one write transaction of `reindex`. -/
def reindexBatch (forkHeight : Option Nat) (st : Store) (acc : Acc) (ntx : Nat) :
    List (Nat × Body) → Except Err (Store × Acc × Nat)
  | [] => .ok (st, acc, ntx)
  | (h, body) :: blocks => do
    let rows ← expand P mode st.pubkey h body
    let (st, acc) ← indexRows P mode .write st h rows acc forkHeight
    reindexBatch forkHeight st acc (ntx + rows.length) blocks

/-- One write transaction of `reindex`: the blocks from `h` to `hi`. -/
def reindexRange (forkHeight : Option Nat) (st : Store) (acc : Acc) (ntx h hi : Nat) :
    Except Err (Store × Acc × Nat) := do
  let start ← heightKey h
  let stop ← heightKey (hi + 1)
  reindexBatch P mode forkHeight st acc ntx
    (st.blocks.entries.filter fun e => start ≤ e.1 ∧ e.1 < stop)

/-- The `while` loop of `reindex` over the transactions `range`. A transaction that raises leaves what
earlier ones wrote. -/
def reindexLoop (range : Store → Acc → (ntx h hi : Nat) → Except Err (Store × Acc × Nat))
    (batch tip : Nat) : (fuel h : Nat) → Store → Acc → Nat → Store × Except Err (Acc × Nat)
  | 0, _, st, acc, ntx => (st, .ok (acc, ntx))
  | fuel + 1, h, st, acc, ntx =>
    if h ≤ tip then
      let hi := min tip (h + batch - 1)
      match range st acc ntx h hi with
      | .ok (st, acc, ntx) => reindexLoop range batch tip fuel (hi + 1) st acc ntx
      | .error e => (st, .error e)
    else (st, .ok (acc, ntx))

/-- `reindex`, for a batch size of at least one: each round then passes a height, so that the tip
bounds their number. -/
def reindex (st : Store) (forkHeight : Option Nat) (batch : Nat) : Store × Except Err Nat :=
  let st := { st with sig := ∅, addr := ∅, bal := ∅, txid := ∅, pkref := ∅, txcount := none }
  let tip := st.tip.getD 0
  match reindexLoop (reindexRange P mode forkHeight) batch tip tip 1 st [] 0 with
  | (st, .error e) => (st, .error e)
  | (st, .ok (acc, ntx)) =>
    let acc := acc.fold .write (st.allocations.entries.map fun e => (e.1, 0, e.2, 0, 0))
    let last : Except Err Store := do
      return { st with bal := ← applyBalances st.bal acc, txcount := some (← heightKey ntx) }
    match last with
    | .ok st => (st, .ok ntx)
    | .error e => (st, .error e)

end Bismuth
