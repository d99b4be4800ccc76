import Bismuth.Lib.OrdTable
import Bismuth.Store.Row

/-!
# The block store

`block_store.py`: one ordered key-value store that holds every block and every index derived from
the blocks. A write transaction is atomic, so an operation is a function on the whole store that
either returns a new store or raises and leaves the old one.
-/

namespace Bismuth
open Py

/-- A stored block: before the fork one list of fields a transaction, after it one blob each, with
the addresses of the block in a list of their own. -/
inductive Body where
  | legacy (hash : Text) (txs : List IdTx)
  | packed (hash : Bytes ⊕ Text) (addrs : List Bytes) (txs : List Bytes)
  deriving DecidableEq

/-- Credited amount, rewards, debited amount and fees, in units. -/
abbrev Parts := Int × Int × Int × Int

/-- The sub-databases. Heights, which the store writes as order-preserving big-endian keys, are the
numbers themselves; `pkr` and `pkref` hold a key's text for its UTF-8 bytes. -/
structure Store where
  blocks : OrdTable Nat Body := ∅
  hashes : OrdTable Bytes Nat := ∅
  pk : OrdTable Bytes Nat := ∅
  pkr : OrdTable Nat Text := ∅
  diff : OrdTable Nat Text := ∅
  sig : OrdTable Bytes Unit := ∅
  addr : OrdTable Bytes Unit := ∅
  bal : OrdTable Bytes Parts := ∅
  txid : OrdTable Bytes Nat := ∅
  pkref : OrdTable Bytes (Nat × Text) := ∅
  txcount : Option Nat := none
  alloc : Option (OrdTable Text Int) := none
  deriving DecidableEq

/-! ## Keys -/

/-- LMDB refuses a key that is empty or longer than 511 bytes. -/
def lmdbKey (k : Bytes) : Except Err Bytes :=
  if k = [] ∨ 511 < k.length then .error .badValsizeError else .ok k

/-- `struct.pack` of an unsigned big-endian integer. -/
def packBE (w n : Nat) : Except Err Bytes :=
  if n < 256 ^ w then .ok (beBytes w n) else .error .structError

/-- `_hk`, where only the range of the height matters. -/
def heightKey (h : Int) : Except Err Nat :=
  if 0 ≤ h ∧ h < 2 ^ 64 then .ok h.toNat else .error .structError

/-- `_sh(h) + struct.pack(">H", idx)`: the position at the end of an index key. -/
def posKey (h idx : Nat) : Except Err Bytes := do
  return (← packBE 8 (h + 2 ^ 63)) ++ (← packBE 2 idx)

def abytes (a : Text) : Bytes := (utf8 a).take 255

inductive Role where
  | sender
  | recipient
  deriving DecidableEq

def Role.byte : Role → UInt8
  | .sender => 0
  | .recipient => 1

def addrPrefix (role : Role) (a : Text) : Bytes :=
  role.byte :: UInt8.ofNat (abytes a).length :: abytes a

def addrKey (role : Role) (a : Text) (h idx : Nat) : Except Err Bytes := do
  return addrPrefix role a ++ (← posKey h idx)

/-- The part of a signature that its index keys start with. -/
def sigPrefix (s : Text) : Bytes := (utf8 s).take 56 ++ [0]

def sigKey (s : Text) (h idx : Nat) : Except Err Bytes := do
  return sigPrefix s ++ (← posKey h idx)

def indexableSig (s : Text) : Bool := s ≠ [] && s ≠ ['0'] && s ≠ ['N', 'o', 'n', 'e']

/-- `_bh` and `_txid_key`: raw digest bytes, or the UTF-8 of a text that is no hexadecimal. -/
def hashKey (s : Text) : Bytes := (fromHex s).getD (utf8 s)

/-! ## Balances -/

/-- Per-address deltas in the order the addresses were first met. -/
abbrev Acc := List (Text × Parts)

/-- Add `d` to the entry of `a`. -/
def Acc.add (a : Text) (d : Parts) : Acc → Acc
  | [] => [(a, d)]
  | (b, e) :: acc => if b = a then (b, e + d) :: acc else (b, e) :: Acc.add a d acc

variable (P : Prims) (mode : Mode)


/-- A balance part fits `to_bytes(16, "little", signed=True)`. -/
def fitsI128 (x : Int) : Bool := -2 ^ 127 ≤ x && x < 2 ^ 127

def balPack (p : Parts) : Except Err Parts :=
  if fitsI128 p.1 && fitsI128 p.2.1 && fitsI128 p.2.2.1 && fitsI128 p.2.2.2 then .ok p
  else .error .overflowError

def applyBalance (bal : OrdTable Bytes Parts) (a : Text) (d : Parts) :
    Except Err (OrdTable Bytes Parts) :=
  if d = 0 then .ok bal
  else do
    let k ← lmdbKey (abytes a)
    let new := (bal.get? k).getD 0 + d
    if new = 0 then return bal.erase k else return bal.put k (← balPack new)

def applyBalances (bal : OrdTable Bytes Parts) : Acc → Except Err (OrdTable Bytes Parts)
  | [] => .ok bal
  | (a, d) :: acc => do applyBalances (← applyBalance bal a d) acc

/-! ## Bodies -/

/-- `_pubkey_id`: the id of a public key, registering it on first sight. -/
def pubkeyId (st : Store) (pk : Text) : Store × Nat :=
  let hkey := P.blake2b (utf8 pk)
  match st.pk.get? hkey with
  | some id => (st, id)
  | none =>
    let id := st.pk.entries.length
    ({ st with pk := st.pk.put hkey id, pkr := st.pkr.put id pk }, id)

/-- `_addr_ref`: the position of an address in the block's list, appending it on first sight.
`seen` is the list's texts, `addrs` what is stored for them. -/
def addrRef (a : Text) (seen : List Text) (addrs : List Bytes) :
    Except Err (Nat × List Text × List Bytes) :=
  match seen.idxOf? a with
  | some j => .ok (j, seen, addrs)
  | none => do return (seen.length, seen ++ [a], addrs ++ [← packAddr P a])

def Row.withId (r : Row) (id : Nat) : IdTx where
  timestamp := r.timestamp
  address := r.address
  recipient := r.recipient
  amount := r.amount
  signature := r.signature
  pubkeyId := id
  blockHash := r.blockHash
  fee := r.fee
  reward := r.reward
  operation := r.operation
  openfield := r.openfield

/-- The loop of `_put_body` before the fork. -/
def legacyTxs (st : Store) : List Row → Store × List IdTx
  | [] => (st, [])
  | r :: rows =>
    let (st, id) := pubkeyId P st r.publicKey
    let (st, txs) := legacyTxs st rows
    (st, r.withId id :: txs)

/-- The loop of `_put_body` after it. -/
def packedTxs (st : Store) (seen : List Text) (addrs : List Bytes) :
    List Row → Except Err (Store × List Bytes × List Bytes)
  | [] => .ok (st, addrs, [])
  | r :: rows => do
    let (st, id) := pubkeyId P st r.publicKey
    let (ai, seen, addrs) ← addrRef P r.address seen addrs
    let (ri, seen, addrs) ← addrRef P r.recipient seen addrs
    let blob ← packRow P mode (r.withId id) ai ri
    let (st, addrs, txs) ← packedTxs st seen addrs rows
    return (st, addrs, blob :: txs)

/-- The record that `_put_body` writes. -/
def makeBody (st : Store) (height : Nat) (hash : Text) (rows : List Row)
    (forkHeight : Option Nat) : Except Err (Store × Body) :=
  if postFork forkHeight height then do
    let (st, addrs, txs) ← packedTxs P mode st [] [] rows
    let h := match fromHex hash with
      | some b => .inl b
      | none => .inr hash
    return (st, .packed h addrs txs)
  else
    let (st, txs) := legacyTxs P st rows
    .ok (st, .legacy hash txs)

def putBody (st : Store) (height : Nat) (hash : Text) (rows : List Row)
    (forkHeight : Option Nat) : Except Err Store := do
  let (st, body) ← makeBody P mode st height hash rows forkHeight
  let h ← heightKey height
  let k ← lmdbKey (hashKey hash)
  return { st with blocks := st.blocks.put h body, hashes := st.hashes.put k h }

def Body.hash : Body → Text
  | .legacy h _ => h
  | .packed (.inl b) _ _ => hex b
  | .packed (.inr h) _ _ => h

/-- The hash of a stored record as a key of `hashes`. -/
def Body.hashKey : Body → Bytes
  | .legacy h _ => Bismuth.hashKey h
  | .packed (.inl b) _ _ => b
  | .packed (.inr h) _ _ => Bismuth.hashKey h

/-- The public key of an id, or the id itself when the table has none. -/
def Store.pubkey (st : Store) (id : Nat) : Text := (st.pkr.get? id).getD (natText id)

def IdTx.row (t : IdTx) (height : Nat) (publicKey : Text) : Row where
  height := height
  timestamp := t.timestamp
  address := t.address
  recipient := t.recipient
  amount := t.amount
  signature := t.signature
  publicKey := publicKey
  blockHash := t.blockHash
  fee := t.fee
  reward := t.reward
  operation := t.operation
  openfield := t.openfield

def listGet (l : List α) (i : Nat) : Except Err α :=
  match l[i]? with
  | some a => .ok a
  | none => .error .indexError

def UnpackedTx.row (t : UnpackedTx) (height : Nat) (publicKey hash : Text) (addrs : List Text) :
    Except Err Row := do
  return {
    height, timestamp := t.timestamp, address := ← listGet addrs t.addrIdx,
    recipient := ← listGet addrs t.recipIdx, amount := t.amount, signature := t.signature,
    publicKey, blockHash := hash, fee := t.fee, reward := t.reward,
    operation := t.operation, openfield := t.openfield }

/-- `_expand`, with the public key of each id. -/
def expand (pubkey : Nat → Text) (height : Nat) : Body → Except Err (List Row)
  | .legacy _ txs => .ok (txs.map fun t => t.row height (pubkey t.pubkeyId))
  | body@(.packed _ addrs txs) => do
    let addrs ← addrs.mapM (unpackAddr P)
    txs.mapM fun b => do
      let t ← unpackRow mode b
      t.row height (pubkey t.pubkeyId) body.hash addrs

def Store.rawBlock (st : Store) (height : Nat) : Except Err (Option (List Row)) :=
  match st.blocks.get? height with
  | some body => do return some (← expand P mode st.pubkey height body)
  | none => .ok none

end Bismuth
