import Bismuth.Store.Write

/-!
# Reading the block store

The read methods of `BlockStore`. A scan of an ordered table is the list of its entries between two
bounds; the entries under a key prefix are contiguous, so that a prefix scan is a filter as well.
-/

namespace Bismuth
open Py

/-- A row's position: the height of its block and its index there. -/
abbrev Pos := Int × Nat

def splitPos (key : Bytes) : Pos :=
  let tail := key.drop (key.length - 10)
  (beVal (tail.take 8) - 2 ^ 63, beVal (tail.drop 8))

/-- `_sh` of a bound. -/
def boundKey (h : Int) : Except Err Bytes :=
  if 0 ≤ h + 2 ^ 63 ∧ h < 2 ^ 63 then .ok (beBytes 8 (h + 2 ^ 63).toNat) else .error .structError

namespace Store
variable (P : Prims) (mode : Mode) (st : Store)

/-! ## Blocks -/

def getBlockRaw (h : Int) : Except Err (Option (List Row)) := do
  st.rawBlock P mode (← heightKey h)

def getBlock (h : Int) : Except Err (Option (List TypedRow)) := do
  match ← st.getBlockRaw P mode h with
  | some rows => return some (← rows.mapM typedRow)
  | none => return none

def lastOf : Body → Except Err (Option Text)
  | .legacy _ txs => .ok (txs.getLast?.map (·.openfield))
  | .packed _ _ txs =>
    match txs.getLast? with
    | some b => do return some (← unpackRow mode b).openfield
    | none => .ok none

def lastOpenfield (h : Int) : Except Err (Option Text) := do
  match st.blocks.get? (← heightKey h) with
  | some body => lastOf mode body
  | none => return none

def typedBlocks (blocks : List (Nat × Body)) : Except Err (List (Nat × List TypedRow)) :=
  blocks.mapM fun (h, body) => do
    return (h, ← (← expand P mode st.pubkey h body).mapM typedRow)

def blocksInRange (start stop : Int) : Except Err (List (Nat × List TypedRow)) := do
  let lo ← heightKey (max 0 start)
  let hi ← heightKey (stop + 1)
  typedBlocks P mode st (st.blocks.entries.filter fun e => lo ≤ e.1 ∧ e.1 < hi)

def blocksDesc (start : Option Int) : Except Err (List (Nat × List TypedRow)) := do
  let blocks ← (match start with
    | some s => do
      let hi ← heightKey (s + 1)
      return st.blocks.entries.filter (·.1 < hi)
    | none => .ok st.blocks.entries)
  typedBlocks P mode st blocks.reverse

def blockHash (h : Int) : Except Err (Option Text) := do
  return (st.blocks.get? (← heightKey h)).map Body.hash

def heightByHash (hash : Text) : Except Err (Option Nat) :=
  if hashKey hash = [] then .error .badValsizeError else .ok (st.hashes.get? (hashKey hash))

def first : Option Nat := st.blocks.entries.head?.map Prod.fst

def count : Nat := st.blocks.entries.length

def txCount : Nat := st.txcount.getD 0

/-- `coinbase`: the last row of the block with a reward other than zero. -/
def coinbase (h : Int) : Except Err (Option TypedRow) := do
  match ← st.getBlock P mode h with
  | some rows => return rows.reverse.find? fun r => !r.reward.eq (.int 0)
  | none => return none

def openfields : Body → Except Err (List Text)
  | .legacy _ txs => .ok (txs.map (·.openfield))
  | .packed _ _ txs => txs.mapM fun b => do return (← unpackRow mode b).openfield

/-- `recent_block_weights` over the heights of a window. -/
def weightsAt (unit : Nat) (strict : Bool) : List Nat → Except Err (List Nat)
  | [] => .ok []
  | h :: hs => do
    match st.blocks.get? h with
    | none => if strict then throw (.raised .missingWeight) else weightsAt unit strict hs
    | some body =>
      let ofs ← openfields mode body
      return (ofs.length + (ofs.map List.length).sum / unit) :: (← weightsAt unit strict hs)

def recentBlockWeights (tipHeight window wUnit : Nat) (strict : Bool) :
    Except Err (List Nat) :=
  let lo := max 2 (tipHeight + 1 - window)
  weightsAt mode st (max 1 wUnit) strict (List.range' lo (tipHeight + 1 - lo))

/-! ## Difficulties -/

def difficulty (h : Int) : Except Err (Option Text) := do
  return st.diff.get? (← heightKey h)

def lastDifficulty : Option (Nat × Text) := st.diff.entries.getLast?

def difficultyRange (start stop : Int) : Except Err (List (Nat × Text)) := do
  let lo ← heightKey (max 0 start)
  let hi ← heightKey (max 0 stop)
  return st.diff.entries.filter fun e => lo ≤ e.1 ∧ e.1 < hi

/-! ## Index scans -/

def rowAt (pos : Pos) : Except Err (Option TypedRow) := do
  match (← st.getBlockRaw P mode pos.1).bind (·[pos.2]?) with
  | some r => return some (← typedRow r)
  | none => return none

/-- The rows at `positions` that satisfy `keep`, at most `limit` of them unless `limit` is zero. -/
def collectRows (keep : TypedRow → Bool) : Nat → List Pos → Except Err (List TypedRow)
  | _, [] => .ok []
  | limit, pos :: ps => do
    match ← st.rowAt P mode pos with
    | some r =>
      if keep r then
        if limit = 1 then return [r] else return r :: (← collectRows keep (limit - 1) ps)
      else collectRows keep limit ps
    | none => collectRows keep limit ps

/-- The positions of the signature keys that start with `pre`. -/
def sigScan (pre : Bytes) : List Pos :=
  (st.sig.entries.filter fun e => pre.isPrefixOf e.1).map fun e => splitPos e.1

def signatureRows (s : Text) (maxHeight : Option Int) (limit : Nat) :
    Except Err (List TypedRow) :=
  st.collectRows P mode (·.signature = s) limit
    ((st.sigScan (sigPrefix s)).filter fun pos => maxHeight.all (pos.1 ≤ ·))

def signatureExists (s : Text) (maxHeight : Option Int) : Except Err Bool := do
  return (← st.signatureRows P mode s maxHeight 1) ≠ []

def rowsBySigPrefix (p : Text) (limit : Nat) : Except Err (List TypedRow) :=
  if p = [] then .ok []
  else
    let scan := if (utf8 p).length ≤ 56 then utf8 p else sigPrefix p
    st.collectRows P mode (fun r => p.isPrefixOf r.signature) limit (st.sigScan scan)

def addrIter (role : Role) (a : Text) (reverse : Bool) (lo hi : Option Int) :
    Except Err (List Pos) := do
  let p := addrPrefix role a
  let start ← (match lo with
    | some lo => do return p ++ (← boundKey lo)
    | none => .ok p)
  let stop ← (match hi with
    | some hi => do return p ++ (← boundKey (hi + 1))
    | none => .ok (p ++ List.replicate 10 0xFF))
  let ps := (st.addr.entries.filter fun e => start ≤ e.1 ∧ e.1 < stop).map fun e => splitPos e.1
  return if reverse then ps.reverse else ps

end Store

/-- `a < b` of two positions as Python tuples. -/
def Pos.before (a b : Pos) : Bool := a.1 < b.1 || (a.1 = b.1 && a.2 < b.2)

/-- The merge of two ordered streams of positions; equal heads come from the second stream first. -/
def mergePos (reverse : Bool) : (fuel : Nat) → List Pos → List Pos → List Pos
  | 0, _, _ => []
  | _ + 1, as, [] => as
  | _ + 1, [], bs => bs
  | n + 1, a :: as, b :: bs =>
    if (if reverse then Pos.before b a else Pos.before a b) then
      a :: mergePos reverse n as (b :: bs)
    else b :: mergePos reverse n (a :: as) bs

namespace Store
variable (P : Prims) (mode : Mode) (st : Store)

/-- `address_positions`, for one role or both. -/
def addressPositions (a : Text) (role : Option Role) (reverse : Bool) (lo hi : Option Int) :
    Except Err (List Pos) := do
  match role with
  | some role => st.addrIter role a reverse lo hi
  | none =>
    let ss ← st.addrIter .sender a reverse lo hi
    let rs ← st.addrIter .recipient a reverse lo hi
    return (mergePos reverse (ss.length + rs.length) ss rs).destutter (· ≠ ·)

/-- `address_rows`: within a block the rows keep their order in either direction. -/
def addressRows (a : Text) (role : Option Role) (reverse : Bool) (limit : Nat)
    (lo hi : Option Int) (skip : Nat) : Except Err (List TypedRow) := do
  let groups := (← st.addressPositions a role reverse lo hi).splitBy fun p q => p.1 = q.1
  let ps := (groups.map fun g => if reverse then g.reverse else g).flatten
  st.collectRows P mode (fun _ => true) limit (ps.drop skip)

def addressTxCount (a : Text) (role : Option Role) : Except Err Nat := do
  return (← st.addressPositions a role false none none).length

def firstPubkey (a : Text) : Except Err (Option Text) := do
  let rows ← st.collectRows P mode (·.reward.eq (.int 0)) 1
    (← st.addrIter .sender a false none none)
  return rows.head?.map (·.publicKey)

def rewardUnitsSince (a : Text) (aboveHeight : Int) : Except Err Int := do
  let rows ← st.collectRows P mode (fun r => !r.reward.eq (.int 0)) 0
    (← st.addrIter .recipient a true (some (aboveHeight + 1)) none)
  return (← rows.mapM fun r => units mode r.reward).sum

/-! ## Balances, txids and registered keys -/

def balanceParts (a : Text) : Except Err Parts :=
  if abytes a = [] then .error .badValsizeError else .ok ((st.bal.get? (abytes a)).getD 0)

def balanceUnits (a : Text) : Except Err Int := do
  let (c, r, d, f) ← st.balanceParts a
  return c + r - d - f

/-- `balance`: the confirmed balance as a decimal. -/
def balance (a : Text) : Except Err Number := do toDecimal (← st.balanceUnits a)

def txidHeight (txid : Text) : Except Err (Option Nat) :=
  if hashKey txid = [] then .error .badValsizeError else .ok (st.txid.get? (hashKey txid))

def pkrefEntry (a : Text) : Except Err (Option (Nat × Text)) :=
  if abytes a = [] then .error .badValsizeError else .ok (st.pkref.get? (abytes a))

def pkrefGet (a : Text) : Except Err (Option Text) := do
  return (← st.pkrefEntry a).map Prod.snd

end Store

end Bismuth
