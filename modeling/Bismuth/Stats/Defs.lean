import Bismuth.Lib.Dict
import Bismuth.Store.Range

/-!
# Statistics of the explorer

`rest_stats.py`: figures over the whole ledger that are kept in caches and brought up to the tip by one pass over the
blocks that they miss, and the list of the greatest balances. What `time` makes of a timestamp is a parameter.
-/

namespace Bismuth

namespace Stats
open Py

/-- What `_Monthly` counts for a month. -/
structure Month where
  txs : Nat := 0
  vol : Int := 0
  fees : Int := 0
  emission : Int := 0
  active : Nat := 0
  deriving DecidableEq

/-- The cache of `_Monthly`. -/
structure MonthlyCache where
  height : Nat
  activeHeight : Nat
  months : Dict Text Month

structure Monthly where
  cache : Option MonthlyCache
  months : Dict Text Month
  /-- The senders of each month, in a cold pass. -/
  active : Dict Text (Finset Text)

/-- The cache of `_NewAddresses`. -/
structure NewAddressesCache where
  height : Nat
  months : Dict Text Nat
  total : Nat

structure NewAddresses where
  cold : Bool
  since : Nat
  months : Dict Text Nat
  checked : Finset Text

/-- The cache of `_Miners`: the blocks and the reward of each miner. -/
structure MinersCache where
  height : Nat
  miners : Dict Text (Nat × Int)

/-- An accumulator class; `feed` is told one row of a block after the other. -/
structure Stat (C S : Type) where
  height : C → Nat
  start : Option C → S
  feed : S → TypedRow → Except Err S
  finish : S → Nat → C

def scanChunk : Nat := 2000

section
variable (P : Prims) (mode : Mode) (month : Number → Except Err Text)

/-- `_month` of a row; `month` is `time.strftime("%Y-%m", time.gmtime(x))`. -/
def monthOf (t : TypedRow) : Except Err Text := do month (← t.timestamp.toFloat)

/-- The loop of `_scan` from the height `h` on. -/
def scanFrom (st : Store) (hi : Nat) : (fuel h : Nat) → Except Err (List TypedBlock)
  | 0, _ => .ok []
  | fuel + 1, h =>
    if h ≤ hi then do
      let last := min hi (h + scanChunk - 1)
      return (← st.blocksInRange P mode h last) ++ (← scanFrom st hi fuel (last + 1))
    else .ok []

/-- `_scan`: each round passes a height, so that the last height bounds their number. -/
def scan (st : Store) (lo hi : Nat) : Except Err (List TypedBlock) := scanFrom P mode st hi hi (max 1 lo)

/-! ## Months -/

namespace Monthly

def start (cache : Option MonthlyCache) : Monthly := ⟨cache, (cache.map (·.months)).getD ∅, ∅⟩

def feed (acc : Monthly) (t : TypedRow) : Except Err Monthly := do
  let m ← monthOf month t
  let e := (acc.months.get? m).getD {}
  let reward ← units mode t.reward
  let vol ← units mode t.amount
  let fee ← units mode t.fee
  let e := { e with
    txs := if reward = 0 then e.txs + 1 else e.txs, vol := e.vol + vol, fees := e.fees + fee
    emission := e.emission + reward }
  return { acc with
    months := acc.months.set m e
    active := if acc.cache.isNone then acc.active.set m (insert t.address ((acc.active.get? m).getD ∅))
      else acc.active }

def countActive (active : Dict Text (Finset Text)) (months : Dict Text Month) : Dict Text Month :=
  active.entries.foldl (fun months e => months.set e.1 { (months.get? e.1).getD {} with active := e.2.card }) months

def finish (acc : Monthly) (tip : Nat) : MonthlyCache :=
  match acc.cache with
  | none => ⟨tip, tip, countActive acc.active acc.months⟩
  | some c => ⟨tip, c.activeHeight, acc.months⟩

def stat : Stat MonthlyCache Monthly := ⟨MonthlyCache.height, start, feed mode month, finish⟩

end Monthly

/-! ## New addresses -/

def firstRecipientHeight (st : Store) (a : Text) : Except Err (Option Nat) := do
  return (← st.addressRows P mode a (some .recipient) false 1 (some 1) none 0).head?.map (·.height)

namespace NewAddresses

def start (cache : Option NewAddressesCache) : NewAddresses :=
  ⟨cache.isNone, (cache.map (·.height)).getD 0, (cache.map (·.months)).getD ∅, ∅⟩

def known (st : Store) (acc : NewAddresses) (a : Text) : Except Err Bool :=
  if acc.cold then .ok false else do return (← firstRecipientHeight P mode st a).any (· ≤ acc.since)

def feed (st : Store) (acc : NewAddresses) (t : TypedRow) : Except Err NewAddresses :=
  if t.recipient = [] ∨ t.recipient ∈ acc.checked then .ok acc
  else do
    let checked := insert t.recipient acc.checked
    if ← known P mode st acc t.recipient then return { acc with checked }
    let m ← monthOf month t
    return { acc with checked, months := acc.months.set m ((acc.months.get? m).getD 0 + 1) }

def finish (acc : NewAddresses) (tip : Nat) : NewAddressesCache := ⟨tip, acc.months, acc.months.values.sum⟩

def stat (st : Store) : Stat NewAddressesCache NewAddresses :=
  ⟨NewAddressesCache.height, start, feed P mode month st, finish⟩

end NewAddresses

/-! ## Miners -/

namespace Miners

def start (cache : Option MinersCache) : Dict Text (Nat × Int) := (cache.map (·.miners)).getD ∅

def feed (miners : Dict Text (Nat × Int)) (t : TypedRow) : Except Err (Dict Text (Nat × Int)) := do
  let reward ← units mode t.reward
  if 0 < reward ∧ t.recipient ≠ [] then
    let e := (miners.get? t.recipient).getD (0, 0)
    return miners.set t.recipient (e.1 + 1, e.2 + reward)
  else return miners

def stat : Stat MinersCache (Dict Text (Nat × Int)) :=
  ⟨MinersCache.height, start, feed mode, fun miners tip => ⟨tip, miners⟩⟩

end Miners

/-! ## The pass -/

namespace Stat
variable {C S : Type} (A : Stat C S)

/-- The accumulator, with the height of its cache, unless the cache is at the tip. -/
def pending (tip : Nat) (cache : Option C) : Option (Nat × S) :=
  if cache.any (tip ≤ A.height ·) then none else some ((cache.map A.height).getD 0, A.start cache)

/-- The accumulator is given the blocks above the height of its cache. -/
def feedBlock (b : TypedBlock) : Option (Nat × S) → Except Err (Option (Nat × S))
  | some (height, s) =>
    if height < b.1 then do return some (height, ← b.2.foldlM A.feed s) else .ok (some (height, s))
  | none => .ok none

def close (tip : Nat) (cache : Option C) : Option (Nat × S) → Option C
  | some (_, s) => some (A.finish s tip)
  | none => cache

end Stat

structure Caches where
  monthly : Option MonthlyCache := none
  newaddr : Option NewAddressesCache := none
  miners : Option MinersCache := none

abbrev Jobs := Option (Nat × Monthly) × Option (Nat × NewAddresses) × Option (Nat × Dict Text (Nat × Int))

def jobs (st : Store) (tip : Nat) (c : Caches) : Jobs :=
  ((Monthly.stat mode month).pending tip c.monthly, (NewAddresses.stat P mode month st).pending tip c.newaddr,
    (Miners.stat mode).pending tip c.miners)

def feedJobs (st : Store) (j : Jobs) (b : TypedBlock) : Except Err Jobs := do
  return (← (Monthly.stat mode month).feedBlock b j.1, ← (NewAddresses.stat P mode month st).feedBlock b j.2.1,
    ← (Miners.stat mode).feedBlock b j.2.2)

/-- The thread of `_maintain`, if it does not raise. -/
def pass (st : Store) (c : Caches) : Except Err Caches := do
  let tip := st.tip.getD 0
  let j := jobs P mode month st tip c
  match [j.1.map Prod.fst, j.2.1.map Prod.fst, j.2.2.map Prod.fst].reduceOption.min? with
  | none => return c
  | some height =>
    let blocks ← scan P mode st (height + 1) tip
    let j ← blocks.foldlM (feedJobs P mode month st) j
    return ⟨(Monthly.stat mode month).close tip c.monthly j.1,
      (NewAddresses.stat P mode month st).close tip c.newaddr j.2.1, (Miners.stat mode).close tip c.miners j.2.2⟩

/-- `_maintain`: a pass that raises leaves the caches. -/
def maintain (st : Store) (c : Caches) : Caches :=
  match pass P mode month st c with
  | .ok c => c
  | .error _ => c

end

/-! ## The rich list -/

def richK : Nat := 500

def toBis (u : Int) : Except Err Number := do Number.toFloat (← toDecimal u)

def decodeReplaceGo : Nat → Bytes → Text
  | 0, _ | _, [] => []
  | n + 1, b =>
    match utf8DecodeChar b with
    | some (c, rest) => c :: decodeReplaceGo n rest
    | none => [Char.ofNat 0xFFFD]

/-- `k.decode("utf-8", "replace")` of a text that was cut at its end. -/
def decodeReplace (k : Bytes) : Text := decodeReplaceGo k.length k

/-- The cache of the rich list: the addresses with their balances. -/
structure RichCache where
  height : Nat
  top : Dict Text Number

def Parts.balance (p : Parts) : Int := p.1 + p.2.1 - (p.2.2.1 + p.2.2.2)

/-- `_rich_cold`: the addresses with the greatest balances, and among equal ones the greatest addresses. -/
def richCold (st : Store) : Except Err RichCache := do
  let positive := (st.bal.entries.map fun e => (Parts.balance e.2, decodeReplace e.1)).filter fun e => e.2 ≠ [] ∧ 0 < e.1
  let top := (positive.mergeSort fun a b => b.1 < a.1 ∨ b.1 = a.1 ∧ b.2 ≤ a.2).take richK
  let entries ← top.mapM fun e => do return (e.2, ← toBis e.1)
  return ⟨st.tip.getD 0, entries.foldl (fun d e => d.set e.1 e.2) ∅⟩

section
variable (P : Prims) (mode : Mode)

def touchedAddresses (blocks : List TypedBlock) : List Text :=
  (blocks.flatMap fun b => b.2.flatMap fun t => [t.address, t.recipient]).dedup

def richUpdate (st : Store) (balances : Dict Text Number) (a : Text) : Except Err (Dict Text Number) :=
  if a = [] then .ok balances
  else do
    let u ← st.balanceUnits a
    if 0 < u then return balances.set a (← toBis u) else return balances.erase a

/-- `_rich_advance`. Python reads the addresses in no fixed order; here it is the order of the blocks. -/
def richAdvance (st : Store) (cache : RichCache) (tip : Nat) : Except Err RichCache := do
  let blocks ← scan P mode st (cache.height + 1) tip
  let balances ← (touchedAddresses blocks).foldlM (richUpdate st) cache.top
  let ranked := (balances.entries.mergeSort fun a b => !floatLt a.2 b.2).take richK
  return ⟨tip, ranked.foldl (fun d e => d.set e.1 e.2) ∅⟩

end

end Stats

end Bismuth
