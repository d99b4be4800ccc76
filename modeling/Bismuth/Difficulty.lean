import Bismuth.Node
import Bismuth.Py.Float

/-!
# Difficulty and proof of work

`difficulty.py` around its retargeting formulas, which are `Prims.retarget` and `Prims.lwma`, and
`mining_heavy3.check_block`. The difficulty that is broadcast while no block is found does not enter
the check of a block and is left out.
-/

namespace Bismuth
open Py

variable {π : Type} (P : Prims)

def quantizeTen (x : Number) : Except Err Number := if x.isZero then .ok (.ofRat 0) else quantize 10 x

def coinbaseTs (mode : Mode) (st : Store) (h : Int) : Except Err (Option Val) := do
  return (← st.coinbase P mode h).map (·.timestamp)

/-- `Decimal(v)` of a value that may be missing. -/
def decimalOf : Option Val → Except Err Number
  | some v => v.toDecimal
  | none => .error .typeError

/-- `store.first() or 1`. -/
def firstHeight (st : Store) : Nat :=
  match st.first with
  | some 0 | none => 1
  | some h => h

structure Window where
  last : Number
  beforeLast : Number
  ts1441 : Number
  ts1440 : Number

def windowTimestamps (mode : Mode) (st : Store) (height : Nat) : Except Err Window := do
  let first := firstHeight st
  let last ← decimalOf (← coinbaseTs P mode st height)
  let prev ← (if first ≤ (height : Int) - 1 then coinbaseTs P mode st (height - 1 : Int)
    else .ok none)
  let beforeLast ← (if prev.isNone then .ok last else decimalOf prev)
  let lo := max first (height - 1440)
  let ts1441 ← decimalOf (← coinbaseTs P mode st lo)
  let t1440 ← (if lo + 1 ≤ height then coinbaseTs P mode st (lo + 1 : Nat) else .ok none)
  let ts1440 ← (if t1440.isNone then .ok ts1441 else decimalOf t1440)
  return { last, beforeLast, ts1441, ts1440 }

/-- The coinbase timestamps at some heights, where there are any. -/
def stampsAt (mode : Mode) (st : Store) : List Nat → Except Err (List Number)
  | [] => .ok []
  | h :: hs => do
    match ← coinbaseTs P mode st h with
    | some v => return (← v.toFloat) :: (← stampsAt mode st hs)
    | none => stampsAt mode st hs

/-- `_recent_solvetimes` for the window of 60 blocks. -/
def recentSolvetimes (mode : Mode) (st : Store) (height : Nat) : Except Err (List Number) := do
  let lo := max (firstHeight st) (height - 60)
  let ts ← stampsAt P mode st (List.range' lo (height + 1 - lo))
  return List.zipWith floatSub (ts.drop 1) ts

def retargeted (cfg : Config π) (n : Node π) (height : Nat) (previous : Number) (w : Window) :
    Except Err Number := do
  let difficulty ← (match P.retarget previous w.last w.beforeLast w.ts1441 w.ts1440 with
    | some d => .ok d
    | none => .error .overflowError)
  if postFork n.forkHeight (height + 1) then do
    let ts ← recentSolvetimes P cfg.mode n.store height
    if ts = [] then return difficulty else quantizeTen (P.lwma ts previous)
  else return difficulty

/-- `float('%.10f' % x)`. -/
def recorded (x : Number) : Except Err Val := do return .float (← Py.float (← percentFixed 10 x))

/-- `diff[0]` of `difficulty` once the window is read. -/
def requiredDifficulty (cfg : Config π) (n : Node π) (height : Nat) (w : Window) :
    Except Err Val := do
  let _ ← (truncate w.last : Except Err Int)
  let previous ← (match n.store.lastDifficulty with
    | some (_, s) => decimal s
    | none => .error .typeError)
  if cfg.network = .regnet then recorded (.ofRat 16)
  else do
    let d ← retargeted P cfg n height previous w
    recorded (if ← lt d (.ofRat 50) then .ofRat 50 else d)

/-- The sentinel of a young chain, where a failure is expected. -/
def orSentinel (n : Node π) : Except Err Val → Except Err Val
  | .ok v => .ok v
  | .error e => if n.lastBlock < 1440 then .ok (.int 24) else .error e

/-- `difficulty`. It also refreshes the timestamp of the last block. -/
def difficulty (cfg : Config π) : Digest π Val := do
  let n ← Run.get
  let window := (match n.store.tip with
    | some height => (windowTimestamps P cfg.mode n.store height).map (height, ·)
    | none => .error .typeError)
  match window with
  | .error e => Run.lift (orSentinel n (.error e))
  | .ok (height, w) => do
    Run.modify fun n => { n with lastBlockTimestamp := w.last }
    Run.lift (orSentinel n (requiredDifficulty P cfg n height w))

/-! ## Proof of work -/

/-- The difficulty that a late block has to reach. -/
def droppedDifficulty (diff : Number) (stamp : Number) (qReceived qLast : Number) : Except Err Number := do
  let elapsed ← sub qReceived qLast
  let one ← quantizeTen (.ofRat 1)
  let ten ← quantizeTen diff
  let dropped ← sub (← add ten one) (← quantizeTen (← div elapsed (.ofRat 180)))
  let emergency ← lt (← add qLast (.ofRat 360)) stamp
  let dropped ← (if emergency then do
      let excess ← div (← mul (.ofRat 10) (← sub elapsed (.ofRat 360))) (.ofRat 180)
      sub (← sub ten one) (← quantizeTen excess)
    else .ok dropped)
  return if ← lt dropped (.ofRat 50) then .ofRat 50 else dropped

/-- `check_block`, for a nonce that reaches `real`. It returns the difficulty to record. -/
def checkBlock (real : Nat) (diff : Val) (stamp : Text) (qReceived qLast : Number) :
    Except Err Val := do
  let needed ← diff.toInt
  if needed ≤ real then return diff
  let ts ← decimal stamp
  if ← lt (← add qLast (.ofRat 180)) ts then
    let dropped ← droppedDifficulty (← diff.toDecimal) ts qReceived qLast
    if (← truncate dropped) ≤ real then return diff
    else throw (.raised .lowReadjustedDifficulty)
  else throw (.raised .lowDifficulty)

end Bismuth
