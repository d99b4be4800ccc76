import Bismuth.Codec.TxRec
import Bismuth.Reject

/-!
# Ledger rows

The twelve fields of a stored transaction, the column types that readers get (`typed_row`), and
the content id of a row.
-/

namespace Bismuth
open Py

structure Row where
  height : Nat
  timestamp : Text
  address : Text
  recipient : Text
  amount : Text
  signature : Text
  publicKey : Text
  blockHash : Text
  fee : Text
  reward : Text
  operation : Text
  openfield : Text
  deriving DecidableEq, Inhabited

structure TypedRow where
  height : Nat
  timestamp : Val
  address : Text
  recipient : Text
  amount : Val
  signature : Text
  publicKey : Text
  blockHash : Text
  fee : Val
  reward : Val
  operation : Text
  openfield : Text
  deriving DecidableEq, Inhabited

/-! ## Column typing -/

/-- A run of digits in the sense of `\d`. -/
def isDigits (s : Text) : Bool := s ≠ [] && s.all fun c => (asciiDigit? c).isSome

def dropSign : Text → Text
  | '+' :: s | '-' :: s => s
  | s => s

/-- `_INT_RE`. -/
def matchesInt (s : Text) : Bool := isDigits (dropSign (strip s))

/-- `_NUM_RE`: `(\d+\.?\d*|\.\d+)([eE][+-]?\d+)?` between spaces and after a sign. -/
def matchesNum (s : Text) : Bool :=
  let s := dropSign (strip s)
  let (mant, ex) := s.span fun c => c ≠ 'e' && c ≠ 'E'
  let (ip, fp) := mant.span fun c => c ≠ '.'
  (match fp with
    | [] => isDigits ip
    | _ :: fp => (isDigits ip && (fp = [] || isDigits fp)) || (ip = [] && isDigits fp)) &&
  (match ex with
    | [] => true
    | _ :: ex => isDigits (dropSign ex))

def fitsI64 (q : ℚ) : Bool := -(2 : ℚ) ^ 63 ≤ q && q < 2 ^ 63

/-- `numeric` of a `str`: an integer, a float when it has a fraction, or the text itself. -/
def numeric (s : Text) : Except Err Val :=
  if matchesInt s then do
    let i ← Py.int s
    if fitsI64 i then return .int i else return .float (← (Val.int i).toFloat)
  else if matchesNum s then do
    match ← Py.float s with
    | .fin q z => return if q.den = 1 && fitsI64 q then .int q.num else .float (.fin q z)
    | x => return .float x
  else return .str s

/-- `real_text`: fifteen significant digits, always with a point or an exponent. -/
def realText : Number → Text
  | .fin q z =>
    let s := if isNeg q z then ['-'] else []
    let e := Int.log 10 |q| - 14
    let d := natText (Rat.halfEven (|q| / 10 ^ e)).natAbs
    s ++ if q = 0 then ['0', '.', '0'] else layout 15 (d.rdropWhile (· = '0')) (d.length + e)
  | x => reprFloat x

/-- `text`. -/
def columnText : Val → Text
  | .float x => realText x
  | v => v.text

def typedRow (r : Row) : Except Err TypedRow := do
  return {
    height := r.height, timestamp := ← numeric r.timestamp, address := r.address,
    recipient := r.recipient, amount := ← numeric r.amount, signature := r.signature,
    publicKey := r.publicKey, blockHash := r.blockHash, fee := ← numeric r.fee,
    reward := ← numeric r.reward, operation := r.operation, openfield := r.openfield }

/-! ## What a row says -/

/-- `is_coinbase_row` of a row as written: a reward that reads as a number other than zero. -/
def isCoinbaseRow (r : Row) : Bool :=
  r.reward ≠ [] && match (Py.float r.reward : Except Err Number) with
    | .ok x => !x.isZero
    | .error _ => false

variable (P : Prims) (mode : Mode)

def txidOf (r : Row) (forkHeight : Option Nat) : Except Err Text := do
  let amount ← percentFixed 8 (← ledgerValue mode (.str r.amount))
  txIdAt P r.height forkHeight r.timestamp r.address r.recipient amount r.operation r.openfield

end Bismuth
