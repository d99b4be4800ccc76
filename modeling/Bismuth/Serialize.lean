import Bismuth.Amounts
import Bismuth.Prims

/-!
# Consensus serialization

`bismuth_serialize.py`: the bytes a transaction is signed over, its content id and the block hash,
in the legacy form (the `repr` of Python tuples) and in the binary form that replaces it at the
fork height.
-/

namespace Bismuth
open Py

/-- The eight fields of a transaction as `Transaction.to_tuple` gives them. -/
structure TxTuple where
  timestamp : Text
  address : Text
  recipient : Text
  amount : Text
  signature : Text
  publicKey : Text
  operation : Text
  openfield : Text
  deriving DecidableEq

/-! ## The legacy form -/

/-- `n` in lower-case hexadecimal, `w` digits. -/
def hexPad (w n : Nat) : Text := zeroPad w (Nat.toDigits 16 n)

/-- One character of `repr` of a `str` written in quotes `q`. -/
def reprChar (printable : Char → Bool) (q c : Char) : Text :=
  if c = q ∨ c = '\\' then ['\\', c]
  else if c = '\t' then ['\\', 't']
  else if c = '\n' then ['\\', 'n']
  else if c = '\r' then ['\\', 'r']
  else if c.toNat < 32 ∨ c.toNat = 127 then '\\' :: 'x' :: hexPad 2 c.toNat
  else if c.toNat < 127 ∨ printable c then [c]
  else if c.toNat < 0x100 then '\\' :: 'x' :: hexPad 2 c.toNat
  else if c.toNat < 0x10000 then '\\' :: 'u' :: hexPad 4 c.toNat
  else '\\' :: 'U' :: hexPad 8 c.toNat

/-- `repr` of a `str`. -/
def reprText (printable : Char → Bool) (s : Text) : Text :=
  let q := if '\'' ∈ s ∧ '"' ∉ s then '"' else '\''
  q :: (s.flatMap (reprChar printable q) ++ [q])

/-- `repr` of a tuple or a list from the `repr` of its elements. -/
def reprSeq (left right : Char) (items : List Text) : Text :=
  left :: ([',', ' '].intercalate items ++ [right])

variable (P : Prims)

def signatureBuffer (timestamp address recipient amount operation openfield : Text) : Bytes :=
  utf8 (reprSeq '(' ')' ([timestamp, address, recipient, amount, operation, openfield].map
    (reprText P.isPrintable)))

def txId (timestamp address recipient amount operation openfield : Text) : Text :=
  P.blake2bHex (signatureBuffer P timestamp address recipient amount operation openfield)

/-- `str` of one converted tuple. -/
def TxTuple.repr (t : TxTuple) : Text :=
  reprSeq '(' ')' ([t.timestamp, t.address, t.recipient, t.amount, t.signature, t.publicKey,
    t.operation, t.openfield].map (reprText P.isPrintable))

def blockHash (txs : List TxTuple) (previousHash : Text) : Text :=
  P.sha224Hex (utf8 (reprSeq '[' ']' (txs.map (TxTuple.repr P)) ++ previousHash))

/-! ## The binary form -/

/-- `n.to_bytes(w, "little")`. -/
def toBytesLE (w : Nat) (n : Int) : Except (Exc ρ) Bytes :=
  if 0 ≤ n ∧ n < 256 ^ w then .ok (leBytes w n.toNat) else .error .overflowError

/-- `_v2_lp`: the length of `b` in `w` bytes, then `b`. -/
def v2Lp (b : Bytes) (w : Nat) : Except (Exc ρ) Bytes := do return (← toBytesLE w b.length) ++ b

/-- `_v2_opof`: the operation and the openfield, each left out when empty. -/
def v2OpOf (operation openfield : Text) : Except (Exc ρ) Bytes := do
  let op := utf8 operation
  let of := utf8 openfield
  let flags : UInt8 := (if op = [] then 0 else 1) + (if of = [] then 0 else 2)
  let op ← if op = [] then pure [] else v2Lp op 4
  let of ← if of = [] then pure [] else v2Lp of 4
  return flags :: (op ++ of)

def signatureBufferV2 (timestampCs : Int) (address recipient : Text) (amountUnits : Int)
    (operation openfield : Text) : Except (Exc ρ) Bytes := do
  return 0xB2 :: 0x02 :: ((← toBytesLE 8 timestampCs) ++ (← toBytesLE 8 amountUnits) ++
    (← v2Lp (utf8 address) 1) ++ (← v2Lp (utf8 recipient) 1) ++ (← v2OpOf operation openfield))

/-- `int((Decimal(s).quantize(10 ** -k) * 10 ** k).to_integral_value())`. -/
def scaledInt (k : Nat) (s : Text) : Except (Exc ρ) Int := do
  truncate (toIntegral (← mul (← decimal s >>= quantize k) (.ofRat (10 ^ k : Nat))))

def v2TsCs (timestamp : Text) : Except (Exc ρ) Int := scaledInt 2 timestamp

def v2Units (amount : Text) : Except (Exc ρ) Int := scaledInt 8 amount

def txIdV2S (timestamp address recipient amount operation openfield : Text) :
    Except (Exc ρ) Text := do
  let pre ← signatureBufferV2 (← v2TsCs timestamp) address recipient (← v2Units amount) operation
    openfield
  return P.blake2bHex pre

def v2TxBytes (t : TxTuple) (isCoinbase : Bool) : Except (Exc ρ) Bytes := do
  let head := (← toBytesLE 8 (← v2TsCs t.timestamp)) ++ (← toBytesLE 8 (← v2Units t.amount)) ++
    (← v2Lp (utf8 t.address) 1) ++ (← v2Lp (utf8 t.recipient) 1)
  let mid ←
    if isCoinbase then
      -- the freed signature and key slots are the mining header
      if 255 < (utf8 t.signature).length ∨ 255 < (utf8 t.publicKey).length then throw .valueError
      else pure ((← v2Lp (utf8 t.signature) 1) ++ (← v2Lp (utf8 t.publicKey) 1))
    else pure ((← v2Lp (utf8 t.signature) 2) ++ (← v2Lp (utf8 t.publicKey) 2))
  return head ++ mid ++ (← v2OpOf t.operation t.openfield)

/-- The transactions of a block in order, the last one as the coinbase. -/
def v2BlockBytes : List TxTuple → Except (Exc ρ) Bytes
  | [] => .ok []
  | [t] => v2TxBytes t true
  | t :: ts => do return (← v2TxBytes t false) ++ (← v2BlockBytes ts)

def blockHashV2 (txs : List TxTuple) (previousHash : Text) : Except (Exc ρ) Text := do
  let pre := (← toBytesLE 4 txs.length) ++ (← v2BlockBytes txs)
  let prev := if previousHash.length = 64 then (fromHex previousHash).getD (utf8 previousHash)
    else utf8 previousHash
  return P.blake2bHex (pre ++ prev)

/-! ## Dispatch on the height -/

/-- Whether `height` is at or above a fork height that is known. -/
def postFork (forkHeight : Option Nat) (height : Nat) : Bool :=
  match forkHeight with
  | some f => f ≤ height
  | none => false

def blockHashAt (height : Nat) (forkHeight : Option Nat) (txs : List TxTuple)
    (previousHash : Text) : Except (Exc ρ) Text :=
  if postFork forkHeight height then blockHashV2 P txs previousHash
  else .ok (blockHash P txs previousHash)

def txIdAt (height : Nat) (forkHeight : Option Nat)
    (timestamp address recipient amount operation openfield : Text) : Except (Exc ρ) Text :=
  if postFork forkHeight height then
    txIdV2S P timestamp address recipient amount operation openfield
  else .ok (txId P timestamp address recipient amount operation openfield)

end Bismuth
