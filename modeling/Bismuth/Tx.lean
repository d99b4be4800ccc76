import Bismuth.Node
import Bismuth.Signer

/-!
# Transactions

`digest_tx.py`: how a wire tuple is parsed into the fields that are signed, hashed and stored, and the
checks on them.
-/

namespace Bismuth
open Py

variable {π : Type}

def quantizeTwo (v : Val) : Except Err Number := do quantize 2 (← v.toDecimal)

/-- `digest_tx.quantize_eight`: without the short cut of `quantizer`. -/
def quantizeAmount (v : Val) : Except Err Number := do quantize 8 (← v.toDecimal)

def maxTxSignatureLen : Nat := 8192
def maxTxPubkeyLen : Nat := 4096
def coinbaseMiningSlotMax : Nat := 255
def coinbaseFreefieldMax : Nat := 4096

/-- `'%.2f' % quantize_two(v)`. -/
def timestampField (v : Val) : Except Err Text := do percentFixed 2 (← quantizeTwo v)

/-- `'%.8f' % quantize_eight(v)`. -/
def amountField (v : Val) : Except Err Text := do percentFixed 8 (← quantizeAmount v)

def capped (postFork : Bool) (cap : Nat) (s : Text) : Text := if postFork then s else s.take cap

def RawTx.fields (tx : RawTx) (postFork : Bool) : Except Err TxTuple := do
  return {
    timestamp := ← timestampField tx.timestamp
    address := tx.address.take 56
    recipient := tx.recipient.take 56
    amount := ← amountField tx.amount
    signature := tx.signature.take maxTxSignatureLen
    publicKey := tx.publicKey.take maxTxPubkeyLen
    operation := capped postFork 30 tx.operation
    openfield := capped postFork 100000 tx.openfield }

/-- A parsed `Transaction`. -/
structure Transaction where
  startTime : Number
  qTimestamp : Number
  fields : TxTuple

/-- `MinerTransaction`. -/
structure MinerTx where
  qTimestamp : Number
  nonce : Text
  nonceV2 : Text
  address : Text

def Transaction.miner (t : Transaction) : MinerTx where
  qTimestamp := t.qTimestamp
  nonce := t.fields.openfield.take 128
  nonceV2 := t.fields.signature.take 128
  address := t.fields.address

def coinbaseSpendsNothing (isLast : Bool) (amount : Text) : Except Err Unit :=
  if isLast then do require (← Py.float amount).isZero .coinbaseAmount else .ok ()

/-- `from_raw_transaction`, at the clock reading `now`. -/
def RawTx.parse (tx : RawTx) (now : Number) (isLast postFork : Bool) : Except Err Transaction := do
  let startTime ← quantize 2 now
  let qTimestamp ← quantizeTwo tx.timestamp
  let fields ← tx.fields postFork
  coinbaseSpendsNothing isLast fields.amount
  return { startTime, qTimestamp, fields }

def coinbaseBounds (t : TxTuple) : Bool :=
  (utf8 t.signature).length ≤ coinbaseMiningSlotMax &&
    (utf8 t.publicKey).length ≤ coinbaseMiningSlotMax &&
    (utf8 t.operation).length ≤ coinbaseFreefieldMax &&
    (utf8 t.openfield).length ≤ coinbaseFreefieldMax

/-- The text of the rejection is built with the time left, which may raise itself. -/
def rejectFuture (startTime qTimestamp : Number) : Except Err Unit := do
  if ← lt startTime qTimestamp then do
    let _ ← quantize 2 (← div (← sub qTimestamp startTime) (.ofRat 60))
    .error (.raised .futureTransaction)
  else .ok ()

/-- The checks of `validate` before the signature. -/
def Transaction.validateFields (P : Prims) (t : Transaction) (lastBlockTimestamp : Number)
    (postFork isCoinbase : Bool) : Except Err Unit := do
  rejectFuture t.startTime t.qTimestamp
  let old ← lt t.qTimestamp (← sub lastBlockTimestamp (.ofRat 86400))
  require (!old) .olderThan24h
  let amount ← Py.float t.fields.amount
  require (!floatLt amount (.ofRat 0)) .negativeAmount
  require (addressIsValid P t.fields.address) .badSender
  require (addressIsValid P t.fields.recipient) .badRecipient
  require (!(isCoinbase && postFork) || coinbaseBounds t.fields) .coinbaseField

/-- The signature check of `validate`. -/
def Transaction.validateSignature (P : Prims) (t : Transaction) (n : Node π) (isCoinbase : Bool) :
    Except Err Unit := do
  require (!(isCoinbase && !n.postFork) || addressIsRsa t.fields.address) .coinbaseNotRsa
  verifyTxSignature P n.postFork t.fields n.store.pkrefGet isCoinbase

def Transaction.validate (P : Prims) (t : Transaction) (n : Node π)
    (verifySignature isCoinbase : Bool) : Except Err Unit := do
  t.validateFields P n.lastBlockTimestamp n.postFork isCoinbase
  if verifySignature then t.validateSignature P n isCoinbase else .ok ()

end Bismuth
