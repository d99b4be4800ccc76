import Bismuth.Py.Base64
import Bismuth.Serialize
import Bismuth.Address
import Bismuth.Reject

/-!
# Verifying a transaction's signature

`SignerFactory.verify_tx_signature`. The schemes' own checks are `Prims.verify` and
`Prims.recover`; what is modelled is which of them runs, on which message and on which decoding of
the signature field.
-/

namespace Bismuth
open Py

variable (P : Prims)

/-- `base64.b64decode(s)`. -/
def b64decode (s : Text) : Except Err Bytes :=
  match base64Decode s with
  | some b => .ok b
  | none => .error .valueError

/-- `SignerFactory.verify_bis_signature`: every scheme decodes both fields from base64. -/
def verifyBisSignature (signature publicKey : Text) (buffer : Bytes) (address : Text) :
    Except Err Unit :=
  match addressToSigner P address with
  | none => .error (.raised .unsupportedAddress)
  | some scheme => do
    let key ← b64decode publicKey
    let sig ← b64decode signature
    require (P.verify scheme sig key buffer address) .badSignature

/-- `GROUP_ORDER_INT` of secp256k1. -/
def groupOrder : Nat := 0xFFFFFFFFFFFFFFFFFFFFFFFFFFFFFFFEBAAEDCE6AF48A03BBFD25E8CD0364141

/-- The form of a recoverable signature that is accepted: low `s`, and a recovery id. -/
def isCanonicalRecoverable (sig : Bytes) : Bool :=
  let s := beVal ((sig.drop 32).take 32)
  sig.length = 65 && s ≠ 0 && s ≤ groupOrder / 2 && (sig.drop 64).all (· ≤ 3)

def verifyBisSignatureRecovered (signatureHex txid address : Text) : Except Err Unit :=
  match fromHex signatureHex, fromHex txid with
  | some sig, some digest =>
    require (isCanonicalRecoverable sig && P.recover sig digest = some address) .badSignature
  | _, _ => .error (.raised .badSignature)

def publicKeyFromAddress (address : Text) : Except Err Bytes :=
  match P.b58decode address with
  | some raw =>
    let key := (raw.drop 4).take 32
    if raw.length = 40 ∧ P.edAddress key = address then .ok key else .error (.raised .badSignature)
  | none => .error .valueError

/-- The key of a transaction that leaves it out, from the registry. -/
def resolveKey (registry : Text → Except Err (Option Text)) (address publicKey : Text) :
    Except Err Text :=
  if strip publicKey = [] then do
    match ← registry address with
    | some key => return key
    | none => throw (.raised .unregistered)
  else .ok publicKey

/-- `SignerFactory.verify_tx_signature`. `registry` gives the public key registered for an address. -/
def verifyTxSignature (postFork : Bool) (t : TxTuple) (registry : Text → Except Err (Option Text))
    (isCoinbase : Bool) : Except Err Unit :=
  let buffer :=
    signatureBuffer P t.timestamp t.address t.recipient t.amount t.operation t.openfield
  if postFork then
    if isCoinbase then require (t.recipient = t.address) .coinbaseRecipient
    else if isSingleSigEcdsa t.address then do
      require (strip t.publicKey = []) .pubkeyNotEmpty
      let txid ← txIdV2S P t.timestamp t.address t.recipient t.amount t.operation t.openfield
      verifyBisSignatureRecovered P t.signature txid t.address
    else if isSingleSigEd25519 t.address then do
      require (strip t.publicKey = []) .pubkeyNotEmpty
      let pub ← publicKeyFromAddress P t.address
      let sig ← b64decode t.signature
      require (P.verify .ed25519 sig pub buffer t.address) .badSignature
    else do
      let publicKey ← resolveKey registry t.address t.publicKey
      verifyBisSignature P t.signature publicKey buffer t.address
  else verifyBisSignature P t.signature t.publicKey buffer t.address

end Bismuth
