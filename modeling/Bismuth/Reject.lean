import Bismuth.Py.Text

/-!
# Why a block is rejected

The reasons for which the node's own code raises a `ValueError` while it processes a block, each
with the head of its message.
-/

namespace Bismuth

inductive Reject where
  -- "Rolling back chain due to old fork data"
  | oldForkData
  -- "Empty signature from"
  | emptySignature
  -- "Transaction … already in ledger (txid)"
  | txidInLedger
  -- "Transaction … already in ledger"
  | signatureInLedger
  -- "There are duplicate transactions in this block, rejected"
  | duplicateSignature
  -- "There are duplicate transactions in this block (txid), rejected"
  | duplicateTxid
  -- "txid … is older … than oldest possible date"
  | olderThanPossible
  -- "coinbase wire amount must be 0"
  | coinbaseWireAmount
  -- "… sending more than spendable"
  | overspend
  -- "… Cannot afford to pay fees"
  | feeShortfall
  -- "Block is older … than the previous one …, will be rejected"
  | blockOlder
  -- "Skipping digestion of block …, already have it"
  | blockExists
  -- "post-fork-only sender type … requires hf2 activation"
  | postForkSender
  -- "Coinbase (Mining) transaction must have zero amount"
  | coinbaseAmount
  -- "Future transaction not allowed"
  | futureTransaction
  -- "Transaction older than 24h not allowed."
  | olderThan24h
  -- "Negative balance spend attempt"
  | negativeAmount
  -- "Not a valid sender address"
  | badSender
  -- "Not a valid recipient address"
  | badRecipient
  -- "post-fork coinbase … exceeds … bytes"
  | coinbaseField
  -- "pre-fork coinbase (mining) transaction must be a legacy RSA address"
  | coinbaseNotRsa
  -- "post-fork coinbase recipient must equal the miner address"
  | coinbaseRecipient
  -- "post-fork single-sig … tx must carry an empty public key"
  | pubkeyNotEmpty
  -- "pubkey-by-reference tx but no registry available"
  | noRegistry
  -- "referencing unregistered address is invalid"
  | unregistered
  -- what a signer raises for a signature or an address that does not match
  | badSignature
  -- "Unsupported Address type"
  | unsupportedAddress
  -- "Difficulty … too low for block"
  | lowDifficulty
  -- "Readjusted difficulty too low for block"
  | lowReadjustedDifficulty
  -- the canonical hash of a checkpoint height was not reproduced
  | checkpoint
  -- "commit_block: height … does not extend the tip"
  | notNextHeight
  -- "block store missing height … in the dynamic-fee window"
  | missingWeight
  deriving DecidableEq

abbrev Err := Py.Exc Reject

/-- Raise unless `ok`. -/
def require (ok : Bool) (r : Reject) : Except Err Unit :=
  if ok then .ok () else .error (.raised r)

theorem require_eq_ok {u : Unit} : require ok r = .ok u ↔ ok = true := by
  cases ok <;> simp [require]

end Bismuth
