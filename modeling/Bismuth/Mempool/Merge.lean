import Bismuth.Digest.Process
import Bismuth.Lib.Dict
import Bismuth.Py.Float

/-!
# The mempool

`mempool.py`: the pending transactions by signature, the time of the last send to each peer, and `merge`, which
checks the transactions of a peer and puts them into the pool. What the interpreter measures (the size of the pool
in memory) and the readings of the clock are inputs.
-/

namespace Bismuth
open Py

/-- A pooled transaction: the eight wire fields and the time of the merge. -/
structure PoolTx where
  fields : TxTuple
  merged : Int
  deriving DecidableEq

structure Mempool where
  /-- The transactions by signature, in the order in which they came. -/
  txs : Dict Text PoolTx := ∅
  /-- The time of the last send to a peer; a time to come freezes it. -/
  peersSent : Dict Text ℚ := ∅

def refuseOlderThan : ℚ := 7200

/-- `FREEZE_MIN`, in seconds. -/
def freezeTime : ℚ := 300

def localhost : Text := ['1', '2', '7', '.', '0', '.', '0', '.', '1']

/-- `int(x)` of a reading of the clock. -/
def intOf (x : ℚ) : Int := if 0 ≤ x then ⌊x⌋ else ⌈x⌉

theorem lt_intOf (x : ℚ) : x - 1 < intOf x := by
  rw [intOf]
  split
  · exact Int.sub_one_lt_floor x
  · have := Int.le_ceil x
    linarith

/-! ## Reads -/

namespace Mempool
variable (m : Mempool)

def amountKey (r : PoolTx) : Number := ((Py.float r.fields.amount : Except Err Number).toOption).getD .nan

def byAmount (l : List PoolTx) : List PoolTx :=
  l.foldl (fun s r =>
    s.takeWhile (fun y => !floatLt (amountKey y) (amountKey r)) ++
      r :: s.dropWhile fun y => !floatLt (amountKey y) (amountKey r)) []

theorem mem_byAmount {r : PoolTx} {l : List PoolTx} : r ∈ byAmount l ↔ r ∈ l := by
  suffices h : ∀ s : List PoolTx, r ∈ l.foldl (fun s r =>
      s.takeWhile (fun y => !floatLt (amountKey y) (amountKey r)) ++
        r :: s.dropWhile fun y => !floatLt (amountKey y) (amountKey r)) s ↔ r ∈ s ∨ r ∈ l by
    simpa [byAmount] using h []
  induction l with
  | nil => simp
  | cons x l ih =>
    intro s
    rw [List.foldl_cons, ih, List.mem_append, List.mem_cons, List.mem_cons]
    conv_rhs => rw [← List.takeWhile_append_dropWhile (p := fun y => !floatLt (amountKey y) (amountKey x)) (l := s),
      List.mem_append]
    tauto

def transactions (since : Option ℚ) : List PoolTx := byAmount (m.txs.values.filter fun r => since.all fun t => t < (r.merged : ℚ))

def sendable (peer : Text) (now : ℚ) : Bool := (m.peersSent.get? peer).all (· < now - 30)

/-- `tx_to_send` without the transactions of the peer: what was merged since the last send, with a margin. -/
def txToSend (peer : Text) : List PoolTx := m.transactions ((m.peersSent.get? peer).map (· - 5))

/-! ## Maintenance -/

/-- Whether a pooled transaction is younger than the age limit. -/
def recent (now : ℚ) (r : PoolTx) : Bool :=
  (Py.float r.fields.timestamp : Except Err Number).toOption.any (floatLt (.ofRat (now - refuseOlderThan)))

/-- The values that satisfy `keep`. -/
def filterTxs (keep : PoolTx → Bool) : Mempool where
  txs := ⟨m.txs.entries.filter (keep ·.2), m.txs.nodup.sublist (List.filter_sublist.map Prod.fst)⟩
  peersSent := m.peersSent

/-- `purge`: what is not above the age limit goes. -/
def purge (now : ℚ) : Mempool :=
  m.filterTxs fun r => !(Py.float r.fields.timestamp : Except Err Number).toOption.any
    (floatLe · (.ofRat (now - refuseOlderThan)))

def clear : Mempool := { m with txs := ∅ }

def deleteTransaction (signature : Text) : Mempool := { m with txs := m.txs.erase signature }

/-- `sent`, with the reading `when`. -/
def sent (peer : Text) (time : ℚ) : Mempool :=
  if (m.peersSent.get? peer).getD 0 ≤ time then { m with peersSent := m.peersSent.set peer time } else m

end Mempool

/-! ## Merging -/

inductive Refusal where
  -- "Local mempool is already full for this tx type, skipping merging"
  | full
  -- "Mempool: Invalid timestamp …"
  | timestamp
  -- "Mempool: Invalid address …"
  | address
  -- "Mempool: Invalid recipient …"
  | recipient
  -- "Mempool: Invalid amount …"
  | amount
  -- "Mempool: Invalid signature len…"
  | signatureLen
  -- "Mempool: Invalid pubkey len…"
  | pubkeyLen
  -- "Mempool: Invalid operation len…"
  | operationLen
  -- "Mempool: Invalid openfield len…"
  | openfieldLen
  -- "Mempool: Missing message - …"
  | missingMessage
  -- "Mempool: Negative balance spend attempt"
  | negative
  -- "Mempool: Future transaction rejected …s"
  | future
  -- "Mempool: Too old a transaction"
  | tooOld
  -- "Mempool: Signature did not match for address (…)"
  | signature
  -- "That transaction is already in our mempool"
  | inPool
  -- "Mempool: Sending more than owned"
  | moreThanOwned
  -- "Mempool: Cannot afford to pay fees"
  | cannotAfford
  deriving DecidableEq

/-- What a round of the loop of `merge` comes to. -/
inductive Admission where
  | refused (r : Refusal)
  /-- The transaction is in the ledger and leaves the pool. -/
  | evicted (signature : Text)
  /-- The transaction is in the ledger, with this timestamp. -/
  | inLedger (stamp : Number)
  | admitted (t : TxTuple)
  deriving DecidableEq

def Admission.isAdmitted : Admission → Bool
  | .admitted _ => true
  | _ => false

/-- Refuse unless `ok`. -/
def check (ok : Bool) (r : Refusal) : Except Refusal Unit := if ok then .ok () else .error r

theorem check_eq_ok {ok : Bool} {r : Refusal} {u : Unit} : check ok r = .ok u ↔ ok = true := by
  cases ok <;> simp [check]

/-- `except Exception` around a conversion. -/
def orRefuse {α : Type} (r : Refusal) : Except Err α → Except Refusal α
  | .ok a => .ok a
  | .error _ => .error r

theorem orRefuse_eq_ok {α : Type} {r : Refusal} {x : Except Err α} {a : α} : orRefuse r x = .ok a ↔ x = .ok a := by
  cases x <;> simp [orRefuse]

/-- `'%.2f' % quantize_two(v)`, in which a falsy value is zero. -/
def poolTimestamp (v : Val) : Except Err Text := do
  percentFixed 2 (← if v.truthy then v.toDecimal >>= quantize 2 else .ok (.ofRat 0))

/-- `'%.8f' % quantize_eight(v)`. -/
def poolAmount (v : Val) : Except Err Text := do percentFixed 8 (← quantizeEight v)

def poolKey (key : Text) : Text :=
  if key.take 2 = ['b', '\''] then (key.drop 2).take maxTxPubkeyLen else key.take maxTxPubkeyLen

section Merge
variable {π : Type} (P : Prims) (cfg : Config π) (mandatory : Text → Bool)

/-- `space_left_for_tx`. -/
def spaceLeft (tx : RawTx) (size : Number) : Except Err Bool :=
  if floatLt size (.ofRat (3 / 10)) then .ok true
  else do
    let fee ← (← feeCalculate tx.openfield tx.operation staticBaseFee).toFloat
    let base ← staticBaseFee.toFloat
    return if floatLt size (toDouble (4 / 10) false) then floatLt base fee
      else if floatLt size (.ofRat (1 / 2)) then floatLe (.ofRat 1) fee
      else if floatLt size (toDouble (6 / 10) false) then floatLe (.ofRat 10) fee
      else false

/-- The checks of a transaction on its own, and its fields as they are pooled. `mandatory` tells the recipients
that want a message. -/
def normalise (postFork : Bool) (timeNow : ℚ) (tx : RawTx) : Except Refusal TxTuple := do
  let timestamp ← orRefuse .timestamp (poolTimestamp tx.timestamp)
  let stamp ← orRefuse .timestamp tx.timestamp.toFloat
  check (addressIsValid P tx.address) .address
  check (addressIsValid P tx.recipient) .recipient
  let amount ← orRefuse .amount (poolAmount tx.amount)
  let paid ← orRefuse .amount tx.amount.toFloat
  check (tx.signature.length ≤ maxTxSignatureLen) .signatureLen
  check (tx.publicKey.length ≤ maxTxPubkeyLen) .pubkeyLen
  check (postFork || tx.operation.length ≤ 30) .operationLen
  check (postFork || tx.openfield.length ≤ 100000) .openfieldLen
  check (postFork || 4 < tx.openfield.length || !mandatory (tx.recipient.take 56)) .missingMessage
  check (!floatLt paid (.ofRat 0)) .negative
  check (!floatLt (.ofRat timeNow) stamp) .future
  check (!floatLt stamp (.ofRat (timeNow - refuseOlderThan))) .tooOld
  return {
    timestamp, amount
    address := tx.address.take 56
    recipient := tx.recipient.take 56
    signature := tx.signature
    publicKey := poolKey tx.publicKey
    operation := tx.operation
    openfield := tx.openfield }

def nextHeight (n : Node π) : Nat := n.store.tip.getD 0 + 1

def cost (baseFee : Number) (t : TxTuple) : Except Err Number := do
  let fee ← feeCalculate t.openfield t.operation baseFee
  add (← quantizeEight (.str t.amount)) fee

/-- The pending spends of an address that are younger than the age limit. -/
def Mempool.pending (m : Mempool) (address : Text) (now : ℚ) : List PoolTx :=
  m.txs.values.filter fun r => r.fields.address = address && Mempool.recent now r

def Mempool.debit (m : Mempool) (baseFee : Number) (address : Text) (now : ℚ) : Except Err Number :=
  (m.pending address now).foldlM (fun d r => do add d (← cost baseFee r.fields)) (.ofRat 0)

/-- After the fork, the rewards that cannot be spent yet are taken off. -/
def mature (n : Node π) (address : Text) (x : Number) : Except Err Number :=
  if postFork n.forkHeight (nextHeight n) then do
    sub x (← toDecimal (← n.store.rewardUnitsSince P cfg.mode address (nextHeight n - coinbaseMaturity cfg)))
  else .ok x

/-- The sender can pay for the transaction beside the pending ones. -/
def afford (n : Node π) (m : Mempool) (now : ℚ) (t : TxTuple) : Except Err Admission := do
  let debit ← m.debit n.baseFee t.address now
  let balance ← n.store.balance t.address
  let amount ← quantizeEight (.str t.amount)
  let left ← mature P cfg n t.address (← sub (← sub balance debit) amount)
  let owned ← mature P cfg n t.address balance
  let fee ← feeCalculate t.openfield t.operation n.baseFee
  if ← lt owned amount then return .refused .moreThanOwned
  if ← lt (← sub left fee) (.ofRat 0) then return .refused .cannotAfford
  return .admitted t

/-- A verified transaction against the ledger and the pool. -/
def place (n : Node π) (m : Mempool) (now : ℚ) (t : TxTuple) : Except Err Admission := do
  let inPool := (m.txs.get? t.signature).isSome
  match (← n.store.signatureRows P cfg.mode t.signature (some (n.store.tip.getD 0 : Nat)) 1).head? with
  | some r =>
    let stamp ← r.timestamp.toFloat
    return if inPool then .evicted t.signature else .inLedger stamp
  | none => if inPool then return .refused .inPool else afford P cfg n m now t

/-- One round of the loop of `merge`. The clock reads `timeNow` when the merge starts and `now` in the round. -/
def judge (n : Node π) (m : Mempool) (sizeBypass : Bool) (size : Number) (timeNow now : ℚ) (tx : RawTx) :
    Except Err Admission := do
  let space ← if sizeBypass then .ok true else spaceLeft tx size
  if !space then return .refused .full
  let post := postFork n.forkHeight (nextHeight n)
  match normalise P mandatory post timeNow tx with
  | .error r => return .refused r
  | .ok t =>
    match verifyTxSignature P post t n.store.pkrefGet false with
    | .error _ => return .refused .signature
    | .ok () => place P cfg n m now t

/-- Whether a transaction of the ledger is old enough to freeze the peer that sent it. -/
def freezes (peer : Text) (timeNow : ℚ) : Admission → Bool
  | .inLedger stamp => peer ≠ localhost && floatLt stamp (.ofRat (timeNow - 60 * 15))
  | _ => false

def Mempool.apply (m : Mempool) (peer : Text) (timeNow now : ℚ) (v : Admission) : Mempool :=
  match v with
  | .refused _ => m
  | .evicted s => { m with txs := m.txs.erase s }
  | .inLedger _ => if freezes peer timeNow v then { m with peersSent := m.peersSent.set peer (now + freezeTime) } else m
  | .admitted t => { m with txs := m.txs.set t.signature { fields := t, merged := intOf timeNow } }

end Merge

end Bismuth
