import Bismuth.Tx
import Bismuth.Fee
import Bismuth.Fork
import Bismuth.Difficulty

/-!
# Digesting a block

`digest.py`: the checks that a submitted block goes through, the rows it is stored as, and its commit.
What a check reads is an argument; what the digester writes before a later check can still reject the
block goes through the state.
-/

namespace Bismuth
open Py

variable {π : Type} (P : Prims) (cfg : Config π)

/-- A block as it arrives, with the readings of the clock while it is parsed. -/
structure Submission where
  block : List RawTx
  now : Nat → Number

/-- `except ValueError` around a check that a waiver covers. -/
def waived (exempt : Bool) : Except Err Unit → Except Err Unit
  | .ok () => .ok ()
  | .error e => if e.isValueError && exempt then .ok () else .error e

/-! ## Transactions -/

/-- One round of `sort_and_validate_transactions`. -/
def validateTx (n : Node π) (now : Number) (isLast : Bool) (tx : RawTx) : Except Err Transaction := do
  let t ← tx.parse now isLast n.postFork
  waived (cfg.isExempt n.height .signature t.fields.signature)
    (t.validate P n (!cfg.inTrustedPrefix n.height) isLast)
  return t

def sortAndValidateTransactions (n : Node π) (s : Submission) : Except Err (List Transaction) :=
  s.block.zipIdx.mapM fun (tx, i) => validateTx P cfg n (s.now i) (i + 1 = s.block.length) tx

def minerOf (txs : List Transaction) : Except Err MinerTx :=
  match txs.getLast? with
  | some t => .ok t.miner
  | none => .error .attributeError

def checkTimestamp (n : Node π) (miner : MinerTx) : Except Err Unit := do
  let old ← le miner.qTimestamp n.lastBlockTimestamp
  require (!old || cfg.inTrustedPrefix n.height || cfg.isExempt n.height .timestamp []) .blockOlder

/-! ## Duplicates -/

/-- The content id of a wire tuple, from its fields as they arrived. -/
def RawTx.txid (n : Node π) (tx : RawTx) : Except Err Text :=
  txIdAt P n.height n.forkHeight tx.timestamp.text tx.address tx.recipient tx.amount.text
    tx.operation tx.openfield

/-- After the fork, the content id of an entry, which must be new to the ledger. -/
def newTxid (n : Node π) (tx : RawTx) : Except Err (Option Text) :=
  if n.postFork then do
    let txid ← tx.txid P n
    let known ← n.store.txidHeight txid
    require (!known.any (· ≤ n.lastBlock)) .txidInLedger
    return some txid
  else .ok none

/-- One round of `check_duplicate_signatures`; the content id is kept for the check of the block. -/
def checkEntry (n : Node π) (tx : RawTx) (isLast : Bool) : Except Err (Option Text) :=
  if n.postFork && isLast then some <$> tx.txid P n
  else do
    require (tx.signature ≠ []) .emptySignature
    let seen ← n.store.signatureExists P cfg.mode tx.signature (some n.lastBlock)
    let txid ← newTxid P n tx
    require (!seen || cfg.isExempt n.height .duplicate tx.signature) .signatureInLedger
    return txid

def checkDuplicateSignatures (n : Node π) (block : List RawTx) : Except Err Unit := do
  let txids ← block.zipIdx.mapM fun (tx, i) => checkEntry P cfg n tx (i + 1 = block.length)
  require (decide (block.map (·.signature)).Nodup || cfg.isExempt n.height .duplicate [])
    .duplicateSignature
  require (!n.postFork || decide (txids.filterMap id).Nodup) .duplicateTxid

/-! ## Balances -/

/-- `calculate_mining_reward`: a float after the earlier fork, a decimal before it. -/
def calculateMiningReward (n : Node π) : Except Err Number := do
  let floatReward (fork : Nat) : Number :=
    floatSub (floatSub (.ofRat 15) (toDouble ((n.height - fork : ℚ) / 1100000) false))
      (.ofRat (19 / 2))
  let reward ← (
    if cfg.network = .testnet ∧ powForkTestnet ≤ n.lastBlock then .ok (floatReward powForkTestnet)
    else if cfg.network = .mainnet ∧ powFork ≤ n.lastBlock then .ok (floatReward powFork)
    else do
      let height ← quantize 8 (.ofRat n.height)
      let scale ← quantize 8 (.ofRat 500000)
      sub (← sub (.ofRat 15) (← div height scale)) (.ofRat (12 / 5)))
  return if ← lt reward (.ofRat (1 / 2)) then .ofRat (1 / 2) else reward

def oldestPossible (n : Node π) (miner : MinerTx) : Except Err Number :=
  sub miner.qTimestamp (.ofRat (if 1450000 ≤ n.height then 60 * 60 * 2 else 60 * 60 * 24))

/-- `x == y` of two wire tuples. -/
def RawTx.eq (x y : RawTx) : Bool :=
  x.timestamp.eq y.timestamp && x.address = y.address && x.recipient = y.recipient &&
    x.amount.eq y.amount && x.signature = y.signature && x.publicKey = y.publicKey &&
    x.operation = y.operation && x.openfield = y.openfield

/-- One round of `_calculate_address_totals`. Every tuple but the last pays a fee; `last` is none for
the last one itself. -/
def addTotals (n : Node π) (address : Text) (last : Option RawTx) (x : RawTx) (t : Number × Number) :
    Except Err (Number × Number) :=
  if x.address = address then do
    let debit ← add t.1 (← x.amount.toDecimal) >>= quantize 8
    if last.any (!x.eq ·) then do
      let fee ← feeCalculate x.openfield x.operation n.baseFee
      return (debit, ← add t.2 fee >>= quantize 8)
    else return (debit, t.2)
  else .ok t

/-- `_calculate_address_totals`, from the totals of the entries before. -/
def addressTotals (n : Node π) (address : Text) (t : Number × Number) :
    List RawTx → Except Err (Number × Number)
  | [] => .ok t
  | [x] => addTotals n address none x t
  | x :: y :: block => do
    addressTotals n address (← addTotals n address (y :: block).getLast? x t) (y :: block)

def coinbaseMaturity (cfg : Config π) : Nat := if cfg.network = .regnet then 2 else 100

/-- `immature_coinbase`, which is taken off after the fork. -/
def immatureCoinbase (n : Node π) (address : Text) : Except Err Number :=
  if n.postFork then do
    toDecimal (← n.store.rewardUnitsSince P cfg.mode address (n.height - coinbaseMaturity cfg))
  else .ok (.ofRat 0)

def validateBalance (n : Node π) (address : Text) (debit fees : Number) : Except Err Unit := do
  let lax := cfg.inTrustedPrefix n.height || cfg.isExempt n.height .overspend []
  let balance ← n.store.balance address
  let immature ← immatureCoinbase P cfg n address
  let spendable ← sub balance immature >>= quantize 8
  let balance ← sub spendable debit >>= quantize 8
  let short ← lt spendable (← quantize 8 debit)
  require (!short || lax) .overspend
  let short ← lt (← sub (← quantize 8 balance) (← quantize 8 fees)) (.ofRat 0)
  require (!short || lax) .feeShortfall

/-! ## Rows -/

/-- `str` of a decimal with eight decimals: with an exponent when it is small. -/
def decimalText : Number → Text
  | .fin q z =>
    let s := if isNeg q z then ['-'] else []
    let u := (Rat.halfEven (|q| * 10 ^ 8)).natAbs
    if 100 ≤ u then fixedText (isNeg q z) 8 u
    else if u < 10 then s ++ natText u ++ ['E', '-', '8']
    else s ++ natText (u / 10) ++ '.' :: natText (u % 10) ++ ['E', '-', '7']
  | .inf a => (if a then ['-'] else []) ++ ['I', 'n', 'f', 'i', 'n', 'i', 't', 'y']
  | .nan => ['N', 'a', 'N']
  | .snan => ['s', 'N', 'a', 'N']

/-- A money column: the units of `v`, or `s`, which is `str` of it. -/
def moneyColumn (mode : Mode) (v : Val) (s : Text) : Except Err Text :=
  match mode with
  | .integer => do return intText (← toUnits v)
  | .decimal => .ok s

structure RowContext (π : Type) where
  node : Node π
  block : List RawTx
  hash : Text
  oldest : Number

/-- The stored row of the fields `f`. -/
def RowContext.row (c : RowContext π) (f : TxTuple) (amount fee reward : Text) : Row where
  height := c.node.height
  timestamp := f.timestamp
  address := f.address
  recipient := f.recipient
  amount := amount
  signature := f.signature
  publicKey := f.publicKey
  blockHash := c.hash
  fee := fee
  reward := reward
  operation := f.operation
  openfield := f.openfield

/-- What every transaction of the block goes through: its age, its fields and the totals of its
sender. -/
def rowFields (c : RowContext π) (tx : RawTx) : Except Err (TxTuple × Number × Number) := do
  let old ← lt (← tx.timestamp.toFloat) c.oldest
  require (!old) .olderThanPossible
  let fields ← tx.fields c.node.postFork
  return (fields, ← addressTotals c.node fields.address (.ofRat 0, .ofRat 0) c.block)

/-- The row of a transaction that is not the last one, and its fee. -/
def spendRow (c : RowContext π) (tx : RawTx) : Except Err (Row × Number) := do
  let (f, debit, fees) ← rowFields c tx
  let fee ← feeCalculate f.openfield f.operation c.node.baseFee
  let blockFee ← quantize 8 fee
  validateBalance P cfg c.node f.address debit fees
  let amount ← moneyColumn cfg.mode (.str f.amount) f.amount
  return (c.row f amount (← moneyColumn cfg.mode (.float fee) (decimalText fee)) ['0'], blockFee)

/-- `'{:.8f}'.format(Decimal(mining_reward) + sum(fees_block))`. -/
def rewardText (miningReward : Number) (fees : List Number) : Except Err Text := do
  return formatFixed 8 (← add miningReward (← fees.foldlM add (.ofRat 0)))

/-- The row of the last transaction. -/
def coinbaseRow (c : RowContext π) (fees : List Number) (tx : RawTx) : Except Err Row := do
  let (f, _) ← rowFields c tx
  let reward ← rewardText (← calculateMiningReward cfg c.node) fees
  let wire ← tx.amount.toFloat
  require wire.isZero .coinbaseWireAmount
  return c.row f ['0'] ['0'] (← moneyColumn cfg.mode (.str reward) reward)

def removeFromMempool (signature : Text) : Digest π Unit :=
  Run.modify fun n => { n with mempool := n.mempool.erase signature }

/-- The loop of `process_transaction_balances`, with the fees of the rows before. -/
def balanceRows (c : RowContext π) (fees : List Number) : List RawTx → Digest π (List Row)
  | [] => pure []
  | [tx] => do
    let row ← Run.lift (coinbaseRow cfg c fees tx)
    removeFromMempool row.signature
    return [row]
  | tx :: y :: txs => do
    let (row, fee) ← Run.lift (spendRow P cfg c tx)
    removeFromMempool row.signature
    return row :: (← balanceRows c (fees ++ [fee]) (y :: txs))

def processTransactionBalances (block : List RawTx) (hash : Text) (miner : MinerTx) :
    Digest π (List Row) := do
  let n ← Run.get
  let oldest ← Run.lift (oldestPossible n miner)
  balanceRows P cfg { node := n, block, hash, oldest } [] block

/-! ## The block -/

def blockAlreadyExists (n : Node π) (hash : Text) : Except Err Unit := do
  require (← n.store.heightByHash hash).isNone .blockExists

def verifyProofOfWork (n : Node π) (miner : MinerTx) (t : Transaction) (diff : Val) :
    Except Err Val :=
  let nonce := if n.postFork then miner.nonceV2 else miner.nonce
  checkBlock (P.heavy3 n.postFork miner.address nonce n.lastBlockHash)
    (if cfg.network = .regnet then .int 8 else diff) t.fields.timestamp t.qTimestamp
    n.lastBlockTimestamp

def savedDifficulty (n : Node π) (s : Submission) (miner : MinerTx) (diff : Val) :
    Except Err Val := do
  let last ← (match s.block.getLast? with
    | some tx => tx.parse (s.now s.block.length) true n.postFork
    | none => .error .indexError)
  if cfg.inTrustedPrefix n.height then return diff
  else match verifyProofOfWork P cfg n miner last diff with
    | .ok d => return d
    | .error e => if e.isValueError && cfg.isExempt n.height .pow [] then return diff else throw e

def prepareBlock : Digest π Unit := do
  Run.modify (detectFork cfg)
  checkForkReward P cfg
  let baseFee ← Run.lift (blockBaseFee cfg (← Run.get))
  Run.modify fun n => { n with baseFee }

def checkTransactions (n : Node π) (s : Submission) : Except Err (List Transaction × MinerTx) := do
  let txs ← sortAndValidateTransactions P cfg n s
  let miner ← minerOf txs
  checkTimestamp cfg n miner
  if cfg.inTrustedPrefix n.height then return (txs, miner)
  else do
    checkDuplicateSignatures P cfg n s.block
    return (txs, miner)

def sealBlock (n : Node π) (s : Submission) (txs : List Transaction) (miner : MinerTx) (diff : Val) :
    Except Err (Text × Val) := do
  let hash ← blockHashAt P n.height n.forkHeight (txs.map (·.fields)) n.lastBlockHash
  cfg.verifyCheckpoint n.height hash
  blockAlreadyExists n hash
  return (hash, ← savedDifficulty P cfg n s miner diff)

def checkSenders (n : Node π) (height : Nat) (rows : List Row) : Except Err Unit :=
  require (postFork n.forkHeight height || rows.all fun r => !addressIsPostForkSenderType P r.address)
    .postForkSender

/-- The node's tip moves and the hooks run; then the senders are checked and the block is committed. -/
def commitRows (hash : Text) (rows : List Row) (diff : Val) : Digest π Unit := do
  Run.modify fun n => { n with lastBlock := n.height, lastBlockHash := hash }
  Run.modify fun n => { n with plugins := cfg.onBlock n.lastBlock rows n.plugins }
  let n ← Run.get
  Run.lift (checkSenders P n n.lastBlock rows)
  let store ← Run.lift (commitBlock P cfg.mode n.store n.lastBlock hash rows (some diff) n.forkHeight)
  Run.modify fun n => { n with store }

/-- One round of `process_block_data` up to the commit. -/
def acceptBlock (s : Submission) : Digest π Unit := do
  prepareBlock P cfg
  let (txs, miner) ← Run.lift (checkTransactions P cfg (← Run.get) s)
  let diff ← difficulty P cfg
  let (hash, saved) ← Run.lift (sealBlock P cfg (← Run.get) s txs miner diff)
  let rows ← processTransactionBalances P cfg s.block hash miner
  commitRows P cfg hash rows saved

/-- One round of `process_block_data`. -/
def processBlock (s : Submission) : Digest π Unit := do
  acceptBlock P cfg s
  let _ ← difficulty P cfg
  return ()

/-- `process_block_data`: the hash of the last block. -/
def processBlockData : List Submission → Digest π Text
  | [] => do return (← Run.get).lastBlockHash
  | s :: ss => do
    processBlock P cfg s
    processBlockData ss

/-- `DbHandler.last_block_hash`, of a ledger that holds a block. -/
def Store.lastBlockHash (st : Store) : Except Err Text :=
  match st.tip with
  | some tip => do
    match ← st.blockHash tip with
    | some hash => return hash
    | none => throw .typeError
  | none => .error .typeError

/-- The tip in memory becomes the stored one. -/
def resync (n : Node π) : Node π :=
  match n.store.tip, n.store.lastBlockHash with
  | some tip, .ok hash => { n with lastBlock := tip, lastBlockHash := hash }
  | _, _ => n

/-- `digest_block`: after a rejection the tip is read again from the ledger. -/
def digestBlock (ss : List Submission) : Digest π Text := fun n =>
  match processBlockData P cfg ss n with
  | (.ok hash, n) => (.ok hash, n)
  | (.error e, n) => (.error e, resync n)

end Bismuth
