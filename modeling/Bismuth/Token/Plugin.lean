import Bismuth.Store.Query
import Bismuth.Token.Live

/-!
# The plugin of tokens and aliases

`plugins/tokens_aliases`: what the index does with the rows of a block when it is committed (`on_block`) and with
the rows of the ledger when the node starts (`backfill`). What a row asks for is an `Act`; the handlers are shown
to be the calls of the index that the acts stand for.
-/

namespace Bismuth
open Py

/-! ## Calls of the alias methods -/

inductive AliasCall where
  | register (height : Nat) (address name : Text)
  | transfer (height : Nat) (sender recipient name : Text)
  | free (height : Nat) (sender name : Text)
  deriving DecidableEq

namespace AliasCall

def height : AliasCall → Nat
  | register h _ _ | transfer h _ _ _ | free h _ _ => h

def name : AliasCall → Text
  | register _ _ name | transfer _ _ _ name | free _ _ name => name

def run (ti : TokenIndex) : AliasCall → Except Err (Bool × TokenIndex)
  | register h address name => ti.registerAlias h address name
  | transfer h sender recipient name => ti.transferAlias h sender recipient name
  | free h sender name => ti.freeAlias h sender name

/-- The store after the call, whether it returns or raises. -/
def apply (ti : TokenIndex) (c : AliasCall) : TokenIndex :=
  match c.run ti with
  | .ok (_, ti') => ti'
  | .error _ => ti

end AliasCall

/-! ## Handlers -/

def rewardIsZero (reward : Val) : Bool :=
  reward = .str [] || match (reward.toFloat : Except Err Number) with
    | .ok x => x.isZero
    | .error _ => false

/-- `s.split(":")[i]`. -/
def colonField (s : Text) (i : Nat) : Except Err Text :=
  match (s.splitOn ':')[i]? with
  | some t => .ok t
  | none => .error .indexError

/-- `except Exception`: what is raised is logged and the store stays. -/
def caught (ti : TokenIndex) : Except Err (Bool × TokenIndex) → TokenIndex
  | .ok (_, ti') => ti'
  | .error _ => ti

namespace TokensAliases

/-- What the handlers take from outside: `str.lower`, and the BLAKE2b digest of a row in `_blake2b_txid`. -/
structure Env where
  lower : Text → Text
  blake2bTxid : Nat → Val → Text → Text → Text → Text → Text

variable (E : Env)

def issue (height : Nat) (recipient signature openfield : Text) (ti : TokenIndex) : TokenIndex :=
  caught ti do
    let token := strip (E.lower (← colonField openfield 0))
    if ← ti.hasToken token then return (false, ti)
    else ti.registerIssue height token recipient (signature.take 56) (.str (← colonField openfield 1))

def transfer (height : Nat) (ts : Val) (sender recipient signature openfield : Text)
    (ti : TokenIndex) : TokenIndex :=
  caught ti do
    let token ← colonField openfield 0
    let txid := if signature.take 56 = ['0'] then
      E.blake2bTxid height ts sender recipient signature openfield else signature.take 56
    if ← ti.hasTxid txid then return (false, ti)
    else
      let amount := match (do Py.int (← colonField openfield 1) : Except Err Int) with
        | .ok n => n
        | .error _ => 0
      let balance := ti.tokenCredit token sender height - ti.tokenDebit token sender height
      if 0 ≤ balance - amount ∧ 0 < amount then
        ti.applyTransfer height token sender recipient txid (.int amount)
      else ti.markNoop height txid

def aliasMark : Text := ['a', 'l', 'i', 'a', 's', '=']

/-- `_alias`. -/
def legacyAlias (height : Nat) (address openfield : Text) (ti : TokenIndex) : TokenIndex :=
  caught ti (ti.registerAlias height address
    (if aliasMark.isPrefixOf openfield then openfield.drop aliasMark.length else openfield))

def aliasRegister (height : Nat) (address openfield : Text) (ti : TokenIndex) : TokenIndex :=
  if strip openfield = [] then ti else caught ti (ti.registerAlias height address (strip openfield))

def aliasTransfer (height : Nat) (sender openfield : Text) (ti : TokenIndex) : TokenIndex :=
  match openfield.span (· ≠ ':') with
  | (_, []) => ti
  | (recipient, _ :: name) =>
    if strip recipient = [] ∨ strip name = [] then ti
    else if strip recipient = sender then ti
    else caught ti (ti.transferAlias height sender (strip recipient) (strip name))

def aliasFree (height : Nat) (sender openfield : Text) (ti : TokenIndex) : TokenIndex :=
  if strip openfield = [] then ti else caught ti (ti.freeAlias height sender (strip openfield))

def opIssue : Text := "token:issue".toList
def opTransfer : Text := "token:transfer".toList
def opAliasRegister : Text := "alias:register".toList
def opAliasTransfer : Text := "alias:transfer".toList
def opAliasFree : Text := "alias:free".toList

/-! ## `on_block` -/

/-- A row in the first loop of `on_block`. -/
def issueRow (height : Nat) (ti : TokenIndex) (r : Row) : TokenIndex :=
  if r.operation = opIssue ∧ rewardIsZero (.str r.reward) then
    issue E height r.recipient r.signature r.openfield ti
  else ti

def otherRow (height : Nat) (ti : TokenIndex) (r : Row) : TokenIndex :=
  if ¬rewardIsZero (.str r.reward) then ti
  else if r.operation = opTransfer then
    transfer E height (.str r.timestamp) r.address r.recipient r.signature r.openfield ti
  else if r.operation = opAliasRegister then aliasRegister height r.address r.openfield ti
  else if r.operation = opAliasTransfer then aliasTransfer height r.address r.openfield ti
  else if r.operation = opAliasFree then aliasFree height r.address r.openfield ti
  else if aliasMark.isPrefixOf r.openfield then legacyAlias height r.address r.openfield ti
  else ti

def onBlock (height : Nat) (rows : List Row) (ti : TokenIndex) : TokenIndex :=
  rows.foldl (otherRow E height) (rows.foldl (issueRow E height) ti)

/-! ## `backfill` -/

/-- A row that `scan_ledger_operations` yields. -/
structure ScanRow where
  height : Nat
  timestamp : Val
  address : Text
  recipient : Text
  signature : Text
  operation : Text
  openfield : Text

def ScanRow.of (r : TypedRow) : ScanRow :=
  ⟨r.height, r.timestamp, r.address, r.recipient, r.signature, r.operation, r.openfield⟩

def aliasOps : List Text := [opAliasRegister, opAliasTransfer, opAliasFree]

/-- The filter of `scan_ledger_operations`, with the arguments that `backfill` gives it. -/
def scanned (r : TypedRow) : Bool :=
  rewardIsZero r.reward &&
    ((opIssue :: opTransfer :: aliasOps).contains r.operation || aliasMark.isPrefixOf r.openfield)

def scanLedgerOperations (P : Prims) (mode : Mode) (st : Store) (fromHeight : Nat) :
    Except Err (List ScanRow) := do
  match st.tip with
  | none => return []
  | some tip =>
    return ((← st.blocksInRange P mode fromHeight tip).flatMap fun b => b.2.filter scanned).map .of

def aliasRow (ti : TokenIndex) (r : ScanRow) : TokenIndex :=
  if r.operation = opAliasRegister then aliasRegister r.height r.address r.openfield ti
  else if r.operation = opAliasTransfer then aliasTransfer r.height r.address r.openfield ti
  else if r.operation = opAliasFree then aliasFree r.height r.address r.openfield ti
  else ti

/-- `backfill` of the rows that were scanned. -/
def backfillRows (rows : List ScanRow) (ti : TokenIndex) : TokenIndex :=
  let issues := rows.filter fun r => r.operation = opIssue ∧ ti.tokAnchor ≤ r.height
  let transfers := rows.filter fun r => r.operation = opTransfer ∧ ti.tokAnchor ≤ r.height
  let ops := rows.filter fun r => r.operation ∈ aliasOps ∧ ti.aliasAnchor ≤ r.height
  let legacy := rows.filter fun r =>
    r.operation ∉ opIssue :: opTransfer :: aliasOps ∧ ti.aliasAnchor ≤ r.height
  let ti := issues.foldl (fun ti r => issue E r.height r.recipient r.signature r.openfield ti) ti
  let ti := transfers.foldl (fun ti r =>
    transfer E r.height r.timestamp r.address r.recipient r.signature r.openfield ti) ti
  let ti := legacy.foldl (fun ti r => legacyAlias r.height r.address r.openfield ti) ti
  ops.foldl aliasRow ti

def backfill (P : Prims) (mode : Mode) (st : Store) (ti : TokenIndex) : Except Err TokenIndex := do
  return backfillRows E (← scanLedgerOperations P mode st (min ti.tokAnchor ti.aliasAnchor)) ti

end TokensAliases

/-! ## Acts -/

structure TransferAct where
  height : Nat
  token : Text
  sender : Text
  recipient : Text
  txid : Text
  amount : Int

/-- The call that it stands for when the sender has `balance`. -/
def TransferAct.call (t : TransferAct) (balance : Int) : TokenCall :=
  if 0 ≤ balance - t.amount ∧ 0 < t.amount then
    .applyTransfer t.height t.token t.sender t.recipient t.txid (.int t.amount)
  else .markNoop t.height t.txid

def TransferAct.apply (ti : TokenIndex) (t : TransferAct) : TokenIndex :=
  (t.call (ti.tokenCredit t.token t.sender t.height - ti.tokenDebit t.token t.sender t.height)).apply ti

inductive Act where
  | issue (height : Nat) (token issuer txid : Text) (supply : Val)
  | transfer (t : TransferAct)
  | name (c : AliasCall)

def Act.apply (ti : TokenIndex) : Act → TokenIndex
  | issue height token issuer txid supply => (TokenCall.registerIssue height token issuer txid supply).apply ti
  | transfer t => t.apply ti
  | name c => c.apply ti

def Act.applyAll (acts : List Act) (ti : TokenIndex) : TokenIndex := acts.foldl Act.apply ti

def Act.height : Act → Nat
  | issue height _ _ _ _ => height
  | transfer t => t.height
  | name c => c.height

theorem Act.applyAll_append (as bs : List Act) (ti : TokenIndex) :
    applyAll (as ++ bs) ti = applyAll bs (applyAll as ti) := List.foldl_append

theorem Act.foldl_eq_applyAll {f : TokenIndex → α → TokenIndex} {acts : α → List Act}
    (h : ∀ ti a, f ti a = applyAll (acts a) ti) (l : List α) (ti : TokenIndex) :
    l.foldl f ti = applyAll (l.flatMap acts) ti := by
  induction l generalizing ti with
  | nil => rfl
  | cons a l ih => rw [List.foldl_cons, ih, h, List.flatMap_cons, applyAll_append]

theorem caught_run (c : TokenCall) (ti : TokenIndex) : caught ti (c.run ti) = c.apply ti := by
  rw [TokenCall.apply]
  cases c.run ti with
  | error => rfl
  | ok => rfl

theorem caught_run_alias (c : AliasCall) (ti : TokenIndex) : caught ti (c.run ti) = c.apply ti := by
  rw [AliasCall.apply]
  cases c.run ti with
  | error => rfl
  | ok => rfl

theorem TokenCall.apply_of_hasTxid {c : TokenCall} {ti : TokenIndex} (h : ti.hasTxid txid = .ok true)
    (hc : ∀ op, c.op = .ok op → op.txid = txid) : c.apply ti = ti := by
  refine apply_of_not_takes fun op hop htakes => ?_
  obtain ⟨_, hget, h⟩ := Except.bind_eq_ok.1 h
  obtain ⟨-, rfl⟩ := lmdbGet_eq_ok.1 hget
  rw [← hc op hop, htakes.2.2.1] at h
  cases h

theorem TransferAct.txid_of_call {t : TransferAct} (h : (t.call balance).op = .ok op) : op.txid = t.txid := by
  rw [call] at h
  split at h
  · cases h
    rfl
  · cases h
    rfl

namespace TokensAliases
variable (E : Env)

def tokenField (openfield : Text) : Text := ((openfield.splitOn ':')[0]?).getD []

theorem colonField_zero (s : Text) : colonField s 0 = .ok (tokenField s) := by
  rw [colonField, tokenField]
  cases h : s.splitOn ':' with
  | nil => exact absurd h (List.splitOn_ne_nil _ _)
  | cons => rfl

def issueActs (height : Nat) (recipient signature openfield : Text) : List Act :=
  match colonField openfield 1 with
  | .ok supply =>
    [.issue height (strip (E.lower (tokenField openfield))) recipient (signature.take 56) (.str supply)]
  | .error _ => []

theorem registerIssue_of_hasToken {ti : TokenIndex} (h : ti.hasToken token = .ok true) :
    (TokenCall.registerIssue height token issuer txid supply).apply ti = ti := by
  refine TokenCall.apply_of_not_takes fun op hop htakes => ?_
  obtain ⟨n, -, hn⟩ := Except.bind_eq_ok.1 hop
  cases hn
  obtain ⟨_, hget, h⟩ := Except.bind_eq_ok.1 h
  obtain ⟨-, rfl⟩ := lmdbGet_eq_ok.1 hget
  rw [htakes.2.2.2 _ _ rfl] at h
  cases h

theorem issue_eq (height : Nat) (recipient signature openfield : Text) (ti : TokenIndex) :
    issue E height recipient signature openfield ti =
      Act.applyAll (issueActs E height recipient signature openfield) ti := by
  rw [issue, issueActs, colonField_zero, Except.ok_bind]
  generalize strip (E.lower (tokenField openfield)) = token
  dsimp only
  cases hknown : ti.hasToken token with
  | error e =>
    -- the empty name: `register_issue` raises as well
    cases colonField openfield 1 with
    | error => rfl
    | ok supply =>
      refine (TokenCall.apply_of_not_takes fun op hop htakes => ?_).symm
      obtain ⟨n, -, hn⟩ := Except.bind_eq_ok.1 hop
      cases hn
      rw [TokenIndex.hasToken, lmdbGet, if_neg (htakes.1.2.2.2 _ rfl).1] at hknown
      cases hknown
  | ok known =>
    cases known with
    | true =>
      cases colonField openfield 1 with
      | error => rfl
      | ok supply => exact (registerIssue_of_hasToken hknown).symm
    | false =>
      cases colonField openfield 1 with
      | error => rfl
      | ok supply => exact caught_run (.registerIssue height token recipient _ _) ti

/-- The amount of a transfer; one that cannot be read is zero. -/
def amountField (openfield : Text) : Int :=
  match (do Py.int (← colonField openfield 1) : Except Err Int) with
  | .ok n => n
  | .error _ => 0

def transferAct (height : Nat) (ts : Val) (sender recipient signature openfield : Text) : TransferAct where
  height
  token := tokenField openfield
  sender
  recipient
  txid := if signature.take 56 = ['0'] then
    E.blake2bTxid height ts sender recipient signature openfield else signature.take 56
  amount := amountField openfield

theorem transfer_eq (height : Nat) (ts : Val) (sender recipient signature openfield : Text)
    (ti : TokenIndex) : transfer E height ts sender recipient signature openfield ti =
      (transferAct E height ts sender recipient signature openfield).apply ti := by
  generalize hact : transferAct E height ts sender recipient signature openfield = t
  have htxid : (if signature.take 56 = ['0'] then
      E.blake2bTxid height ts sender recipient signature openfield else signature.take 56) = t.txid := by
    rw [← hact]
    rfl
  have hrest : t.height = height ∧ t.token = tokenField openfield ∧ t.sender = sender ∧
      t.recipient = recipient ∧ t.amount = amountField openfield := by
    rw [← hact]
    exact ⟨rfl, rfl, rfl, rfl, rfl⟩
  rw [transfer, colonField_zero, Except.ok_bind]
  simp only [htxid]
  cases hknown : ti.hasTxid t.txid with
  | error e =>
    -- no signature: both calls raise as well
    refine (TokenCall.apply_of_not_takes fun op hop htakes => ?_).symm
    rw [TokenIndex.hasTxid, lmdbGet, if_neg (TransferAct.txid_of_call hop ▸ htakes.1.2.1)] at hknown
    cases hknown
  | ok known =>
    cases known with
    | true => exact (TokenCall.apply_of_hasTxid hknown fun _ => TransferAct.txid_of_call).symm
    | false =>
      obtain ⟨rfl, htoken, rfl, rfl, hamount⟩ := hrest
      rw [TransferAct.apply, TransferAct.call, htoken, hamount, ← caught_run]
      simp only [Except.ok_bind, Bool.false_eq_true, if_false]
      rw [← amountField]
      split
      · rfl
      · rfl

/-- The calls of a structured alias operation: one, or none when its openfield is malformed. -/
def aliasCalls (height : Nat) (address operation openfield : Text) : List AliasCall :=
  if operation = opAliasRegister then
    if strip openfield = [] then [] else [.register height address (strip openfield)]
  else if operation = opAliasTransfer then
    match openfield.span (· ≠ ':') with
    | (_, []) => []
    | (recipient, _ :: name) =>
      if strip recipient = [] ∨ strip name = [] then []
      else if strip recipient = address then []
      else [.transfer height address (strip recipient) (strip name)]
  else if operation = opAliasFree then
    if strip openfield = [] then [] else [.free height address (strip openfield)]
  else []

theorem length_aliasCalls_le (height : Nat) (address operation openfield : Text) :
    (aliasCalls height address operation openfield).length ≤ 1 := by
  rw [aliasCalls]
  split
  · split <;> simp
  · split
    · split
      · simp
      · split
        · simp
        · split <;> simp
    · split
      · split <;> simp
      · simp

theorem height_of_mem_aliasCalls (h : c ∈ aliasCalls height address operation openfield) :
    c.height = height := by
  rw [aliasCalls] at h
  split at h
  · split at h
    · cases h
    · obtain rfl := List.mem_singleton.1 h
      rfl
  · split at h
    · split at h
      · cases h
      · split at h
        · cases h
        · split at h
          · cases h
          · obtain rfl := List.mem_singleton.1 h
            rfl
    · split at h
      · split at h
        · cases h
        · obtain rfl := List.mem_singleton.1 h
          rfl
      · cases h

def legacyCall (height : Nat) (address openfield : Text) : AliasCall :=
  .register height address
    (if aliasMark.isPrefixOf openfield then openfield.drop aliasMark.length else openfield)

theorem aliasRegister_eq (height : Nat) (address openfield : Text) (ti : TokenIndex) :
    aliasRegister height address openfield ti =
      Act.applyAll ((aliasCalls height address opAliasRegister openfield).map .name) ti := by
  rw [aliasRegister, aliasCalls, if_pos rfl]
  split
  · rfl
  · exact caught_run_alias (.register _ _ _) ti

theorem aliasTransfer_eq (height : Nat) (sender openfield : Text) (ti : TokenIndex) :
    aliasTransfer height sender openfield ti =
      Act.applyAll ((aliasCalls height sender opAliasTransfer openfield).map .name) ti := by
  rw [aliasTransfer, aliasCalls, if_neg (by decide), if_pos rfl]
  split
  · rfl
  · split
    · rfl
    · split
      · rfl
      · exact caught_run_alias (.transfer _ _ _ _) ti

theorem aliasFree_eq (height : Nat) (sender openfield : Text) (ti : TokenIndex) :
    aliasFree height sender openfield ti =
      Act.applyAll ((aliasCalls height sender opAliasFree openfield).map .name) ti := by
  have hcalls : aliasCalls height sender opAliasFree openfield =
      if strip openfield = [] then [] else [.free height sender (strip openfield)] := by
    rw [aliasCalls, if_neg (by decide), if_neg (by decide), if_pos rfl]
  rw [aliasFree, hcalls]
  split
  · rfl
  · exact caught_run_alias (.free _ _ _) ti

theorem aliasRow_eq (ti : TokenIndex) (r : ScanRow) : aliasRow ti r =
    Act.applyAll ((aliasCalls r.height r.address r.operation r.openfield).map .name) ti := by
  rw [aliasRow]
  split
  · rename_i h
    rw [aliasRegister_eq, h]
  · rename_i h1
    split
    · rename_i h
      rw [aliasTransfer_eq, h]
    · rename_i h2
      split
      · rename_i h
        rw [aliasFree_eq, h]
      · rename_i h3
        rw [aliasCalls, if_neg h1, if_neg h2, if_neg h3]
        rfl

/-! ## The acts of a block and of a scan -/

def issueRowActs (height : Nat) (r : Row) : List Act :=
  if r.operation = opIssue ∧ rewardIsZero (.str r.reward) then
    issueActs E height r.recipient r.signature r.openfield
  else []

def otherRowActs (height : Nat) (r : Row) : List Act :=
  if ¬rewardIsZero (.str r.reward) then []
  else if r.operation = opTransfer then
    [.transfer (transferAct E height (.str r.timestamp) r.address r.recipient r.signature r.openfield)]
  else if r.operation ∈ aliasOps then (aliasCalls height r.address r.operation r.openfield).map .name
  else if aliasMark.isPrefixOf r.openfield then [.name (legacyCall height r.address r.openfield)]
  else []

def blockActs (height : Nat) (rows : List Row) : List Act :=
  rows.flatMap (issueRowActs E height) ++ rows.flatMap (otherRowActs E height)

theorem otherRow_eq (height : Nat) (ti : TokenIndex) (r : Row) :
    otherRow E height ti r = Act.applyAll (otherRowActs E height r) ti := by
  rw [otherRow, otherRowActs]
  split
  · rfl
  · split
    · exact transfer_eq E _ _ _ _ _ _ ti
    · have hops : r.operation ∈ aliasOps ↔ r.operation = opAliasRegister ∨
          r.operation = opAliasTransfer ∨ r.operation = opAliasFree := by
        simp [aliasOps]
      by_cases h1 : r.operation = opAliasRegister
      · rw [if_pos h1, if_pos (hops.2 (.inl h1)), aliasRegister_eq, h1]
      · rw [if_neg h1]
        by_cases h2 : r.operation = opAliasTransfer
        · rw [if_pos h2, if_pos (hops.2 (.inr (.inl h2))), aliasTransfer_eq, h2]
        · rw [if_neg h2]
          by_cases h3 : r.operation = opAliasFree
          · rw [if_pos h3, if_pos (hops.2 (.inr (.inr h3))), aliasFree_eq, h3]
          · have hno : r.operation ∉ aliasOps := by simp [hops, h1, h2, h3]
            rw [if_neg h3, if_neg hno]
            split
            · exact caught_run_alias (.register _ _ _) ti
            · rfl

theorem onBlock_eq (height : Nat) (rows : List Row) (ti : TokenIndex) :
    onBlock E height rows ti = Act.applyAll (blockActs E height rows) ti := by
  have hissue (ti : TokenIndex) (r : Row) :
      issueRow E height ti r = Act.applyAll (issueRowActs E height r) ti := by
    rw [issueRow, issueRowActs]
    split
    · exact issue_eq E _ _ _ _ ti
    · rfl
  rw [onBlock, Act.foldl_eq_applyAll hissue, Act.foldl_eq_applyAll (otherRow_eq E height),
    blockActs, Act.applyAll_append]

/-- The acts of a scan that starts at the two anchors, in the order of `backfill`. -/
def scanActs (tokAnchor aliasAnchor : Nat) (rows : List ScanRow) : List Act :=
  (rows.filter fun r => r.operation = opIssue ∧ tokAnchor ≤ r.height).flatMap
    (fun r => issueActs E r.height r.recipient r.signature r.openfield) ++
  ((rows.filter fun r => r.operation = opTransfer ∧ tokAnchor ≤ r.height).map fun r => Act.transfer
    (transferAct E r.height r.timestamp r.address r.recipient r.signature r.openfield)) ++
  ((rows.filter fun r => r.operation ∉ opIssue :: opTransfer :: aliasOps ∧ aliasAnchor ≤ r.height).map
    fun r => Act.name (legacyCall r.height r.address r.openfield)) ++
  (rows.filter fun r => r.operation ∈ aliasOps ∧ aliasAnchor ≤ r.height).flatMap
    (fun r => (aliasCalls r.height r.address r.operation r.openfield).map .name)

theorem backfillRows_eq (rows : List ScanRow) (ti : TokenIndex) :
    backfillRows E rows ti = Act.applyAll (scanActs E ti.tokAnchor ti.aliasAnchor rows) ti := by
  have htransfer (ti : TokenIndex) (r : ScanRow) :
      transfer E r.height r.timestamp r.address r.recipient r.signature r.openfield ti =
        Act.applyAll [.transfer (transferAct E r.height r.timestamp r.address r.recipient r.signature
          r.openfield)] ti := transfer_eq E _ _ _ _ _ _ ti
  have hlegacy (ti : TokenIndex) (r : ScanRow) : legacyAlias r.height r.address r.openfield ti =
      Act.applyAll [.name (legacyCall r.height r.address r.openfield)] ti :=
    caught_run_alias (.register _ _ _) ti
  rw [backfillRows, Act.foldl_eq_applyAll fun ti (r : ScanRow) =>
    issue_eq E r.height r.recipient r.signature r.openfield ti, Act.foldl_eq_applyAll htransfer,
    Act.foldl_eq_applyAll hlegacy, Act.foldl_eq_applyAll aliasRow_eq, scanActs, Act.applyAll_append,
    Act.applyAll_append, Act.applyAll_append, List.map_eq_flatMap, List.map_eq_flatMap]

end TokensAliases

end Bismuth
