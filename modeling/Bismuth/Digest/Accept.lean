import Bismuth.Digest.Process

/-!
# What an accepted block went through
-/

namespace Bismuth
open Py

variable {π : Type} {P : Prims} {cfg : Config π}

/-! ## The stages -/

theorem detectFork_eq (cfg : Config π) (n : Node π) : detectFork cfg n =
    { n with
      forkHeight := (detectFork cfg n).forkHeight
      forkCaughtUp := (detectFork cfg n).forkCaughtUp } := by
  rw [detectFork]
  split
  · rfl
  · split <;> rfl

theorem checkForkReward_ok (h : checkForkReward P cfg n = (.ok u, n')) : n' = n := by
  simp only [checkForkReward, Run.bind_eq_ok, Run.get_eq_ok, Run.lift_eq_ok] at h
  obtain ⟨_, _, ⟨rfl, rfl⟩, b, _, ⟨-, rfl⟩, h⟩ := h
  cases b with
  | true => exact (congrArg Prod.snd h).symm
  | false =>
    simp only [Bool.false_eq_true, if_false, Run.bind_eq_ok, Run.lift_eq_ok] at h
    obtain ⟨_, _, -, h, -⟩ := h
    cases h

theorem prepareBlock_ok (h : prepareBlock P cfg n = (.ok u, n')) :
    ∃ f, blockBaseFee cfg (detectFork cfg n) = .ok f ∧
      n' = { detectFork cfg n with baseFee := f } := by
  simp only [prepareBlock, Run.bind_eq_ok, Run.modify_eq_ok, Run.get_eq_ok] at h
  obtain ⟨_, _, rfl, _, n₁, h₁, _, _, ⟨rfl, rfl⟩, f, n₂, hf, rfl⟩ := h
  obtain ⟨hf, rfl⟩ := Run.lift_eq_ok.1 hf
  obtain rfl := checkForkReward_ok h₁
  exact ⟨f, hf, rfl⟩

def Node.stamped (n : Node π) (t : Number) : Node π := { n with lastBlockTimestamp := t }

/-- Reading the difficulty changes nothing but that timestamp. -/
theorem difficulty_frame (P : Prims) (cfg : Config π) :
    Run.Frame (fun n n' : Node π => ∃ t, n' = n.stamped t) (difficulty P cfg) := by
  have hrefl : ∀ n : Node π, ∃ t, n = n.stamped t := fun n => ⟨n.lastBlockTimestamp, rfl⟩
  have htrans : ∀ a b c : Node π, (∃ t, b = a.stamped t) → (∃ t, c = b.stamped t) →
      ∃ t, c = a.stamped t := by
    rintro a _ _ ⟨t, rfl⟩ ⟨t', rfl⟩
    exact ⟨t', rfl⟩
  refine .bind htrans (.get hrefl) fun n => ?_
  dsimp only
  split
  · exact .lift hrefl _
  · exact .bind htrans (.modify fun n => ⟨_, rfl⟩) fun _ => .lift hrefl _

theorem difficulty_ok (h : difficulty P cfg n = (.ok d, n')) : ∃ t, n' = n.stamped t := by
  obtain ⟨t, ht⟩ := difficulty_frame P cfg n
  exact ⟨t, by rw [← ht, h]⟩

def Node.withMempool (n : Node π) (mempool : OrdTable Text RawTx) : Node π := { n with mempool }

/-- All but the last transaction are spends, and the last one collects their fees. -/
theorem balanceRows_ok (hne : block ≠ [])
    (h : balanceRows P cfg c fees block n = (.ok rows, n')) :
    ∃ init last spends coinbase mempool, block = init ++ [last] ∧
      init.mapM (spendRow P cfg c) = .ok spends ∧
      coinbaseRow cfg c (fees ++ spends.map Prod.snd) last = .ok coinbase ∧
      rows = spends.map Prod.fst ++ [coinbase] ∧ n' = n.withMempool mempool := by
  induction block generalizing fees rows n with
  | nil => exact absurd rfl hne
  | cons tx txs ih =>
    cases txs with
    | nil =>
      simp only [balanceRows, removeFromMempool, Run.bind_eq_ok, Run.lift_eq_ok,
        Run.modify_eq_ok] at h
      obtain ⟨row, _, ⟨hrow, rfl⟩, _, _, rfl, h⟩ := h
      cases h
      exact ⟨[], tx, [], row, _, rfl, rfl, by simpa using hrow, rfl, rfl⟩
    | cons y txs =>
      simp only [balanceRows, removeFromMempool, Run.bind_eq_ok, Run.lift_eq_ok,
        Run.modify_eq_ok, Prod.exists] at h
      obtain ⟨row, fee, _, ⟨hrow, rfl⟩, _, _, rfl, rows', n₁, h₁, h⟩ := h
      cases h
      obtain ⟨init, last, spends, coinbase, mempool, hb, hs, hc, rfl, rfl⟩ := ih (by simp) h₁
      refine ⟨tx :: init, last, (row, fee) :: spends, coinbase, mempool, by rw [hb]; rfl, ?_, ?_,
        rfl, rfl⟩
      · rw [List.mapM_cons, hrow, Except.ok_bind, hs]
        rfl
      · simpa using hc

theorem checkTransactions_ok (h : checkTransactions P cfg n s = .ok (txs, miner)) :
    sortAndValidateTransactions P cfg n s = .ok txs ∧ minerOf txs = .ok miner ∧
      (cfg.inTrustedPrefix n.height = false → checkDuplicateSignatures P cfg n s.block = .ok ()) := by
  simp only [checkTransactions, Except.bind_eq_ok] at h
  obtain ⟨txs', h₁, miner', h₂, _, -, h⟩ := h
  split at h
  · cases h
    exact ⟨h₁, h₂, fun hn => absurd hn (by simp_all)⟩
  · simp only [Except.bind_eq_ok] at h
    obtain ⟨_, h₃, h⟩ := h
    cases h
    exact ⟨h₁, h₂, fun _ => h₃⟩

theorem sealBlock_ok {hash : Text} (h : sealBlock P cfg n s txs miner diff = .ok (hash, saved)) :
    blockHashAt P n.height n.forkHeight (txs.map (·.fields)) n.lastBlockHash = (.ok hash : Except Err _) ∧
      n.store.heightByHash hash = .ok none ∧ cfg.verifyCheckpoint n.height hash = .ok () := by
  simp only [sealBlock, blockAlreadyExists, Except.bind_eq_ok, require_eq_ok] at h
  obtain ⟨_, h₁, _, hcp, _, ⟨o, ho, hn⟩, _, -, h⟩ := h
  cases h
  exact ⟨h₁, by rw [ho, Option.isNone_iff_eq_none.1 hn], hcp⟩

/-! ## What a rejected block leaves -/

structure SameLedger (n n' : Node π) : Prop where
  store : n'.store = n.store
  forkHeight : n'.forkHeight = n.forkHeight
  forkCaughtUp : n'.forkCaughtUp = n.forkCaughtUp

theorem SameLedger.refl (n : Node π) : SameLedger n n := ⟨rfl, rfl, rfl⟩

theorem SameLedger.trans (a b c : Node π) (h : SameLedger a b) (h' : SameLedger b c) :
    SameLedger a c :=
  ⟨h'.store.trans h.store, h'.forkHeight.trans h.forkHeight, h'.forkCaughtUp.trans h.forkCaughtUp⟩

theorem removeFromMempool_frame (signature : Text) :
    Run.Frame SameLedger (removeFromMempool (π := π) signature) :=
  .modify fun _ => ⟨rfl, rfl, rfl⟩

theorem balanceRows_frame (c : RowContext π) (fees : List Number) (block : List RawTx) :
    Run.Frame SameLedger (balanceRows P cfg c fees block) := by
  induction block generalizing fees with
  | nil => exact .pure .refl _
  | cons tx txs ih =>
    cases txs with
    | nil =>
      exact .bind SameLedger.trans (.lift .refl _) fun row =>
        .bind SameLedger.trans (removeFromMempool_frame _) fun _ => .pure .refl _
    | cons y txs =>
      exact .bind SameLedger.trans (.lift .refl _) fun p =>
        .bind SameLedger.trans (removeFromMempool_frame _) fun _ =>
          .bind SameLedger.trans (ih _) fun _ => .pure .refl _

theorem difficulty_sameLedger : Run.Frame SameLedger (difficulty P cfg) := fun n => by
  obtain ⟨t, ht⟩ := difficulty_frame P cfg n
  rw [ht]
  exact ⟨rfl, rfl, rfl⟩

theorem commitRows_fails (hash : Text) (rows : List Row) (diff : Val) :
    Run.Fails SameLedger (commitRows P cfg hash rows diff) :=
  .bind SameLedger.trans (.modify fun _ => ⟨rfl, rfl, rfl⟩) fun _ =>
    .bind SameLedger.trans (.modify fun _ => ⟨rfl, rfl, rfl⟩) fun _ =>
      .bind SameLedger.trans (.get .refl) fun _ =>
        .bind SameLedger.trans (.lift .refl _) fun _ =>
          .bind SameLedger.trans (.lift .refl _) fun _ => .modify _

/-- What `prepare_block` leaves: the ledger, unless the reward of the earlier fork is out of order. -/
def Prepared (P : Prims) (cfg : Config π) (n n' : Node π) : Prop :=
  SameLedger (detectFork cfg n) n' ∨ ∃ removed,
    forkRewardOk P cfg (detectFork cfg n) = .ok false ∧
    rollback P cfg.mode n.store ((cfg.rewardFork - 1 : Nat) - 1) (detectFork cfg n).forkHeight =
      .ok (n'.store, removed) ∧
    n' = { detectFork cfg n with store := n'.store }

theorem detectFork_store (cfg : Config π) (n : Node π) : (detectFork cfg n).store = n.store := by
  rw [detectFork_eq]

theorem prepareBlock_cases (P : Prims) (cfg : Config π) (n : Node π) :
    Prepared P cfg n (prepareBlock P cfg n).2 := by
  have hfee : Run.Frame SameLedger (do
      let baseFee ← Run.lift (blockBaseFee cfg (← Run.get))
      Run.modify fun n : Node π => { n with baseFee } : Digest π Unit) :=
    .bind SameLedger.trans (.get .refl) fun _ =>
      .bind SameLedger.trans (.lift .refl _) fun _ => .modify fun _ => ⟨rfl, rfl, rfl⟩
  simp only [prepareBlock, checkForkReward, rollbackUnder, Run.bind_apply, Run.modify, Run.get,
    Run.lift]
  cases hok : forkRewardOk P cfg (detectFork cfg n) with
  | error e => exact .inl (.refl _)
  | ok b =>
    cases b with
    | true => exact .inl (hfee _)
    | false =>
      simp only [Bool.false_eq_true, if_false, Run.bind_apply, Run.modify, Run.get, Run.lift,
        detectFork_store]
      cases hr : rollback P cfg.mode n.store ((cfg.rewardFork - 1 : Nat) - 1)
          (detectFork cfg n).forkHeight with
      | error e => exact .inl (.refl _)
      | ok p => exact .inr ⟨p.2, hok, hr, rfl⟩

/-- A block that is rejected leaves the ledger as the preparation did. -/
theorem acceptBlock_error (h : acceptBlock P cfg s n = (.error e, n')) : Prepared P cfg n n' := by
  have hp := prepareBlock_cases P cfg n
  rw [acceptBlock, Run.bind_apply] at h
  rcases hx : prepareBlock P cfg n with ⟨e' | u, n₁⟩
  · rw [hx] at h hp
    cases h
    exact hp
  · rw [hx] at h
    dsimp only at h
    -- the rest of the block does not write to the ledger before its last step
    have hrest : SameLedger n₁ n' := by
      refine Run.Fails.of_error ?_ h
      exact .bind SameLedger.trans (.get .refl) fun _ => .bind SameLedger.trans (.lift .refl _) fun _ =>
        .bind SameLedger.trans difficulty_sameLedger fun _ =>
          .bind SameLedger.trans (.get .refl) fun _ => .bind SameLedger.trans (.lift .refl _) fun _ =>
            .bind SameLedger.trans (.bind SameLedger.trans (.get .refl) fun _ =>
              .bind SameLedger.trans (.lift .refl _) fun _ => balanceRows_frame _ _ _)
              fun _ => commitRows_fails _ _ _
    obtain ⟨f, -, rfl⟩ := prepareBlock_ok hx
    exact .inl ⟨hrest.store, hrest.forkHeight, hrest.forkCaughtUp⟩

/-! ## The whole block -/

section
variable (P : Prims) (cfg : Config π)

/-- What the node `n` computed while it accepted the block `s`. -/
structure Acceptance (n : Node π) (s : Submission) where
  /-- The node once the fork was looked for and the base fee set. -/
  node : Node π
  prepared : ∃ f, blockBaseFee cfg (detectFork cfg n) = .ok f ∧
    node = { detectFork cfg n with baseFee := f }
  txs : List Transaction
  miner : MinerTx
  checked : checkTransactions P cfg node s = .ok (txs, miner)
  stamp : Number
  diff : Val
  required : difficulty P cfg node = (.ok diff, node.stamped stamp)
  hash : Text
  saved : Val
  hashed : sealBlock P cfg (node.stamped stamp) s txs miner diff = .ok (hash, saved)
  oldest : Number
  oldest_eq : oldestPossible (node.stamped stamp) miner = .ok oldest
  init : List RawTx
  last : RawTx
  block : s.block = init ++ [last]
  spends : List (Row × Number)
  coinbase : Row
  spends_eq : init.mapM (spendRow P cfg ⟨node.stamped stamp, s.block, hash, oldest⟩) = .ok spends
  coinbase_eq : coinbaseRow cfg ⟨node.stamped stamp, s.block, hash, oldest⟩
    (spends.map Prod.snd) last = .ok coinbase
  senders : checkSenders P node node.height (spends.map Prod.fst ++ [coinbase]) = .ok ()
  store : Store
  commit : commitBlock P cfg.mode node.store node.height hash (spends.map Prod.fst ++ [coinbase])
    (some saved) node.forkHeight = .ok store

end

namespace Acceptance
variable {n : Node π} {s : Submission} (a : Acceptance P cfg n s)

def context : RowContext π := ⟨a.node.stamped a.stamp, s.block, a.hash, a.oldest⟩

def rows : List Row := a.spends.map Prod.fst ++ [a.coinbase]

def after (mempool : OrdTable Text RawTx) : Node π :=
  { a.node with
    store := a.store
    plugins := cfg.onBlock a.node.height a.rows a.node.plugins
    mempool := mempool
    lastBlock := a.node.height
    lastBlockHash := a.hash
    lastBlockTimestamp := a.stamp }

theorem node_eq : a.node = { n with
    forkHeight := (detectFork cfg n).forkHeight
    forkCaughtUp := (detectFork cfg n).forkCaughtUp
    baseFee := a.node.baseFee } := by
  obtain ⟨f, -, h⟩ := a.prepared
  rw [h, detectFork_eq]

@[simp] theorem node_store : a.node.store = n.store := by rw [a.node_eq]
@[simp] theorem node_lastBlock : a.node.lastBlock = n.lastBlock := by rw [a.node_eq]
@[simp] theorem node_lastBlockHash : a.node.lastBlockHash = n.lastBlockHash := by rw [a.node_eq]
@[simp] theorem node_height : a.node.height = n.height := by rw [a.node_eq]; rfl

theorem node_forkHeight : a.node.forkHeight = (detectFork cfg n).forkHeight := by rw [a.node_eq]

end Acceptance

theorem acceptBlock_ok (h : acceptBlock P cfg s n = (.ok u, n')) :
    ∃ (a : Acceptance P cfg n s) (mempool : _), n' = a.after mempool := by
  simp only [acceptBlock, processTransactionBalances, commitRows, Run.bind_eq_ok, Run.get_eq_ok,
    Run.modify_eq_ok, Prod.exists] at h
  obtain ⟨_, n₁, h₁, _, _, ⟨rfl, rfl⟩, txs, miner, n₂, h₂, diff, n₃, h₃, _, _, ⟨rfl, rfl⟩, hash,
    saved, n₄, h₄, rows, n₅, ⟨_, _, ⟨rfl, rfl⟩, oldest, n₆, h₆, h₅⟩, _, _, rfl, _, _, rfl, _, _,
    ⟨rfl, rfl⟩, _, n₇, h₇, store, n₈, h₈, rfl⟩ := h
  obtain ⟨checked, rfl⟩ := Run.lift_eq_ok.1 h₂
  obtain ⟨stamp, rfl⟩ := difficulty_ok h₃
  obtain ⟨hashed, rfl⟩ := Run.lift_eq_ok.1 h₄
  obtain ⟨oldest_eq, rfl⟩ := Run.lift_eq_ok.1 h₆
  obtain ⟨senders, rfl⟩ := Run.lift_eq_ok.1 h₇
  obtain ⟨commit, rfl⟩ := Run.lift_eq_ok.1 h₈
  have hne : s.block ≠ [] := by
    rintro hb
    obtain ⟨ht, hm, -⟩ := checkTransactions_ok checked
    rw [sortAndValidateTransactions, hb] at ht
    cases ht
    cases hm
  obtain ⟨init, last, spends, coinbase, mempool, hblock, hs, hc, rfl, rfl⟩ := balanceRows_ok hne h₅
  exact ⟨{ node := n₂, prepared := prepareBlock_ok h₁, txs, miner, checked, stamp, diff,
           required := h₃, hash, saved, hashed, oldest, oldest_eq, init, last, block := hblock,
           spends, coinbase, spends_eq := hs, coinbase_eq := hc, senders, store, commit },
    mempool, rfl⟩

end Bismuth
