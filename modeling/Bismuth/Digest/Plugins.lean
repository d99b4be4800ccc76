import Bismuth.Digest.Heights
import Bismuth.Digest.Rejected

/-!
# What a digest does to the plugins

The hooks run once the rows of a block are built, before the block is committed: a block that is rejected by
its commit has been handed to the plugins all the same.
-/

namespace Bismuth
open Py

variable {π : Type} {P : Prims} {cfg : Config π}

/-- The plugins were left alone, or they were handed `size` rows for the next height. -/
def Handed (cfg : Config π) (size : Nat) (n n' : Node π) : Prop :=
  n'.plugins = n.plugins ∨
    ∃ rows : List Row, rows.length = size ∧ n'.plugins = cfg.onBlock n.height rows n.plugins

theorem judgeBlock_lastBlock {n n' : Node π} (h : judgeBlock P cfg s n = (.ok j, n')) :
    n'.lastBlock = n.lastBlock := by
  simp only [judgeBlock, Run.bind_eq_ok, Run.get_eq_ok, Run.lift_eq_ok, Prod.exists] at h
  obtain ⟨_, n₁, hprep, _, _, ⟨rfl, rfl⟩, txs, miner, _, ⟨-, rfl⟩, diff, n₂, hdiff, _, _, ⟨rfl, rfl⟩, hash,
    saved, _, ⟨-, rfl⟩, hret⟩ := h
  cases hret
  obtain ⟨f, -, rfl⟩ := prepareBlock_ok hprep
  obtain ⟨t, rfl⟩ := difficulty_ok hdiff
  show (detectFork cfg n).lastBlock = _
  rw [detectFork_eq]

theorem balanceRows_withMempool (c : RowContext π) (fees : List Number) (block : List RawTx) :
    Run.Frame (fun n n' : Node π => ∃ mempool, n' = n.withMempool mempool)
      (balanceRows P cfg c fees block) := by
  have hrefl : ∀ n : Node π, ∃ mempool, n = n.withMempool mempool := fun n => ⟨n.mempool, rfl⟩
  have htrans : ∀ a b c : Node π, (∃ m, b = a.withMempool m) → (∃ m, c = b.withMempool m) →
      ∃ m, c = a.withMempool m := by
    rintro a _ _ ⟨m, rfl⟩ ⟨m', rfl⟩
    exact ⟨m', rfl⟩
  induction block generalizing fees with
  | nil => exact .pure hrefl _
  | cons tx txs ih =>
    cases txs with
    | nil =>
      exact .bind htrans (.lift hrefl _) fun row =>
        .bind htrans (.modify fun n => ⟨_, rfl⟩) fun _ => .pure hrefl _
    | cons y txs =>
      exact .bind htrans (.lift hrefl _) fun p =>
        .bind htrans (.modify fun n => ⟨_, rfl⟩) fun _ => .bind htrans (ih _) fun _ => .pure hrefl _

theorem length_balanceRows {n n' : Node π} (h : balanceRows P cfg c fees block n = (.ok rows, n')) :
    rows.length = block.length := by
  by_cases hne : block = []
  · subst hne
    cases h
    rfl
  · obtain ⟨init, last, spends, coinbase, mempool, rfl, hspends, -, rfl, -⟩ := balanceRows_ok hne h
    simp [(Except.mapM_eq_ok.1 hspends).length_eq]

/-- The hooks see the rows, whatever becomes of the commit. -/
theorem commitRows_plugins (blockHash : Text) (rows : List Row) (diff : Val) (n : Node π) :
    (commitRows P cfg blockHash rows diff n).2.plugins = cfg.onBlock n.height rows n.plugins := by
  have htrans : ∀ a b c : Node π, b.plugins = a.plugins → c.plugins = b.plugins → c.plugins = a.plugins :=
    fun _ _ _ h h' => h'.trans h
  have hrefl : ∀ n : Node π, n.plugins = n.plugins := fun _ => rfl
  have hrest : Run.Frame (fun n n' : Node π => n'.plugins = n.plugins) (do
      let n ← Run.get
      Run.lift (checkSenders P n n.lastBlock rows)
      let store ← Run.lift
        (commitBlock P cfg.mode n.store n.lastBlock blockHash rows (some diff) n.forkHeight)
      Run.modify fun n => { n with store } : Digest π Unit) :=
    .bind htrans (.get hrefl) fun _ => .bind htrans (.lift hrefl _) fun _ =>
      .bind htrans (.lift hrefl _) fun _ => .modify fun _ => rfl
  exact hrest _

theorem storeBlock_handed (s : Submission) (j : Text × Val × MinerTx) (n : Node π) :
    Handed cfg s.block.length n (storeBlock P cfg s j n).2 := by
  rw [storeBlock, processTransactionBalances, Run.bind_apply, Run.bind_apply]
  simp only [Run.get, Run.bind_apply, Run.lift]
  rcases oldestPossible n j.2.2 with e | oldest
  · exact .inl rfl
  dsimp only
  obtain ⟨mempool, hn⟩ := balanceRows_withMempool ⟨n, s.block, j.1, oldest⟩ [] s.block n
  rcases hrows : balanceRows P cfg ⟨n, s.block, j.1, oldest⟩ [] s.block n with ⟨e | rows, n'⟩
  · rw [hrows] at hn
    left
    show n'.plugins = _
    rw [show n' = _ from hn, Node.withMempool]
  · rw [hrows] at hn
    refine .inr ⟨rows, length_balanceRows hrows, ?_⟩
    obtain rfl : n' = _ := hn
    exact commitRows_plugins ..

theorem acceptBlock_handed (s : Submission) (n : Node π) :
    Handed cfg s.block.length n (acceptBlock P cfg s n).2 := by
  rw [acceptBlock_eq, Run.bind_apply]
  have hpool : SamePool n (judgeBlock P cfg s n).2 := judgeBlock_samePool s n
  rcases hj : judgeBlock P cfg s n with ⟨e | j, n₁⟩
  · rw [hj] at hpool
    exact .inl hpool.plugins
  · rw [hj] at hpool
    obtain hsame | ⟨rows, hlen, hrows⟩ : Handed cfg s.block.length n₁ (storeBlock P cfg s j n₁).2 :=
      storeBlock_handed s j n₁
    · exact .inl (hsame.trans hpool.plugins)
    · refine .inr ⟨rows, hlen, hrows.trans ?_⟩
      rw [Node.height, Node.height, judgeBlock_lastBlock hj, hpool.plugins]

theorem resync_plugins (n : Node π) : (resync n).plugins = n.plugins := by
  rw [resync]
  split <;> rfl

theorem digestBlock_handed (s : Submission) (n : Node π) :
    Handed cfg s.block.length n (digestBlock P cfg [s] n).2 := by
  have hplugins : (digestBlock P cfg [s] n).2.plugins = (acceptBlock P cfg s n).2.plugins := by
    rcases h : acceptBlock P cfg s n with ⟨e | u, n₁⟩
    · rw [digestBlock_rejected h, resync_plugins]
    · obtain ⟨t, ht | ht⟩ := digestBlock_accepted h
      · rw [ht, Node.stamped]
      · rw [ht, resync_plugins, Node.stamped]
  rw [Handed, hplugins]
  exact acceptBlock_handed s n

/-- A digest whose check of the earlier fork's reward passes keeps the tip or adds a block to it. -/
theorem Node.InStep.digest_grows {n : Node π} (H : n.InStep) (s : Submission)
    (hreward : forkRewardOk P cfg (detectFork cfg n) ≠ .ok false) :
    (digestBlock P cfg [s] n).2.lastBlock = n.lastBlock ∨
      s.block ≠ [] ∧ (digestBlock P cfg [s] n).2.lastBlock = n.lastBlock + 1 := by
  rcases h : acceptBlock P cfg s n with ⟨e | u, n₁⟩
  · left
    rcases acceptBlock_error h with hsame | ⟨-, hfalse, -⟩
    · have hranged : n₁.store.Ranged n.lastBlock := by
        rw [hsame.store, detectFork_store]
        exact H.ranged
      obtain ⟨hash, -, hres⟩ := resync_of_ranged hranged
      rw [digestBlock_rejected h, hres]
    · exact absurd hfalse hreward
  · obtain ⟨a, mempool, rfl⟩ := acceptBlock_ok h
    refine .inr ⟨by simp [a.block], ?_⟩
    obtain ⟨t, ht | ht⟩ := digestBlock_accepted h
    · rw [ht]
      exact a.node_height
    · obtain ⟨hash, -, hres⟩ := resync_of_ranged (n := (a.after mempool).stamped t) (H.accepted a).1
      rw [ht, hres]

end Bismuth
