import Bismuth.Digest.Spend

/-!
# Rejected blocks

What a call of `process_block_data` leaves when it rejects a block: the ledger as the blocks before left
it, unless the reward after the earlier fork is out of order and the chain is rolled back below it.
-/

namespace Bismuth
open Py

variable {π : Type}

section
variable (P : Prims) (cfg : Config π)

/-- The part of `process_block_data` that judges a block, before its rows are built. -/
def judgeBlock (s : Submission) : Digest π (Text × Val × MinerTx) := do
  prepareBlock P cfg
  let (txs, miner) ← Run.lift (checkTransactions P cfg (← Run.get) s)
  let diff ← difficulty P cfg
  let (hash, saved) ← Run.lift (sealBlock P cfg (← Run.get) s txs miner diff)
  return (hash, saved, miner)

def storeBlock (s : Submission) (j : Text × Val × MinerTx) : Digest π Unit := do
  let rows ← processTransactionBalances P cfg s.block j.1 j.2.2
  commitRows P cfg j.1 rows j.2.1

end

variable {P : Prims} {cfg : Config π}

theorem acceptBlock_eq (s : Submission) :
    acceptBlock P cfg s = judgeBlock P cfg s >>= storeBlock P cfg s := by
  funext n
  simp only [acceptBlock, judgeBlock, Run.bind_apply]
  rcases prepareBlock P cfg n with ⟨_ | _, n₁⟩
  · rfl
  simp only [Run.get, Run.lift]
  rcases checkTransactions P cfg n₁ s with _ | ⟨txs, miner⟩
  · rfl
  simp only
  rcases difficulty P cfg n₁ with ⟨_ | diff, n₂⟩
  · rfl
  simp only
  rcases sealBlock P cfg n₂ s txs miner diff with _ | ⟨hash, saved⟩
  · rfl
  · rfl

structure SamePool (n n' : Node π) : Prop where
  plugins : n'.plugins = n.plugins
  mempool : n'.mempool = n.mempool

theorem SamePool.refl (n : Node π) : SamePool n n := ⟨rfl, rfl⟩

theorem SamePool.trans (a b c : Node π) (h : SamePool a b) (h' : SamePool b c) : SamePool a c :=
  ⟨h'.plugins.trans h.plugins, h'.mempool.trans h.mempool⟩

theorem checkForkReward_samePool : Run.Frame SamePool (checkForkReward P cfg) := by
  refine .bind SamePool.trans (.get .refl) fun n => .bind SamePool.trans (.lift .refl _) fun ok => ?_
  split
  · exact .pure .refl _
  · refine .bind SamePool.trans ?_ fun _ => .lift .refl _
    refine .bind SamePool.trans (.get .refl) fun n => .bind SamePool.trans (.lift .refl _) fun p => ?_
    exact .modify fun n => ⟨rfl, rfl⟩

theorem judgeBlock_samePool (s : Submission) : Run.Frame SamePool (judgeBlock P cfg s) := by
  have hdetect : ∀ n, SamePool n (detectFork cfg n) := by
    intro n
    rw [detectFork_eq]
    exact ⟨rfl, rfl⟩
  have hdiff : Run.Frame SamePool (difficulty P cfg) := by
    intro n
    obtain ⟨t, ht⟩ := difficulty_frame P cfg n
    rw [ht]
    exact ⟨rfl, rfl⟩
  refine .bind SamePool.trans ?_ fun _ => .bind SamePool.trans (.get .refl) fun n =>
    .bind SamePool.trans (.lift .refl _) fun _ => .bind SamePool.trans hdiff fun _ =>
    .bind SamePool.trans (.get .refl) fun n => .bind SamePool.trans (.lift .refl _) fun _ =>
    .pure .refl _
  refine .bind SamePool.trans (.modify hdetect) fun _ => .bind SamePool.trans checkForkReward_samePool
    fun _ => .bind SamePool.trans (.get .refl) fun n => .bind SamePool.trans (.lift .refl _) fun _ => ?_
  exact .modify fun n => ⟨rfl, rfl⟩

/-- A call that raises does so at one of its blocks, after the blocks before it were accepted. -/
theorem processBlockData_error {n : Node π} (h : processBlockData P cfg ss n = (.error e, n')) :
    ∃ pre s post n₁ last, ss = pre ++ s :: post ∧ processBlockData P cfg pre n = (.ok last, n₁) ∧
      processBlock P cfg s n₁ = (.error e, n') := by
  induction ss generalizing n with
  | nil => cases h
  | cons s ss ih =>
    rw [processBlockData, Run.bind_apply] at h
    rcases hs : processBlock P cfg s n with ⟨_ | u, n₂⟩
    · rw [hs] at h
      cases h
      exact ⟨[], s, ss, n, _, rfl, rfl, hs⟩
    · rw [hs] at h
      obtain ⟨pre, s', post, n₁, last, rfl, hpre, herr⟩ := ih h
      refine ⟨s :: pre, s', post, n₁, last, rfl, ?_, herr⟩
      rw [processBlockData, Run.bind_apply, hs]
      exact hpre

def oldRewardNode : Except Err (Node Unit) := do
  let store ← commitBlock .toy .decimal {} (powForkTestnet + 1) (hex [1])
    [sampleRow (powForkTestnet + 1) [1] 100 1000000000] none none
  return { freshNode .decimal none with store, lastBlock := powForkTestnet + 1, forkCaughtUp := true }

end Bismuth
