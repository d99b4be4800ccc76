import Bismuth.Digest.Reach
import Bismuth.Store.Heights

/-!
# The heights and hashes of a node's ledger

What digesting a block and going back do to the stored heights and hashes, whatever else is stored: with
waivers and trusted blocks as well as without.
-/

namespace Bismuth
open Py Relation

variable {π : Type} {P : Prims} {cfg : Config π}

structure Node.InStep (n : Node π) : Prop where
  ranged : n.store.Ranged n.lastBlock
  hash : n.store.blockHash n.lastBlock = .ok (some n.lastBlockHash)

theorem Store.Ranged.lastBlockHash {st : Store} (H : st.Ranged t) :
    ∃ hash, st.blockHash t = .ok (some hash) ∧ st.lastBlockHash = .ok hash := by
  obtain ⟨body, hb⟩ := H.exists_get? H.pos le_rfl
  have hhash : st.blockHash t = .ok (some body.hash) := by
    rw [Store.blockHash, heightKey_natCast H.lt, Except.ok_bind, hb]
    rfl
  refine ⟨body.hash, hhash, ?_⟩
  rw [Store.lastBlockHash, H.tip_eq]
  simp only [hhash, Except.ok_bind]
  rfl

variable {n : Node π}

theorem resync_of_ranged (H : n.store.Ranged t) : ∃ hash, n.store.blockHash t = .ok (some hash) ∧
      resync n = { n with lastBlock := t, lastBlockHash := hash } := by
  obtain ⟨hash, hblock, hh⟩ := H.lastBlockHash
  exact ⟨hash, hblock, by simp only [resync, H.tip_eq, hh]⟩

/-! ## Genesis -/

theorem seedGenesis_blocks (h : seedGenesis P cfg = .ok st) :
    ∃ txs, st.blocks = (∅ : OrdTable Nat Body).put 1 (.legacy genesisBlockHash txs) := by
  rw [seedGenesis] at h
  obtain ⟨st₁, hcommit, h⟩ := Except.bind_eq_ok.1 h
  obtain ⟨body, -, -, hblocks, hbody, -⟩ := commitBlock_blocks hcommit
  obtain ⟨txs, rfl⟩ := hbody rfl
  refine ⟨txs, ?_⟩
  simp only [setAllocations, Except.bind_eq_ok] at h
  obtain ⟨bal, -, h⟩ := h
  split at h
  · cases h
    exact hblocks
  · cases h

theorem Fresh.inStep (h : Fresh P cfg n) : n.InStep := by
  obtain ⟨txs, hblocks⟩ := seedGenesis_blocks h.store
  have hlast : n.lastBlock = 1 := h.lastBlock
  refine ⟨?_, ?_⟩
  · rw [hlast]
    exact ⟨by rw [hblocks]; rfl, le_rfl, by norm_num⟩
  · rw [hlast, h.lastBlockHash, Store.blockHash, heightKey_natCast (by norm_num), Except.ok_bind, hblocks]
    rfl

/-! ## Steps -/

/-- How one step changes the ledger: a block is accepted, nothing changes, or blocks go. -/
inductive LedgerStep (P : Prims) (cfg : Config π) (n n' : Node π) : Prop
  | accept (s : Submission) (a : Acceptance P cfg n s) : n'.store = a.store →
    n'.lastBlock = n.lastBlock + 1 → n'.lastBlockHash = a.hash → LedgerStep P cfg n n'
  | cut (k : Nat) : 1 ≤ k → k ≤ n.lastBlock →
    (∃ forkHeight removed, rollback P cfg.mode n.store k forkHeight = .ok (n'.store, removed)) →
    n'.lastBlock = k → LedgerStep P cfg n n'
  | same : n'.store = n.store → n'.lastBlock = n.lastBlock → LedgerStep P cfg n n'

namespace Node.InStep
variable {n n' : Node π}

theorem accepted (H : n.InStep) (a : Acceptance P cfg n s) : a.store.Ranged (n.lastBlock + 1) ∧
    a.store.blockHash (n.lastBlock + 1 : Nat) = .ok (some a.hash) := by
  have hcommit := a.commit
  rw [a.node_store, a.node_height] at hcommit
  obtain ⟨-, hranged⟩ := H.ranged.commit hcommit
  obtain ⟨body, -, hlt, hblocks, -, hhash⟩ := commitBlock_blocks hcommit
  obtain ⟨d, hd⟩ := a.exists_digest
  refine ⟨hranged, ?_⟩
  show a.store.blockHash (n.height : Nat) = .ok (some a.hash)
  rw [Store.blockHash, heightKey_natCast hlt, Except.ok_bind, hblocks, OrdTable.get?_put,
    if_pos rfl, Option.map_some, hhash d hd]
  rfl

/-- Digesting a block keeps the tip in step; what it leaves of the fork is what the detection found. -/
theorem digest (H : n.InStep) (s : Submission) : (digestBlock P cfg [s] n).2.InStep ∧
    LedgerStep P cfg n (digestBlock P cfg [s] n).2 ∧
    (digestBlock P cfg [s] n).2.forkHeight = (detectFork cfg n).forkHeight ∧
    (digestBlock P cfg [s] n).2.forkCaughtUp = (detectFork cfg n).forkCaughtUp := by
  have hlast : (detectFork cfg n).lastBlock = n.lastBlock := by rw [detectFork_eq cfg n]
  rcases h : acceptBlock P cfg s n with ⟨e | u, n₁⟩
  · rw [digestBlock_rejected h]
    rcases acceptBlock_error h with hsame | ⟨removed, hreward, hr, hn₁⟩
    · have hst : n₁.store = n.store := hsame.store.trans (detectFork_store cfg n)
      have hranged : n₁.store.Ranged n.lastBlock := by
        rw [hst]
        exact H.ranged
      obtain ⟨hash, hblock, hres⟩ := resync_of_ranged hranged
      rw [hres]
      exact ⟨⟨hranged, hblock⟩, .same hst rfl, hsame.forkHeight, hsame.forkCaughtUp⟩
    · -- the reward of an earlier fork is wrong, and the chain goes back below it
      have hpos : 2 < cfg.rewardFork := by
        rw [Config.rewardFork]
        split <;> decide
      have hlt : cfg.rewardFork < n.lastBlock := by
        rw [forkRewardOk, hlast] at hreward
        split at hreward
        · assumption
        · cases hreward
      have hk : ((cfg.rewardFork - 1 : Nat) : Int) - 1 = (cfg.rewardFork - 2 : Nat) := by omega
      rw [hk] at hr
      have hranged := H.ranged.rollback (by omega) (by omega) hr
      obtain ⟨hash, hblock, hres⟩ := resync_of_ranged hranged
      rw [hres]
      refine ⟨⟨hranged, hblock⟩, .cut _ (by omega) (by omega) ⟨_, _, hr⟩ rfl, ?_, ?_⟩
      · show n₁.forkHeight = _
        rw [hn₁]
      · show n₁.forkCaughtUp = _
        rw [hn₁]
  · obtain ⟨a, mempool, rfl⟩ := acceptBlock_ok h
    obtain ⟨hranged, hhash⟩ := H.accepted a
    have hheight : a.node.height = n.lastBlock + 1 := a.node_height
    have hcaught : a.node.forkCaughtUp = (detectFork cfg n).forkCaughtUp := by rw [a.node_eq]
    obtain ⟨t, ht | ht⟩ := digestBlock_accepted h
    · rw [ht]
      refine ⟨⟨?_, ?_⟩, .accept s a rfl hheight rfl, a.node_forkHeight, hcaught⟩
      · show a.store.Ranged a.node.height
        rwa [hheight]
      · show a.store.blockHash a.node.height = .ok (some a.hash)
        rw [hheight]
        exact hhash
    · obtain ⟨hash, hblock, hres⟩ := resync_of_ranged (n := (a.after mempool).stamped t) hranged
      rw [ht, hres]
      have heq : hash = a.hash := Option.some.inj (Except.ok.inj (hblock.symm.trans hhash))
      exact ⟨⟨hranged, hblock⟩, .accept s a rfl rfl heq, a.node_forkHeight, hcaught⟩

theorem rollTo (H : n.InStep) (h1 : 1 ≤ k) (hk : k ≤ n.lastBlock)
    (h : rollToLocked P cfg k n = (.ok u, n')) : n'.InStep ∧ LedgerStep P cfg n n' := by
  obtain ⟨st', removed, hash, stamp, hr, hh, rfl⟩ := rollToLocked_ok h
  have hranged := H.ranged.rollback h1 hk hr
  obtain ⟨hash', hblock, hh'⟩ := hranged.lastBlockHash
  obtain rfl : hash = hash' := Except.ok.inj (hh.symm.trans hh')
  exact ⟨⟨hranged, hblock⟩, .cut k h1 hk ⟨_, _, hr⟩ rfl⟩

theorem steps {keys : Text → Prop} {ok : Node π → Submission → Prop} (H : n.InStep)
    (h : ReflTransGen (NodeStep P cfg keys ok) n n') : n'.InStep := by
  induction h with
  | refl => exact H
  | tail _ hstep ih =>
    cases hstep with
    | digest s => exact (ih.digest s).1
    | rollTo h1 hk hr => exact (ih.rollTo h1 hk hr).1

theorem digestAll (H : n.InStep) (ss : List Submission) : (digestBlock P cfg ss n).2.InStep :=
  H.steps (@digestBlock_steps _ P cfg (fun _ => True) (fun _ _ => True) ss n
    (fun _ _ _ _ => trivial) fun _ _ _ _ => trivial)

end Node.InStep

/-! ## Several blocks -/

/-- A step leaves the blocks up to the tip as they are, as far as they are still there. -/
theorem LedgerStep.keeps {n n' : Node π} (h : LedgerStep P cfg n n') (hj : j ≤ n.lastBlock)
    (hj' : j ≤ n'.lastBlock) : n'.store.blocks.get? j = n.store.blocks.get? j := by
  cases h with
  | accept s a hst hlast =>
    have hcommit := a.commit
    rw [a.node_store, a.node_height] at hcommit
    obtain ⟨body, -, -, hblocks, -⟩ := commitBlock_blocks hcommit
    have hne : j ≠ n.height := by
      rw [Node.height]
      omega
    rw [hst, hblocks, OrdTable.get?_put, if_neg hne]
  | cut k h1 hk hr hlast =>
    obtain ⟨forkHeight, removed, hr⟩ := hr
    rw [rollback_blocks hr, OrdTable.get?_filter]
    cases n.store.blocks.get? j <;> simp [hlast ▸ hj']
  | same hst => rw [hst]

theorem digestBlock_cons (P : Prims) (cfg : Config π) (s : Submission) (ss : List Submission) (n : Node π) :
    (∃ n₁, digestBlock P cfg [s] n = (.ok n₁.lastBlockHash, n₁) ∧ n₁.lastBlock = n.lastBlock + 1 ∧
      digestBlock P cfg (s :: ss) n = digestBlock P cfg ss n₁) ∨
    ∃ e, (digestBlock P cfg [s] n).1 = .error e ∧
      digestBlock P cfg (s :: ss) n = digestBlock P cfg [s] n := by
  simp only [digestBlock, processBlockData, Run.bind_apply]
  rcases h : processBlock P cfg s n with ⟨e | u, n₁⟩
  · exact .inr ⟨e, rfl, rfl⟩
  · refine .inl ⟨n₁, rfl, ?_, rfl⟩
    obtain ⟨_, n₂, ha, hd⟩ := Run.bind_eq_ok.1 h
    obtain ⟨diff, n₃, hd, hret⟩ := Run.bind_eq_ok.1 hd
    cases hret
    obtain ⟨a, mempool, rfl⟩ := acceptBlock_ok ha
    obtain ⟨t, rfl⟩ := difficulty_ok hd
    exact a.node_height

theorem digestBlock_ok_lastBlock {hash : Text} (h : digestBlock P cfg ss n = (.ok hash, n')) :
    n'.lastBlock = n.lastBlock + ss.length := by
  induction ss generalizing n with
  | nil =>
    cases h
    rfl
  | cons s ss ih =>
    obtain ⟨n₁, -, hlast, hrest⟩ | ⟨e, herr, hrest⟩ := digestBlock_cons P cfg s ss n
    · rw [hrest] at h
      rw [ih h, hlast, List.length_cons]
      omega
    · rw [← hrest, h] at herr
      cases herr

/-- So does a call: it only removes blocks when it ends below them. -/
theorem Node.InStep.digestAll_keeps (H : n.InStep) (ss : List Submission)
    (hj : j ≤ n.lastBlock) (hj' : j ≤ (digestBlock P cfg ss n).2.lastBlock) :
    (digestBlock P cfg ss n).2.store.blocks.get? j = n.store.blocks.get? j := by
  induction ss generalizing n with
  | nil => rfl
  | cons s ss ih =>
    obtain ⟨H₁, hstep, -⟩ : _ ∧ LedgerStep P cfg n _ ∧ _ := H.digest s
    obtain ⟨n₁, hone, hlast, hrest⟩ | ⟨e, -, hrest⟩ := digestBlock_cons P cfg s ss n
    · rw [hone] at H₁ hstep
      dsimp only at H₁ hstep
      rw [hrest] at hj' ⊢
      rw [ih H₁ (by omega) hj']
      exact hstep.keeps hj (by omega)
    · rw [hrest] at hj' ⊢
      exact hstep.keeps hj hj'

/-- What holds of a fresh ledger and is kept by every step holds in every state that a node reaches. -/
theorem Reach.induct_ledger (I : Node π → Prop) {keys : Text → Prop} {ok : Node π → Submission → Prop}
    (fresh : ∀ n, Fresh P cfg n → I n)
    (digest : ∀ n s, n.InStep → I n → (Accepts P cfg n s → ok n s) →
      LedgerStep P cfg n (digestBlock P cfg [s] n).2 → I (digestBlock P cfg [s] n).2)
    (cut : ∀ n n' k, n.InStep → I n → 1 ≤ k → k ≤ n.lastBlock →
      rollToLocked P cfg k n = (.ok (), n') → I n')
    (h : Reach P cfg keys ok n) : n.InStep ∧ I n := by
  obtain ⟨n₀, hf, h⟩ := h
  induction h with
  | refl => exact ⟨hf.inStep, fresh n₀ hf⟩
  | tail _ hstep ih =>
    obtain ⟨H, hI⟩ := ih
    cases hstep with
    | digest s _ hok =>
      obtain ⟨H', hstep, -⟩ := H.digest s
      exact ⟨H', digest _ s H hI hok hstep⟩
    | rollTo h1 hk hr => exact ⟨(H.rollTo h1 hk hr).1, cut _ _ _ H hI h1 hk hr⟩

theorem Reach.inStep {keys : Text → Prop} {ok : Node π → Submission → Prop} (h : Reach P cfg keys ok n) : n.InStep :=
  (h.induct_ledger (fun _ => True) (fun _ _ => trivial) (fun _ _ _ _ _ _ => trivial)
    fun _ _ _ _ _ _ _ _ => trivial).1

end Bismuth
