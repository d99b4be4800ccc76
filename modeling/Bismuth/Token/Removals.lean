import Bismuth.Digest.Plugins
import Bismuth.Resolve.Legacy
import Bismuth.Resolve.Trace
import Bismuth.Token.Restart

/-!
# The index and the removed blocks

The ledger and the index are two stores that are rolled back by separate calls. Every computation that removes
blocks is a `Removal`; all of them but the check of the earlier fork's reward roll the index back as well.
-/

namespace Bismuth
open Py

structure TokenIndex.Below (ti : TokenIndex) (height : Nat) : Prop where
  journal : ∀ e ∈ ti.journal.entries, e.1 / 2 ^ 64 < height
  cred : ∀ e ∈ ti.cred.entries, tailHeight e.1 < height
  deb : ∀ e ∈ ti.deb.entries, tailHeight e.1 < height
  tokreg : ∀ e ∈ ti.tokreg.entries, e.2.height < height
  ajournal : ∀ e ∈ ti.ajournal.entries, e.1 / 2 ^ 64 < height
  aliasFwd : ∀ name holder, ti.aliasFwd.get? (utf8 name) = some holder → holder.2 < height

/-! ## Removals -/

/-- The ways in which blocks are removed: back to an ancestor for another branch, back to it for our own, the tip
alone, back to the height in the file `rollback_to`, and back below the earlier fork. -/
inductive Removal where
  | measured (ancestor : Nat)
  | restore (ancestor : Nat)
  | legacy (height : Nat)
  | startup (target : Int)
  | forkReward

namespace Removal
section
variable {π : Type} (P : Prims) (cfg : Config π)

def run : Removal → Digest π Unit
  | measured ancestor => do
    let _ ← backupHigher P cfg (ancestor + 1)
    rollToLocked P cfg ancestor
  | restore ancestor => do
    rollbackChain P cfg (ancestor + 1)
    rollToLocked P cfg ancestor
  | legacy height => do
    let _ ← legacyRoll P cfg height
    return ()
  | startup target => do
    rollbackUnder P cfg (target + 1)
    Run.modify fun n => { n with plugins := cfg.onRollback (target + 1).toNat n.plugins }
    Run.modify resync
  | forkReward => checkForkReward P cfg

def floor : Removal → Nat
  | measured ancestor => ancestor + 1
  | restore ancestor => ancestor + 1
  | legacy height => height
  | startup target => (target + 1).toNat
  | forkReward => cfg.rewardFork - 1

end

variable {σ κ π : Type} {P : Prims} {cfg : Config π}

end Removal

section
variable {π : Type} {P : Prims} {cfg : Config π} {n : Node π}

/-- What a removal from a height on leaves: the node as it was, or the plugins rolled back with the ledger. -/
inductive WentBack (cfg : Config π) (height : Nat) (n : Node π) : Except Err α × Node π → Prop
  | refused (e : Err) : WentBack cfg height n (.error e, n)
  | followed (times : Nat) (hh : height < 2 ^ 64)
    (h : n'.plugins = (cfg.onRollback height)^[times + 1] n.plugins) : WentBack cfg height n (r, n')

def SamePlugins (n n' : Node π) : Prop := n'.plugins = n.plugins

theorem SamePlugins.refl (n : Node π) : SamePlugins n n := rfl

theorem SamePlugins.trans (a b c : Node π) (h : SamePlugins a b) (h' : SamePlugins b c) : SamePlugins a c :=
  Eq.trans h' h

theorem readTip_samePlugins (P : Prims) (cfg : Config π) (height : Nat) (a : α) : Run.Frame SamePlugins (do
    let stamp ← Run.lift ((← Run.get).store.lastBlockTimestamp P cfg.mode)
    Run.modify fun n => { n with lastBlockTimestamp := stamp }
    let hash ← Run.lift (← Run.get).store.lastBlockHash
    Run.modify fun n => { n with lastBlock := height, lastBlockHash := hash }
    return a : Digest π α) :=
  .bind SamePlugins.trans (.get .refl) fun _ => .bind SamePlugins.trans (.lift .refl _) fun _ =>
    .bind SamePlugins.trans (.modify fun _ => rfl) fun _ => .bind SamePlugins.trans (.get .refl) fun _ =>
      .bind SamePlugins.trans (.lift .refl _) fun _ => .bind SamePlugins.trans (.modify fun _ => rfl) fun _ =>
        .pure .refl _

/-- The plugins are rolled back once the ledger is, whatever comes after. -/
theorem rollToLocked_plugins {k : Nat}
    (h : rollback P cfg.mode n.store k n.forkHeight = .ok (st', removed)) :
    (rollToLocked P cfg k n).2.plugins = cfg.onRollback (k + 1) n.plugins := by
  have hk : ((k + 1 : Nat) : Int) - 1 = k := by omega
  rw [rollToLocked, Run.bind_apply, rollbackUnder_of_ok (by rw [hk]; exact h)]
  exact readTip_samePlugins P cfg k () _

theorem legacyRoll_plugins {height : Nat}
    (h : rollback P cfg.mode n.store ((height : Int) - 1) n.forkHeight = .ok (st', removed)) :
    (legacyRoll P cfg height n).2.plugins = cfg.onRollback height n.plugins := by
  rw [legacyRoll, Run.bind_apply, backupHigher_of_ok h]
  exact readTip_samePlugins P cfg (height - 1) removed _

namespace Removal

/-- Every removal but the check of the fork's reward rolls the plugins back with the ledger. -/
theorem wentBack {r : Removal} (hr : r ≠ forkReward) (n : Node π) :
    WentBack cfg (r.floor cfg) n (r.run P cfg n) := by
  cases r with
  | measured k =>
    rw [run, Run.bind_apply]
    rcases h : rollback P cfg.mode n.store ((k + 1 : Nat) - 1) n.forkHeight with e | ⟨st', removed⟩
    · rw [backupHigher_of_error h]
      exact .refused e
    · rw [backupHigher_of_ok h]
      have hlt := (rollback_lt h).2
      have hk : ((k + 1 : Nat) : Int) - 1 = k := by omega
      rw [hk] at h
      exact .followed 0 (by exact_mod_cast hlt) (rollToLocked_plugins (rollback_again h))
  | restore k =>
    rw [run, rollbackChain, Run.bind_apply, Run.bind_apply]
    rcases h : rollback P cfg.mode n.store ((k + 1 : Nat) - 1) n.forkHeight with e | ⟨st', removed⟩
    · rw [rollbackUnder_of_error h]
      exact .refused e
    · rw [rollbackUnder_of_ok h]
      have hlt := (rollback_lt h).2
      have hk : ((k + 1 : Nat) : Int) - 1 = k := by omega
      rw [hk] at h
      exact .followed 1 (by exact_mod_cast hlt) (rollToLocked_plugins (rollback_again h))
  | legacy height =>
    rw [run, Run.bind_apply]
    rcases h : rollback P cfg.mode n.store ((height : Int) - 1) n.forkHeight with e | ⟨st', removed⟩
    · rw [legacyRoll, Run.bind_apply, backupHigher_of_error h]
      exact .refused e
    · have hplugins := legacyRoll_plugins h
      have hlt := (rollback_lt h).2
      rcases hroll : legacyRoll P cfg height n with ⟨e | b, n'⟩ <;> rw [hroll] at hplugins
      · exact .followed 0 (by exact_mod_cast hlt) hplugins
      · exact .followed 0 (by exact_mod_cast hlt) hplugins
  | startup target =>
    rw [run, Run.bind_apply]
    rcases h : rollback P cfg.mode n.store (target + 1 - 1) n.forkHeight with e | ⟨st', removed⟩
    · rw [rollbackUnder_of_error h]
      exact .refused e
    · rw [rollbackUnder_of_ok h]
      have hlt := (rollback_lt h).2
      exact .followed 0 (by rw [floor]; omega) (resync_plugins _)
  | forkReward => exact absurd rfl hr

end Removal

/-! ## The tip after a removal -/

namespace Removal

/-- A removal that keeps the genesis block leaves the tip just below it. -/
theorem inStep {r : Removal} {n' : Node π} (H : n.InStep) (hr : r ≠ forkReward) (h1 : 2 ≤ r.floor cfg)
    (hle : r.floor cfg ≤ n.lastBlock + 1) (h : r.run P cfg n = (.ok (), n')) :
    n'.InStep ∧ n'.lastBlock + 1 = r.floor cfg := by
  cases r with
  | measured k =>
    rw [floor] at h1 hle ⊢
    obtain ⟨removed, n₁, hb, h⟩ := Run.bind_eq_ok.1 h
    have hback : n.BackAt n' k := .backup H.ranged (by omega) (by omega) hb h
    exact ⟨hback.inStep, by rw [hback.lastBlock]⟩
  | restore k =>
    rw [floor] at h1 hle ⊢
    obtain ⟨_, n₁, hchain, h⟩ := Run.bind_eq_ok.1 h
    have hback : n.BackAt n' k := .restore H.ranged (by omega) (by omega) hchain h
    exact ⟨hback.inStep, by rw [hback.lastBlock]⟩
  | legacy height =>
    rw [floor] at h1 hle ⊢
    obtain ⟨k, rfl⟩ : ∃ k, height = k + 1 := ⟨height - 1, by omega⟩
    obtain ⟨removed, n₁, hb, h⟩ := Run.bind_eq_ok.1 h
    cases h
    have hback : n.BackAt _ k := .rollTo H.ranged (by omega) (by omega) (legacyRoll_ok hb)
    exact ⟨hback.inStep, by rw [hback.lastBlock]⟩
  | startup target =>
    rw [floor] at h1 hle ⊢
    obtain ⟨k, rfl⟩ : ∃ k : Nat, target = k := ⟨target.toNat, by omega⟩
    obtain ⟨_, n₁, hb, h⟩ := Run.bind_eq_ok.1 h
    obtain ⟨_, n₂, hm, h⟩ := Run.bind_eq_ok.1 h
    obtain rfl := Run.modify_eq_ok.1 hm
    obtain rfl := Run.modify_eq_ok.1 h
    obtain ⟨st', removed, hr, rfl⟩ := rollbackUnder_ok hb
    rw [Int.add_sub_cancel] at hr
    have hranged := H.ranged.rollback (by omega) (by omega) hr
    obtain ⟨hash, hblock, hres⟩ := resync_of_ranged
      (n := { n with store := st', plugins := cfg.onRollback ((k : Int) + 1).toNat n.plugins }) hranged
    rw [hres]
    exact ⟨⟨hranged, hblock⟩, rfl⟩
  | forkReward => exact absurd rfl hr

end Removal

end

/-! ## The index -/

namespace Refines
variable {ti : TokenIndex} {live : List LiveOp}

theorem below_rows (H : Refines ti live) (h : ∀ e ∈ live, e.height < height) {f : LiveOp → Option (Bytes × Int)}
    {t : OrdTable Bytes Int} (ht : t.Lists (live.filterMap f))
    (hf : ∀ e k v, f e = some (k, v) → ∃ pre, k = pre ++ hqBytes e.height e.seq) :
    ∀ x ∈ t.entries, tailHeight x.1 < height := by
  rintro ⟨k, v⟩ hx
  obtain ⟨e, he, hfe⟩ := List.mem_filterMap.1 ((List.Perm.mem_iff ht).1 hx)
  obtain ⟨pre, rfl⟩ := hf e k v hfe
  rw [tailHeight_append _ (H.fits e he).1]
  exact h e he

end Refines

/-- A store that holds what acts below a height made of it holds nothing above. -/
theorem Synced.below {acts : List Act} {ti : TokenIndex} (H : Synced acts ti)
    (h : ∀ a ∈ acts, a.height < height) : ti.Below height := by
  obtain ⟨l, ⟨live, R, hperm⟩, hl, -⟩ := H.tokens
  obtain ⟨log, N, hlog, -⟩ := H.names
  have hlive : ∀ e ∈ live, e.height < height := by
    intro e he
    obtain ⟨a, ha, heq⟩ := hl e.core (hperm.mem_iff.1 (List.mem_map_of_mem he))
    rw [show e.height = a.height from heq]
    exact h a ha
  have hlog' : ∀ e ∈ log, e.height < height := by
    intro e he
    obtain ⟨a, ha, heq⟩ := hlog e he
    rw [heq]
    exact h a ha
  refine ⟨?_, R.below_rows hlive R.cred LiveOp.credit?_tail, R.below_rows hlive R.deb LiveOp.debit?_tail, ?_, ?_, ?_⟩
  · intro x hx
    obtain ⟨e, he, rfl⟩ := List.mem_map.1 ((List.Perm.mem_iff R.journal).1 hx)
    have := R.seq_le e he
    have := R.seq_lt
    have := hlive e he
    simp only [LiveOp.key]
    omega
  · rintro ⟨k, reg⟩ hx
    obtain ⟨e, he, hreg⟩ := List.mem_filterMap.1 ((List.Perm.mem_iff R.tokreg).1 hx)
    rw [LiveOp.reg?] at hreg
    split at hreg
    · cases hreg
      exact hlive e he
    · cases hreg
  · intro x hx
    have hx := List.mem_reverse.2 hx
    rw [N.journal] at hx
    obtain ⟨e, he, rfl⟩ := List.mem_map.1 hx
    have := N.seq_le e he
    have := N.seq_lt
    have := hlog' e he
    simp only [AliasEntry.key]
    omega
  · rintro name ⟨a, h'⟩ hget
    rw [N.fwd] at hget
    obtain ⟨e, he, hholder⟩ := Names.exists_of_of hget
    rw [AliasOp.height_of_holder hholder]
    exact hlog' e he

namespace Synced
variable {acts : List Act} {ti : TokenIndex}
open TokensAliases

theorem block (H : Synced acts ti) (E : TokensAliases.Env) (rows : List Row)
    (hs : ti.seq + 2 * rows.length < 2 ^ 64) (ha : ∀ a ∈ acts, a.height ≤ height) (hh : height < 2 ^ 64) :
    Synced (acts ++ blockActs E height rows) (TokensAliases.onBlock E height rows ti) ∧
      (TokensAliases.onBlock E height rows ti).seq ≤ ti.seq + 2 * rows.length := by
  have hlen : (blockActs E height rows).length ≤ 2 * rows.length := by
    simpa [chainActs] using length_chainActs_le (E := E) [(height, rows)]
  have hpair : (acts ++ blockActs E height rows).Pairwise (·.height ≤ ·.height) := by
    refine List.pairwise_append.2 ⟨H.sorted, ?_, fun a hmem b hb => ?_⟩
    · refine List.pairwise_of_forall_mem_list fun a hmem b hb => ?_
      rw [height_of_mem_blockActs hmem, height_of_mem_blockActs hb]
    · rw [height_of_mem_blockActs hb]
      exact ha a hmem
  obtain ⟨H', hseq⟩ := H.applyAll (by omega) hpair fun a hmem => (height_of_mem_blockActs hmem).symm ▸ hh
  rw [onBlock_eq]
  exact ⟨H', by omega⟩

theorem rollbacks (H : Synced acts ti) (hh : height < 2 ^ 64) (times : Nat) :
    Synced (acts.filter (·.height < height)) ((TokensAliases.onRollback height)^[times + 1] ti) ∧
      ((TokensAliases.onRollback height)^[times + 1] ti).seq = ti.seq := by
  induction times with
  | zero => exact H.onRollback hh
  | succ times ih =>
    rw [Function.iterate_succ_apply']
    obtain ⟨H', hseq⟩ := ih.1.onRollback hh
    rw [List.filter_filter] at H'
    simp only [Bool.and_self] at H'
    exact ⟨H', hseq.trans ih.2⟩

end Synced

def Config.indexing (cfg : Config TokenIndex) (E : TokensAliases.Env) : Config TokenIndex :=
  { cfg with onBlock := TokensAliases.onBlock E, onRollback := TokensAliases.onRollback }

/-- The states that a node reaches whose index is kept from its first block on, with the number of rows that were
handed to the index. Every digest finds the reward of the earlier fork in order, and every other removal keeps the
genesis block. -/
inductive Tended (P : Prims) (cfg : Config TokenIndex) : Nat → Node TokenIndex → Prop
  | fresh (h : Fresh P cfg n) (hnew : n.plugins = {}) : Tended P cfg 0 n
  | digest (s : Submission) (h : Tended P cfg k n)
    (hreward : forkRewardOk P cfg (detectFork cfg n) ≠ .ok false) :
    Tended P cfg (k + s.block.length) (digestBlock P cfg [s] n).2
  | remove (r : Removal) (h : Tended P cfg k n) (hr : r ≠ .forkReward) (hgenesis : 2 ≤ r.floor cfg)
    (htip : r.floor cfg ≤ n.lastBlock + 1) (hok : r.run P cfg n = (.ok (), n')) : Tended P cfg k n'

/-- The index holds nothing above the next block. A block that its commit rejects leaves operations there. -/
structure Keeps (k : Nat) (n : Node TokenIndex) : Prop where
  inStep : n.InStep
  index : ∃ acts, Synced acts n.plugins ∧ ∀ a ∈ acts, a.height ≤ n.lastBlock + 1
  seq_le : n.plugins.seq ≤ 2 * k
  tip_le : n.lastBlock ≤ k + 1

section
variable {P : Prims} {cfg : Config TokenIndex} {E : TokensAliases.Env} {n n' : Node TokenIndex}

namespace Keeps

theorem fresh (h : Fresh P cfg n) (hnew : n.plugins = {}) : Keeps 0 n := by
  refine ⟨h.inStep, ⟨[], ?_, by simp⟩, ?_, ?_⟩
  · rw [hnew]
    exact .empty
  · rw [hnew]
  · rw [h.lastBlock]
    decide

theorem digest (H : Keeps k n) (s : Submission) (hk : k + s.block.length < 2 ^ 61)
    (hreward : forkRewardOk P (cfg.indexing E) (detectFork (cfg.indexing E) n) ≠ .ok false) :
    Keeps (k + s.block.length) (digestBlock P (cfg.indexing E) [s] n).2 := by
  obtain ⟨acts, hsync, hacts⟩ := H.index
  have hseq := H.seq_le
  have htip := H.tip_le
  have hgrows := H.inStep.digest_grows s hreward
  have hlast : n.lastBlock ≤ (digestBlock P (cfg.indexing E) [s] n).2.lastBlock := by
    obtain h | ⟨-, h⟩ := hgrows <;> omega
  have hindex : ∃ acts', Synced acts' (digestBlock P (cfg.indexing E) [s] n).2.plugins ∧
      (∀ a ∈ acts', a.height ≤ n.lastBlock + 1) ∧
      (digestBlock P (cfg.indexing E) [s] n).2.plugins.seq ≤ 2 * (k + s.block.length) := by
    obtain hsame | ⟨rows, hlen, hrows⟩ :
        Handed (cfg.indexing E) s.block.length n (digestBlock P (cfg.indexing E) [s] n).2 :=
      digestBlock_handed s n
    · rw [hsame]
      exact ⟨acts, hsync, hacts, by omega⟩
    · obtain ⟨hsync', hseq'⟩ := hsync.block E rows (by omega) hacts (by omega)
      rw [show (digestBlock P (cfg.indexing E) [s] n).2.plugins =
        TokensAliases.onBlock E (n.lastBlock + 1) rows n.plugins from hrows]
      refine ⟨_, hsync', fun a ha => ?_, by omega⟩
      obtain ha | ha := List.mem_append.1 ha
      · exact hacts a ha
      · exact (TokensAliases.height_of_mem_blockActs ha).le
  obtain ⟨acts', hsync', hacts', hseq'⟩ := hindex
  refine ⟨(H.inStep.digest s).1, ⟨acts', hsync', fun a ha => (hacts' a ha).trans (by omega)⟩, hseq', ?_⟩
  obtain h | ⟨hne, h⟩ := hgrows
  · omega
  · have := List.length_pos_iff.2 hne
    omega

theorem wentBack {r : Removal} (H : Keeps k n) (hr : r ≠ .forkReward)
    (h : (r.run P (cfg.indexing E) n).1 = .ok () ∨ (r.run P (cfg.indexing E) n).2.store ≠ n.store) :
    ∃ acts, Synced acts (r.run P (cfg.indexing E) n).2.plugins ∧
      (∀ a ∈ acts, a.height < r.floor (cfg.indexing E)) ∧
      (r.run P (cfg.indexing E) n).2.plugins.seq = n.plugins.seq := by
  obtain ⟨acts, hsync, -⟩ := H.index
  have hwent : WentBack (cfg.indexing E) (r.floor (cfg.indexing E)) n (r.run P (cfg.indexing E) n) :=
    r.wentBack hr n
  generalize r.run P (cfg.indexing E) n = x at h hwent ⊢
  cases hwent with
  | refused e => simp at h
  | followed times hh hplugins =>
    obtain ⟨hsync', hseq⟩ := hsync.rollbacks hh times
    rw [show _ = (TokensAliases.onRollback (r.floor (cfg.indexing E)))^[times + 1] n.plugins from hplugins]
    exact ⟨_, hsync', fun a ha => of_decide_eq_true (List.mem_filter.1 ha).2, hseq⟩

theorem remove {r : Removal} (H : Keeps k n) (hr : r ≠ .forkReward) (hgenesis : 2 ≤ r.floor (cfg.indexing E))
    (htip : r.floor (cfg.indexing E) ≤ n.lastBlock + 1) (hok : r.run P (cfg.indexing E) n = (.ok (), n')) :
    Keeps k n' := by
  obtain ⟨acts, hsync, hacts, hseq⟩ := H.wentBack (P := P) (E := E) hr (.inl (by rw [hok]))
  obtain ⟨hin, hlast⟩ := r.inStep H.inStep hr hgenesis htip hok
  have := H.seq_le
  have := H.tip_le
  rw [hok] at hsync hseq
  dsimp only at hsync hseq
  refine ⟨hin, ⟨acts, hsync, fun a ha => ?_⟩, by omega, by omega⟩
  have := hacts a ha
  omega

end Keeps

/-- The invariant holds in every state of the run. -/
theorem Tended.keeps (h : Tended P (cfg.indexing E) k n) (hk : k < 2 ^ 61) : Keeps k n := by
  induction h with
  | fresh h hnew => exact .fresh h hnew
  | digest s _ hreward ih => exact (ih (by omega)).digest s hk hreward
  | remove r _ hr hgenesis htip hok ih => exact (ih hk).remove hr hgenesis htip hok

/-- The index follows a removal, in every state of a run, exactly if it is not the check of the earlier fork's
reward that removes the blocks, or there was nothing to follow. -/
theorem index_follows_removal_iff (h : Tended P (cfg.indexing E) k n) (hk : k < 2 ^ 61) (r : Removal)
    (hr : (r.run P (cfg.indexing E) n).1 = .ok () ∨ (r.run P (cfg.indexing E) n).2.store ≠ n.store) :
    (r.run P (cfg.indexing E) n).2.plugins.Below (r.floor (cfg.indexing E)) ↔
      r ≠ .forkReward ∨ n.plugins.Below (r.floor (cfg.indexing E)) := by
  by_cases hfork : r = .forkReward
  · subst hfork
    have hsame : (Removal.forkReward.run P (cfg.indexing E) n).2.plugins = n.plugins :=
      (checkForkReward_samePool n).plugins
    rw [hsame]
    simp
  · obtain ⟨acts, hsync, hacts, -⟩ := (h.keeps hk).wentBack hfork hr
    exact ⟨fun _ => .inl hfork, fun _ => hsync.below hacts⟩

end

/-! ## Two ledgers -/

namespace TokensAliases

def indexNet (network : Network) : Config TokenIndex :=
  Config.indexing
    { network, mode := .decimal, checkpoints := some ∅, forkBoundary_pos := Config.default_forkBoundary_pos,
      onBlock := fun _ _ ti => ti, onRollback := fun _ ti => ti }
    .ascii

def indexNode (store : Store) (plugins : TokenIndex) (lastBlock : Nat) (lastBlockHash : Text) :
    Node TokenIndex where
  store
  plugins
  mempool := ∅
  lastBlock
  lastBlockHash
  lastBlockTimestamp := .ofRat 0
  forkHeight := none
  forkCaughtUp := true
  baseFee := staticBaseFee

def freshIndexNode : Node TokenIndex := indexNode (genesisStore .decimal) {} genesisHeight genesisBlockHash

theorem freshIndexNode_fresh : Fresh .toy (indexNet .regnet) freshIndexNode where
  store := seedGenesis_regnet .decimal ∅ 0
  lastBlock := rfl
  lastBlockHash := rfl
  forkHeight := rfl

/-- The block above the earlier fork of the testnet, with the old reward, and one in which a name is registered. -/
def oldRewardBlocks : List (Nat × List Row) :=
  [(powForkTestnet + 1, [sampleRow (powForkTestnet + 1) [1] 100 1000000000]),
    (powForkTestnet + 2, tokenRows (powForkTestnet + 2) [2] [('a', opAliasRegister, ['x'])])]

def oldRewardStore : Except Err Store := do
  let st ← commitBlock .toy .decimal {} (powForkTestnet + 1) (hex [1])
    [sampleRow (powForkTestnet + 1) [1] 100 1000000000] none none
  commitBlock .toy .decimal st (powForkTestnet + 2) (hex [2])
    (tokenRows (powForkTestnet + 2) [2] [('a', opAliasRegister, ['x'])]) none none

def oldRewardIndex : TokenIndex := onBlocks .ascii oldRewardBlocks

open Relation in
theorem oldReward_history (h : oldRewardStore = .ok st) : ∃ l : Ledger, l.store = st ∧
    blocksOf l = oldRewardBlocks ∧ ReflTransGen (Step .toy .decimal (· = ['k']) none) ∅ l := by
  obtain ⟨st₁, h₁, h₂⟩ := Except.bind_eq_ok.1 h
  have hnew : NewBlock .decimal (· = ['k']) (powForkTestnet + 1) [1]
      [sampleRow (powForkTestnet + 1) [1] 100 1000000000] := by
    refine ⟨by simp, fun r hr => ?_, fun r hr => ?_⟩
    · rw [List.mem_singleton.1 hr]
      exact sampleRow_stored (by norm_num) (by norm_num)
    · rw [List.mem_singleton.1 hr]
      rfl
  refine ⟨_, ?_, ?_, .tail (.single (.commit none hnew (by simp) h₁))
    (.commit none (tokenRows_new _ _ (by simp)) (by simp) h₂)⟩
  · rfl
  · rfl

theorem reached_oldReward : Reached .ascii 2 oldRewardBlocks oldRewardIndex :=
  reached_two (show powForkTestnet + 1 < powForkTestnet + 2 by decide) (by decide)
    [sampleRow (powForkTestnet + 1) [1] 100 1000000000]
    (tokenRows (powForkTestnet + 2) [2] [('a', opAliasRegister, ['x'])])

/-- The tip before and after a digest on the ledger with the old reward, and who has the name then, since when. -/
def oldRewardDigest : Except Err (Option Nat × Option Nat × Option (Text × Nat)) := do
  let n := indexNode (← oldRewardStore) oldRewardIndex (powForkTestnet + 2) (hex [2])
  let n' := (digestBlock .toy (indexNet .testnet) [minedBlock] n).2
  return (n.store.tip, n'.store.tip, n'.plugins.aliasFwd.get? (utf8 ['x']))

theorem oldRewardDigest_eq : oldRewardDigest =
    .ok (some (powForkTestnet + 2), none, some (hexAddress 'a', powForkTestnet + 2)) := by decide +kernel

theorem legacy_ok : ((Removal.legacy 2).run .toy (indexNet .regnet)
    (digestBlock .toy (indexNet .regnet) [minedBlock] freshIndexNode).2).1.toBool = true := by decide +kernel

/-- The tip is dropped after a block was mined. -/
theorem index_follows_legacy : ∃ n, Tended .toy (indexNet .regnet) 1 n ∧
    ((Removal.legacy 2).run .toy (indexNet .regnet) n).2.plugins.Below 2 := by
  have hrun : Tended .toy (indexNet .regnet) (0 + minedBlock.block.length)
      (digestBlock .toy (indexNet .regnet) [minedBlock] freshIndexNode).2 :=
    .digest _ (.fresh freshIndexNode_fresh rfl) (by decide +kernel)
  have hok := legacy_ok
  cases h : ((Removal.legacy 2).run .toy (indexNet .regnet)
    (digestBlock .toy (indexNet .regnet) [minedBlock] freshIndexNode).2).1 with
  | error => rw [h] at hok; cases hok
  | ok u => exact ⟨_, hrun, (index_follows_removal_iff (E := .ascii) hrun (by decide) (.legacy 2) (.inl h)).2
      (.inl nofun)⟩

open Relation in
/-- A digest that finds the old reward above the earlier fork drops the blocks from there on, and the index keeps the
name that was registered in one of them. -/
theorem index_keeps_removed : ∃ l ti,
    ReflTransGen (Step .toy .decimal (· = ['k']) none) ∅ l ∧ Reached .ascii 2 (blocksOf l) ti ∧
    l.store.tip = some (powForkTestnet + 2) ∧
    ∀ n', (digestBlock .toy (indexNet .testnet) [minedBlock]
        (indexNode l.store ti (powForkTestnet + 2) (hex [2]))).2 = n' →
      n'.store.tip = none ∧ n'.plugins.aliasFwd.get? (utf8 ['x']) = some (hexAddress 'a', powForkTestnet + 2) ∧
      ¬n'.plugins.Below (Removal.forkReward.floor (indexNet .testnet)) := by
  obtain ⟨st, hst, h⟩ := Except.bind_eq_ok.1 oldRewardDigest_eq
  obtain ⟨l, rfl, hblocks, hl⟩ := oldReward_history hst
  have h := Except.ok.inj h
  rw [Prod.mk.injEq, Prod.mk.injEq] at h
  obtain ⟨htip, hgone, hfwd⟩ := h
  refine ⟨l, oldRewardIndex, hl, hblocks ▸ reached_oldReward, htip, ?_⟩
  rintro n' rfl
  refine ⟨hgone, hfwd, fun hbelow => ?_⟩
  have := hbelow.aliasFwd _ _ hfwd
  revert this
  decide

end TokensAliases

end Bismuth
