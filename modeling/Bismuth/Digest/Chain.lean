import Bismuth.Digest.Rows
import Bismuth.Genesis
import Bismuth.LockIn
import Bismuth.Store.Refork

/-!
# Chains of accepted blocks

The states that a node reaches from a fresh ledger by digesting blocks and going back, each with its
live blocks as they were committed.
-/

namespace Bismuth
open Py Relation

variable {π : Type} {P : Prims} {cfg : Config π} {keys : Text → Prop}

/-! ## Genesis -/

def genesisBlock (cfg : Config π) : LiveBlock where
  height := genesisHeight
  digest := hashKey genesisBlockHash
  rows := [genesisRow cfg.mode]
  difficulty := some (columnText cfg.genesisDifficulty)

theorem hex_genesis : hex (hashKey genesisBlockHash) = genesisBlockHash := by decide +kernel

theorem genesis_stored (mode : Mode) :
    Row.Stored mode genesisHeight genesisBlockHash (genesisRow mode) where
  height := rfl
  blockHash := rfl
  timestamp := ⟨false, 149364095547, by norm_num,
    (by decide +kernel : "1493640955.47".toList = fixedText false 2 149364095547)⟩
  address := (by decide +kernel : "genesis".toList ≠ [] ∧ "genesis".toList.length ≤ 56)
  recipient := (by decide +kernel : genesisAddress ≠ [] ∧ genesisAddress.length ≤ 56)
  amount := ⟨0, .zero _⟩
  fee := ⟨0, .zero _⟩
  reward := match mode with
    | .integer => ⟨100000000, by norm_num, by decide +kernel⟩
    | .decimal => ⟨100000000, by norm_num, .inr ⟨1, by decide +kernel, by norm_num⟩⟩

theorem genesisRow_publicKey (mode : Mode) : (genesisRow mode).publicKey = genesisPublicKey := by
  simp only [genesisRow]

theorem genesis_new (hk : keys genesisPublicKey) (mode : Mode) :
    NewBlock mode keys genesisHeight (hashKey genesisBlockHash) [genesisRow mode] where
  nonempty := by simp
  stored := by
    simp only [List.mem_singleton, forall_eq, hex_genesis]
    exact genesis_stored mode
  known := fun r hr => by rwa [List.mem_singleton.1 hr, genesisRow_publicKey]

theorem allocations_stored (cfg : Config π) (h : cfg.allocations.get? a = some u) :
    StoredAddress a ∧ 0 ≤ u := by
  have key : ∀ e ∈ mainnetAllocations.entries, StoredAddress e.1 ∧ 0 ≤ e.2 := by
    simp only [mainnetAllocations, List.forall_mem_cons, List.not_mem_nil, false_implies,
      implies_true, and_true]
    exact ⟨⟨⟨by decide +kernel, by decide +kernel⟩, by norm_num⟩,
      ⟨by decide +kernel, by decide +kernel⟩, by norm_num⟩
  rw [Config.allocations] at h
  split at h
  · exact key (a, u) (OrdTable.mem_entries.2 h)
  · simp at h

theorem seedGenesis_steps (hk : keys genesisPublicKey) (h : seedGenesis P cfg = .ok st) :
    ∃ st₁, FreshStep P cfg.mode keys none ∅ ⟨st₁, [genesisBlock cfg]⟩ ∧
      FreshStep P cfg.mode keys none ⟨st₁, [genesisBlock cfg]⟩ ⟨st, [genesisBlock cfg]⟩ ∧
      setAllocations st₁ cfg.allocations = .ok st := by
  simp only [seedGenesis, Except.bind_eq_ok] at h
  obtain ⟨st₁, h₁, h₂⟩ := h
  rw [← hex_genesis] at h₁
  refine ⟨st₁, ⟨.commit (some cfg.genesisDifficulty) (genesis_new hk cfg.mode) (by simp) h₁, ?_⟩,
    ⟨.setAllocations (fun _ _ h => (allocations_stored cfg h).1) h₂, ?_⟩, h₂⟩
  · intro b _ a ha
    cases ha
  · intro b hb
    simp at hb

theorem seedGenesis_good (hd : KeysDistinct P keys) (hk : keys genesisPublicKey)
    (h : seedGenesis P cfg = .ok st) :
    Ledger.Good P cfg.mode keys none ⟨st, [genesisBlock cfg]⟩ ∧ st.allocations = cfg.allocations := by
  obtain ⟨st₁, hc, ha, h₂⟩ := seedGenesis_steps hk h
  refine ⟨ha.1.good hd (hc.1.good hd .empty), ?_⟩
  obtain ⟨_, -, H⟩ := hc.1.good hd .empty
  rw [(H.setAllocations (fun h => (allocations_stored cfg h).1) h₂).2]
  rfl

theorem seedGenesis_txidExact (hd : KeysDistinct P keys) (hk : keys genesisPublicKey)
    (h : seedGenesis P cfg = .ok st) : TxidExact P cfg.mode none st [genesisBlock cfg] := by
  obtain ⟨st₁, hc, ha, -⟩ := seedGenesis_steps hk h
  exact txidExact_of_history hd (.tail (.single hc) ha)

/-! ## The invariant -/

/-- The ledger of the node holds the blocks of `chain`, and the node's tip is the last of them. -/
structure Chained (P : Prims) (cfg : Config π) (keys : Text → Prop) (n : Node π)
    (chain : List LiveBlock) : Prop where
  good : Ledger.Good P cfg.mode keys n.forkHeight ⟨n.store, chain⟩
  genesis : [genesisBlock cfg] <+: chain
  last : ∃ c b, chain = c ++ [b] ∧ b.height = n.lastBlock ∧ hex b.digest = n.lastBlockHash
  fork : postFork n.forkHeight genesisHeight = false
  allocations : n.store.allocations = cfg.allocations
  caughtUp : n.forkHeight = none → n.forkCaughtUp = true ∨ chain = [genesisBlock cfg]

theorem Ledger.Good.lastOpenfield {l : Ledger} (H : l.Good P mode keys forkHeight)
    (hb : b ∈ l.chain) :
    l.store.lastOpenfield mode b.height = .ok (b.rows.getLast?.map (·.openfield)) := by
  have hlt := H.height_lt hb
  obtain ⟨read, hread, H⟩ := H
  obtain ⟨b', hb', hs⟩ := hread.exists_right hb
  obtain ⟨body, hbody, hl⟩ := H.get? hb'
  rw [hs.height] at hbody
  rw [Store.lastOpenfield, heightKey_natCast (by omega), Except.ok_bind, hbody]
  show Store.lastOf mode body = _
  rw [(openfields_of_expand (hl.expands _ l.store.reads_pubkey)).2]
  have hmap : b.rows.map (·.openfield) = b'.rows.map (·.openfield) := by
    refine hs.rows.map_eq fun {r r'} hr => ?_
    have hback := hr.back
    rw [Row.ReadsBack] at hback
    split at hback
    · obtain ⟨_, _, _, _, -, -, -, -, rfl⟩ := hback
      rfl
    · rw [hback]
  rw [← List.getLast?_map, ← List.getLast?_map, hmap]

namespace Chained
variable {n : Node π} {chain : List LiveBlock}

theorem le_last (H : Chained P cfg keys n chain) : ∀ b ∈ chain, b.height ≤ n.lastBlock := by
  obtain ⟨c, b, rfl, hb, -⟩ := H.last
  intro b' hb'
  rcases List.mem_append.1 hb' with hb' | hb'
  · have := (List.pairwise_append.1 H.good.sorted).2.2 b' hb' b (by simp)
    omega
  · rw [List.mem_singleton.1 hb', hb]

theorem tip (H : Chained P cfg keys n chain) : n.store.tip = some n.lastBlock := by
  obtain ⟨c, b, hc, hb, -⟩ := H.last
  have := H.good.exact.tip
  rwa [hc, List.getLast?_concat, Option.map_some, hb] at this

theorem dynamicForkHeight_genesis (H : Chained P cfg keys n [genesisBlock cfg]) :
    dynamicForkHeight cfg (forkSignal cfg.mode n.store) n.lastBlock = .ok none := by
  obtain ⟨c, b, hc, hb, -⟩ := H.last
  obtain rfl : b = genesisBlock cfg := by
    have := congrArg List.getLast? hc
    simpa using this.symm
  have hread : forkSignal cfg.mode n.store 1 = .ok false := by
    have := H.good.lastOpenfield (b := genesisBlock cfg) (by simp)
    rw [forkSignal]
    show (n.store.lastOpenfield cfg.mode ((genesisBlock cfg).height : Nat) >>= _) = _
    rw [this, Except.ok_bind]
    show Except.ok (Option.any hasForkSignal (some "genesis".toList)) = _
    decide +kernel
  rw [← hb, dynamicForkHeight]
  split
  · rfl
  · show (firstWindow (forkSignal cfg.mode n.store) cfg.forkWindow 0 [1] >>= _) = _
    simp [firstWindow, hread]

section
variable (H : Chained P cfg keys n chain)
include H

theorem findForkHeight (hn : n.forkHeight = none)
    (h : findForkHeight cfg n = .ok (some f)) : n.lastBlock < f := by
  rw [Bismuth.findForkHeight] at h
  cases hcaught : n.forkCaughtUp with
  | true =>
    simp only [hcaught, if_true, lockinAtTip] at h
    split at h
    · cases h
    · simp only [Except.bind_eq_ok] at h
      obtain ⟨b, -, h⟩ := h
      split at h
      · cases h
        exact lt_of_le_of_lt (Nat.le_add_right _ _) (lt_nextForkBoundary cfg.forkBoundary_pos _)
      · cases h
  | false =>
    -- only the genesis block has not been looked at yet
    obtain rfl := (H.caughtUp hn).resolve_left (by simp [hcaught])
    have hgen := H.dynamicForkHeight_genesis
    simp only [hcaught, Bool.false_eq_true, if_false, hgen] at h
    cases h

theorem detectFork_forkHeight :
    ((detectFork cfg n).forkHeight = n.forkHeight ∨ n.forkHeight = none ∧
      ∃ f, (detectFork cfg n).forkHeight = some f ∧ n.lastBlock < f) ∧
    ((detectFork cfg n).forkHeight = none → (detectFork cfg n).forkCaughtUp = true) := by
  rw [detectFork]
  cases hn : n.forkHeight with
  | some f => exact ⟨.inl rfl, fun _ => rfl⟩
  | none =>
    cases hf : Bismuth.findForkHeight cfg n with
    | ok fh =>
      cases fh with
      | none => exact ⟨.inl rfl, fun _ => rfl⟩
      | some f => exact ⟨.inr ⟨rfl, f, rfl, H.findForkHeight hn hf⟩, fun _ => rfl⟩
    | error e =>
      refine ⟨.inl hn, fun _ => ?_⟩
      cases hcaught : n.forkCaughtUp with
      | true => rfl
      | false =>
        obtain rfl := (H.caughtUp hn).resolve_left (by simp [hcaught])
        simp [Bismuth.findForkHeight, hcaught, H.dynamicForkHeight_genesis] at hf

theorem sameFork :
    SameFork n.forkHeight (detectFork cfg n).forkHeight chain := by
  intro b hb
  obtain ⟨h | ⟨hn, f, hf, hlt⟩, -⟩ := H.detectFork_forkHeight
  · rw [h]
  · have := H.le_last b hb
    simp only [hn, hf, postFork, decide_eq_false_iff_not, not_le]
    omega

/-- Looking for the fork keeps the invariant, and afterwards only new blocks have to be looked at. -/
theorem detectFork :
    Chained P cfg keys (detectFork cfg n) chain := by
  have hgood := H.good.congr H.sameFork
  obtain ⟨rest, hrest⟩ := H.genesis
  have hfork := H.sameFork (genesisBlock cfg) (by simp [← hrest])
  obtain ⟨-, hcaught⟩ := H.detectFork_forkHeight
  rw [detectFork_eq] at hcaught ⊢
  exact ⟨hgood, H.genesis, H.last, hfork.trans H.fork, H.allocations, fun h => .inl (hcaught h)⟩

end

end Chained

/-! ## One block more -/

namespace Acceptance
variable {n : Node π} {s : Submission} (a : Acceptance P cfg n s)

def live : LiveBlock := ⟨a.node.height, a.digest, a.rows, some (columnText a.saved)⟩

theorem exists_tx (hr : r ∈ a.rows) :
    ∃ tx ∈ s.block, ∃ f, tx.fields a.node.postFork = .ok f ∧
      r = a.context.row f r.amount r.fee r.reward := by
  rw [rows, List.mem_append, List.mem_singleton] at hr
  rw [a.block]
  rcases hr with hr | rfl
  · obtain ⟨⟨r', fee⟩, hp, rfl⟩ := List.mem_map.1 hr
    obtain ⟨tx, htx, f, debit, fees, txFee, h⟩ := a.exists_spend hp
    refine ⟨tx, by simp [htx], f, h.fields, ?_⟩
    rw [h.row]
    rfl
  · obtain ⟨f, mined, text, h⟩ := a.exists_coinbase
    refine ⟨a.last, by simp, f, h.fields, ?_⟩
    rw [h.row]
    rfl

theorem newBlock (hw : cfg.NoWaiver) (hk : ∀ tx ∈ s.block, keys (tx.publicKey.take maxTxPubkeyLen)) :
    NewBlock cfg.mode keys a.node.height a.digest a.rows where
  nonempty := by simp [rows]
  stored := fun r hr => by
    rw [hex_digest]
    exact a.rows_stored hw hr
  known := fun r hr => by
    obtain ⟨tx, htx, f, hf, hrow⟩ := a.exists_tx hr
    obtain ⟨-, -, hfields⟩ := RawTx.fields_ok hf
    rw [hrow]
    show keys f.publicKey
    rw [hfields]
    exact hk tx htx

end Acceptance

namespace Chained
variable {n : Node π} {s : Submission} {chain : List LiveBlock}

theorem acceptance (H : Chained P cfg keys n chain) (a : Acceptance P cfg n s) :
    Chained P cfg keys a.node chain ∧ (a.node.forkHeight = none → a.node.forkCaughtUp = true) := by
  obtain ⟨f, -, h⟩ := a.prepared
  obtain ⟨-, hcaught⟩ := H.detectFork_forkHeight
  have H := H.detectFork
  rw [h]
  exact ⟨⟨H.good, H.genesis, H.last, H.fork, H.allocations, H.caughtUp⟩, hcaught⟩

theorem digest_ne (H : Chained P cfg keys n chain) (a : Acceptance P cfg n s) :
    ∀ b ∈ chain, b.digest ≠ a.digest := by
  intro b hb heq
  have hlive := H.good.exact.live b hb
  have hfound := H.good.exact.heightByHash _ _ hlive
  obtain ⟨-, hnew, -⟩ := sealBlock_ok a.hashed
  rw [heq, a.hex_digest] at hfound
  rw [show (a.node.stamped a.stamp).store = n.store from a.node_store, hfound] at hnew
  cases hnew

theorem step (H : Chained P cfg keys n chain) (hw : cfg.NoWaiver) (a : Acceptance P cfg n s)
    (hk : ∀ tx ∈ s.block, keys (tx.publicKey.take maxTxPubkeyLen)) :
    Step P cfg.mode keys a.node.forkHeight ⟨a.node.store, chain⟩ ⟨a.store, chain ++ [a.live]⟩ := by
  have hcommit := a.commit
  rw [← a.hex_digest] at hcommit
  exact .commit (some a.saved) (a.newBlock hw hk) (H.digest_ne a) hcommit

theorem accept (H : Chained P cfg keys n chain) (hd : KeysDistinct P keys) (hw : cfg.NoWaiver)
    (a : Acceptance P cfg n s) (hk : ∀ tx ∈ s.block, keys (tx.publicKey.take maxTxPubkeyLen))
    (mempool : OrdTable Text RawTx) :
    Chained P cfg keys (a.after mempool) (chain ++ [a.live]) := by
  obtain ⟨H', hcaught⟩ := H.acceptance a
  have hcommit := a.commit
  rw [← a.hex_digest] at hcommit
  exact {
    good := (H.step hw a hk).good hd H'.good
    genesis := H.genesis.trans (List.prefix_append _ _)
    last := ⟨chain, a.live, rfl, rfl, a.hex_digest⟩
    fork := H'.fork
    allocations := by
      rw [← H'.allocations]
      exact congrArg (·.getD ∅) (commitBlock_alloc hd H'.good.keyTable (a.newBlock hw hk) hcommit)
    caughtUp := fun h => .inl (hcaught h) }

end Chained

/-! ## Blocks that are rejected, and going back -/

theorem Ledger.Good.lastBlockHash {l : Ledger} (H : l.Good P mode keys forkHeight)
    (hc : l.chain = c ++ [b]) :
    l.store.tip = some b.height ∧ l.store.lastBlockHash = .ok (hex b.digest) := by
  have htip : l.store.tip = some b.height := by
    have := H.exact.tip
    rwa [hc, List.getLast?_concat, Option.map_some] at this
  refine ⟨htip, ?_⟩
  have := H.exact.live b (by simp [hc])
  rw [Store.lastBlockHash, htip]
  simp only [this]
  rfl

theorem exists_last {chain : List LiveBlock} (h : [g] <+: chain) : ∃ c b, chain = c ++ [b] := by
  have hne : chain ≠ [] := by
    rintro rfl
    simp at h
  exact ⟨_, _, (List.dropLast_append_getLast hne).symm⟩

/-- The ledger of `n'` holds a part of what that of `n` holds, and no txid of the part is lost. -/
structure Cut (P : Prims) (cfg : Config π) (n n' : Node π) (chain chain' : List LiveBlock) : Prop where
  isPrefix : chain' <+: chain
  sameFork : SameFork n.forkHeight n'.forkHeight chain'
  txid : TxidExact P cfg.mode n.forkHeight n.store chain →
    TxidExact P cfg.mode n'.forkHeight n'.store chain'

namespace Chained
variable {n n' : Node π} {s : Submission} {chain : List LiveBlock}

/-- A node whose ledger holds the chain is in step with it once its tip is read again. -/
theorem of_resync (good : Ledger.Good P cfg.mode keys n.forkHeight ⟨n.store, chain⟩)
    (genesis : [genesisBlock cfg] <+: chain) (fork : postFork n.forkHeight genesisHeight = false)
    (allocations : n.store.allocations = cfg.allocations)
    (caughtUp : n.forkHeight = none → n.forkCaughtUp = true ∨ chain = [genesisBlock cfg]) :
    Chained P cfg keys (resync n) chain := by
  obtain ⟨c, b, hc⟩ := exists_last genesis
  obtain ⟨htip, hhash⟩ := good.lastBlockHash hc
  have hr : resync n = { n with lastBlock := b.height, lastBlockHash := hex b.digest } := by
    simp only [resync, show n.store.tip = _ from htip, show n.store.lastBlockHash = _ from hhash]
  rw [hr]
  exact ⟨good, genesis, ⟨c, b, hc, rfl, rfl⟩, fork, allocations, caughtUp⟩

theorem rollback (H : Chained P cfg keys n chain) (hd : KeysDistinct P keys) (h1 : 1 ≤ h)
    (hr : rollback P cfg.mode n.store h n.forkHeight = .ok (st', removed)) :
    Ledger.Good P cfg.mode keys n.forkHeight ⟨st', upTo h chain⟩ ∧
      [genesisBlock cfg] <+: upTo h chain ∧ st'.allocations = cfg.allocations := by
  refine ⟨(Step.rollback hr).good hd H.good, ?_, ?_⟩
  rotate_left
  · rw [← H.allocations]
    exact congrArg (·.getD ∅) (H.good.rollback_alloc hr)
  obtain ⟨rest, rfl⟩ := H.genesis
  have hg : ((genesisBlock cfg).height : Int) ≤ h := h1
  rw [upTo, List.singleton_append, List.filter_cons_of_pos (by simpa using hg)]
  exact ⟨_, rfl⟩

/-- A block that is rejected leaves the chain, or a part of it. -/
theorem rejected (H : Chained P cfg keys n chain) (hd : KeysDistinct P keys)
    (hp : Prepared P cfg n n') :
    ∃ chain', Cut P cfg n n' chain chain' ∧ Chained P cfg keys (resync n') chain' := by
  have H' := H.detectFork
  obtain ⟨-, hcaught⟩ := H.detectFork_forkHeight
  have htxid := fun hx => H.good.txidExact_congr H.sameFork hx
  obtain hp | ⟨removed, -, hr, hn'⟩ := hp
  · refine ⟨chain, ⟨List.prefix_rfl, hp.forkHeight ▸ H.sameFork, fun hx => ?_⟩,
      of_resync ?_ H.genesis ?_ ?_ fun h => ?_⟩
    · rw [hp.forkHeight, hp.store, detectFork_store]
      exact htxid hx
    · rw [hp.forkHeight, hp.store]
      exact H'.good
    · rw [hp.forkHeight]
      exact H'.fork
    · rw [hp.store]
      exact H'.allocations
    · rw [hp.forkHeight] at h
      rw [hp.forkCaughtUp]
      exact .inl (hcaught h)
  · rw [← detectFork_store cfg n] at hr
    have h1 : (1 : Int) ≤ (cfg.rewardFork - 1 : Nat) - 1 := by
      rw [Config.rewardFork]
      split <;> decide
    obtain ⟨hgood, hgen, halloc⟩ := H'.rollback hd h1 hr
    have hpre := upTo_isPrefix H.good.sorted ((cfg.rewardFork - 1 : Nat) - 1)
    have hf : n'.forkHeight = (Bismuth.detectFork cfg n).forkHeight := by rw [hn']
    refine ⟨_, ⟨hpre, fun b hb => hf ▸ H.sameFork b (hpre.subset hb), fun hx => ?_⟩,
      of_resync ?_ hgen ?_ ?_ fun h => ?_⟩
    · rw [hf]
      refine H'.good.txidExact_rollback hd hr ?_
      rw [detectFork_store]
      exact htxid hx
    · rw [hf]
      exact hgood
    · rw [hf]
      exact H'.fork
    · rw [hn']
      exact halloc
    · rw [hn']
      exact .inl (hcaught (hf ▸ h))

end Chained

end Bismuth
