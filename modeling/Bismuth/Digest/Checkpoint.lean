import Bismuth.Digest.Reach

/-!
# Checkpoints

Two nodes with one checkpoint table store the same content up to the highest checkpoint, however much of
it each of them has validated; above it nothing is left unchecked.
-/

namespace Bismuth
open Py

variable {π : Type} {P : Prims} {cfg : Config π} {keys : Text → Prop}

/-! ## The content of a block -/

/-- The row stores the converted fields `f`; the amount of a coinbase is stored as none. -/
structure Row.Stores (mode : Mode) (isCoinbase : Bool) (f : TxTuple) (r : Row) : Prop where
  timestamp : r.timestamp = f.timestamp
  address : r.address = f.address
  recipient : r.recipient = f.recipient
  amount : if isCoinbase then r.amount = ['0']
    else moneyColumn mode (.str f.amount) f.amount = .ok r.amount
  signature : r.signature = f.signature
  publicKey : r.publicKey = f.publicKey
  operation : r.operation = f.operation
  openfield : r.openfield = f.openfield

/-- The rows store the converted transactions `fs` in order, the last one as the coinbase. -/
def StoresBlock (mode : Mode) (fs : List TxTuple) (rows : List Row) : Prop :=
  ∃ fi fl ri rl, fs = fi ++ [fl] ∧ rows = ri ++ [rl] ∧
    List.Forall₂ (Row.Stores mode false) fi ri ∧ Row.Stores mode true fl rl

theorem validateTx_fields (h : validateTx P cfg n now isLast tx = .ok t) :
    tx.fields n.postFork = .ok t.fields := by
  simp only [validateTx, Except.bind_eq_ok] at h
  obtain ⟨t', hparse, -, -, h⟩ := h
  cases h
  exact (RawTx.parse_ok hparse).2

namespace Acceptance
variable {n : Node π} {s : Submission} (a : Acceptance P cfg n s)

def converted : List TxTuple := a.txs.map (·.fields)

theorem forall₂_converted :
    List.Forall₂ (fun tx f => tx.fields a.node.postFork = .ok f) s.block a.converted := by
  obtain ⟨h, -⟩ := checkTransactions_ok a.checked
  have h := Except.mapM_eq_ok.1 h
  rw [converted, List.forall₂_map_right_iff]
  have hmap : s.block = s.block.zipIdx.map Prod.fst := (List.zipIdx_map_fst 0 s.block).symm
  rw [hmap, List.forall₂_map_left_iff]
  exact h.imp fun _ _ ht => validateTx_fields ht

theorem storesBlock : StoresBlock cfg.mode a.converted a.rows := by
  have h := a.forall₂_converted
  rw [a.block] at h
  obtain ⟨fi, fl, hf, hi, hl⟩ := h.flip.exists_of_concat
  refine ⟨fi, fl, a.spends.map Prod.fst, a.coinbase, hf, rfl, ?_, ?_⟩
  · rw [List.forall₂_map_right_iff]
    refine hi.comp (Except.mapM_eq_ok.1 a.spends_eq) fun {f tx p} htx hp => ?_
    obtain ⟨f', debit, fees, fee, h⟩ := spendRow_ok hp
    obtain rfl : f' = f := Except.ok.inj (h.fields.symm.trans htx)
    rw [h.row]
    exact ⟨rfl, rfl, rfl, h.amount, rfl, rfl, rfl, rfl⟩
  · obtain ⟨f, mined, text, hc⟩ := a.exists_coinbase
    obtain rfl : f = fl := Except.ok.inj (hc.fields.symm.trans hl)
    rw [hc.row]
    exact ⟨rfl, rfl, rfl, rfl, rfl, rfl, rfl, rfl⟩

end Acceptance

/-! ## Hash chains -/

/-- Block hashing tells the blocks and parents of `S` apart. -/
def HashesDistinct (P : Prims) (S : List TxTuple → Text → Prop) : Prop :=
  ∀ h fh fs prev fs' prev' x, S fs prev → S fs' prev' →
    blockHashAt P h fh fs prev = (.ok x : Except Err Text) →
    blockHashAt P h fh fs' prev' = (.ok x : Except Err Text) → fs = fs' ∧ prev = prev'

/-- The block is among those of `S` when it is hashed. -/
def HashedIn (P : Prims) (cfg : Config π) (S : List TxTuple → Text → Prop) (n : Node π)
    (s : Submission) : Prop :=
  ∀ a : Acceptance P cfg n s, S a.converted n.lastBlockHash

theorem length_blockHashAt (h : blockHashAt P k fh fs prev = (.ok x : Except Err Text)) :
    x.length = if postFork fh k then 64 else 56 := by
  rw [blockHashAt] at h
  split at h
  · rename_i hp
    simp only [blockHashV2, Except.bind_eq_ok] at h
    obtain ⟨_, -, _, -, h⟩ := h
    cases h
    rw [if_pos hp, Prims.blake2bHex, length_hex, P.length_blake2b]
  · rename_i hp
    cases h
    rw [if_neg hp, blockHash, Prims.sha224Hex, length_hex, P.length_sha224]

/-- Equal hashes come from equal blocks on equal parents, also at nodes with different fork heights. -/
theorem HashesDistinct.inj (hS : HashesDistinct P S) (h₁ : S fs₁ prev₁) (h₂ : S fs₂ prev₂)
    (hx₁ : blockHashAt P k₁ fh₁ fs₁ prev₁ = (.ok x : Except Err Text))
    (hx₂ : blockHashAt P k₂ fh₂ fs₂ prev₂ = (.ok x : Except Err Text)) :
    fs₁ = fs₂ ∧ prev₁ = prev₂ := by
  have hlen := (length_blockHashAt hx₁).symm.trans (length_blockHashAt hx₂)
  have hp : postFork fh₁ k₁ = postFork fh₂ k₂ := by
    cases h : postFork fh₁ k₁ <;> cases h' : postFork fh₂ k₂ <;> simp [h, h'] at hlen <;> rfl
  refine hS k₁ fh₁ fs₁ prev₁ fs₂ prev₂ x h₁ h₂ hx₁ ?_
  rwa [blockHashAt, hp, ← blockHashAt]

variable {n : Node π}

theorem Acceptance.hash_eq (a : Acceptance P cfg n s) :
    blockHashAt P n.height a.node.forkHeight a.converted n.lastBlockHash =
      (.ok a.hash : Except Err Text) := by
  have h := (sealBlock_ok a.hashed).1
  rw [show (a.node.stamped a.stamp).height = n.height from a.node_height,
    show (a.node.stamped a.stamp).lastBlockHash = n.lastBlockHash from a.node_lastBlockHash] at h
  exact h

section
variable (H : Chained P cfg keys n chain)
include H

theorem Chained.exists_built {V : List LiveBlock → LiveBlock → Prop}
    (hb : Built V chain) (hmem : b ∈ chain) (h2 : 2 ≤ b.height) :
    ∃ c, c ++ [b] <+: chain ∧ V c b := by
  obtain ⟨c, rest, hc⟩ := List.append_of_mem hmem
  have hpre : c ++ [b] <+: chain := ⟨rest, by rw [hc, List.append_assoc, List.singleton_append]⟩
  refine ⟨c, hpre, hb c b ?_ hpre⟩
  rintro rfl
  obtain ⟨_, hg⟩ := H.genesis
  rw [hc] at hg
  have : (genesisBlock cfg).height = b.height := by
    rw [List.singleton_append, List.nil_append] at hg
    rw [(List.cons.inj hg).1]
  rw [← this] at h2
  exact absurd h2 (show ¬ 2 ≤ genesisHeight by decide)

theorem Chained.exists_parent
    (hb : Built (Extends P cfg keys ok n.forkHeight) chain) (hmem : b ∈ chain) (h2 : 2 ≤ b.height) :
    ∃ n' s, ∃ a : Acceptance P cfg n' s, ok n' s ∧ b = a.live ∧
      ∃ p ∈ chain, p.height + 1 = b.height ∧ n'.lastBlockHash = hex p.digest := by
  obtain ⟨c, hpre, n', s, a, H', -, hok, hlive, -⟩ := H.exists_built hb hmem h2
  obtain ⟨c', p, hc', hp, hhash⟩ := H'.last
  refine ⟨n', s, a, hok, hlive, p, ?_, ?_, hhash.symm⟩
  · exact hpre.subset (by simp [hc'])
  · rw [hlive, hp]
    exact a.node_height.symm

theorem Chained.eq_of_height (hb : b ∈ chain)
    (hb' : b' ∈ chain) (h : b.height = b'.height) : b = b' := by
  have hnodup : (chain.map (·.height)).Nodup :=
    List.pairwise_map.2 (H.good.sorted.imp fun hlt => ne_of_lt hlt)
  exact List.inj_on_of_nodup_map hnodup hb hb' h

theorem Chained.one_le (hb : b ∈ chain) : 1 ≤ b.height := by
  obtain ⟨rest, rfl⟩ := H.genesis
  have hsorted := H.good.sorted
  rw [List.singleton_append, List.pairwise_cons] at hsorted
  rw [List.singleton_append, List.mem_cons] at hb
  rcases hb with rfl | hb
  · exact le_refl genesisHeight
  · exact le_of_lt (hsorted.1 b hb)

theorem Chained.eq_genesis (hb : b ∈ chain)
    (h : b.height < 2) : b = genesisBlock cfg := by
  have hmem : genesisBlock cfg ∈ chain := H.genesis.subset (by simp)
  have hone := H.one_le hb
  have hgen : (genesisBlock cfg).height = 1 := rfl
  exact H.eq_of_height hb hmem (by omega)

end

def Row.content (r : Row) : TxTuple where
  timestamp := r.timestamp
  address := r.address
  recipient := r.recipient
  amount := r.amount
  signature := r.signature
  publicKey := r.publicKey
  operation := r.operation
  openfield := r.openfield

theorem storesBlock_singleton (mode : Mode) {r : Row} (h : r.amount = ['0']) :
    StoresBlock mode [r.content] [r] :=
  ⟨[], r.content, [], r, rfl, rfl, .nil, rfl, rfl, rfl, h, rfl, rfl, rfl, rfl⟩

theorem genesisRow_content (mode mode' : Mode) :
    (genesisRow mode).content = (genesisRow mode').content := by
  simp only [Row.content, genesisRow]

theorem Acceptance.hash_pinned (a : Acceptance P cfg n s)
    (h : cfg.checkpointTable.get? a.live.height = some want) : a.hash = want := by
  have hcp := (sealBlock_ok a.hashed).2.2
  rw [Config.verifyCheckpoint] at hcp
  change cfg.checkpointTable.get? (a.node.stamped a.stamp).height = some want at h
  rw [h] at hcp
  by_contra hne
  simp [hne] at hcp

section
variable {π₁ π₂ : Type} {cfg₁ : Config π₁} {cfg₂ : Config π₂} {n₁ : Node π₁} {n₂ : Node π₂}
variable {S : List TxTuple → Text → Prop} {chain₁ chain₂ : List LiveBlock} {top : Nat}

/-- What two nodes have in common: their chains reach the height `top`, where both have one hash. -/
structure Pinned (P : Prims) (cfg₁ : Config π₁) (cfg₂ : Config π₂) (keys : Text → Prop)
    (S : List TxTuple → Text → Prop) (top : Nat) (n₁ : Node π₁) (n₂ : Node π₂)
    (chain₁ chain₂ : List LiveBlock) : Prop where
  chained₁ : Chained P cfg₁ keys n₁ chain₁
  chained₂ : Chained P cfg₂ keys n₂ chain₂
  built₁ : Built (Extends P cfg₁ keys (HashedIn P cfg₁ S) n₁.forkHeight) chain₁
  built₂ : Built (Extends P cfg₂ keys (HashedIn P cfg₂ S) n₂.forkHeight) chain₂
  reached₁ : top ≤ n₁.lastBlock
  reached₂ : top ≤ n₂.lastBlock
  pinned : ∀ b₁ ∈ chain₁, ∀ b₂ ∈ chain₂, b₁.height = top → b₂.height = top → b₁.digest = b₂.digest

section
variable (H : Pinned P cfg₁ cfg₂ keys S top n₁ n₂ chain₁ chain₂)
include H

/-- Blocks of one height above the genesis block with one hash have the same content and the same
parent. -/
theorem Pinned.step (hS : HashesDistinct P S)
    (h₁ : b₁ ∈ chain₁) (h₂ : b₂ ∈ chain₂) (hle : 2 ≤ b₁.height) (hh : b₁.height = b₂.height)
    (hd : b₁.digest = b₂.digest) :
    (∃ fs, StoresBlock cfg₁.mode fs b₁.rows ∧ StoresBlock cfg₂.mode fs b₂.rows) ∧
      ∃ p₁ ∈ chain₁, ∃ p₂ ∈ chain₂, p₁.height + 1 = b₁.height ∧ p₂.height + 1 = b₂.height ∧
        p₁.digest = p₂.digest := by
  obtain ⟨m₁, s₁, a₁, ok₁, rfl, p₁, hp₁, hph₁, hprev₁⟩ := H.chained₁.exists_parent H.built₁ h₁ hle
  obtain ⟨m₂, s₂, a₂, ok₂, rfl, p₂, hp₂, hph₂, hprev₂⟩ :=
    H.chained₂.exists_parent H.built₂ h₂ (hh ▸ hle)
  have hhash : a₁.hash = a₂.hash := by rw [← a₁.hex_digest, ← a₂.hex_digest]; exact congrArg hex hd
  have hx₁ := a₁.hash_eq
  rw [hhash] at hx₁
  obtain ⟨hfs, hprev⟩ := hS.inj (ok₁ a₁) (ok₂ a₂) hx₁ a₂.hash_eq
  refine ⟨⟨a₁.converted, a₁.storesBlock, hfs ▸ a₂.storesBlock⟩, p₁, hp₁, p₂, hp₂, hph₁, hph₂, ?_⟩
  rw [hprev₁, hprev₂] at hprev
  exact hex_injective hprev

theorem Pinned.digest_eq
    (hS : HashesDistinct P S) (k : Nat) :
    ∀ b₁ ∈ chain₁, ∀ b₂ ∈ chain₂, b₁.height + k = top → b₂.height + k = top →
      b₁.digest = b₂.digest := by
  induction k with
  | zero => exact H.pinned
  | succ k ih =>
    intro b₁ h₁ b₂ h₂ hk₁ hk₂
    obtain ⟨c₁, hc₁, hh₁⟩ := H.chained₁.exists_height (k := b₁.height + 1) (by omega)
      (by have := H.reached₁; omega)
    obtain ⟨c₂, hc₂, hh₂⟩ := H.chained₂.exists_height (k := b₂.height + 1) (by omega)
      (by have := H.reached₂; omega)
    have hd := ih c₁ hc₁ c₂ hc₂ (by omega) (by omega)
    have hpos := H.chained₁.one_le h₁
    obtain ⟨-, p₁, hp₁, p₂, hp₂, hph₁, hph₂, hp⟩ := H.step hS hc₁ hc₂ (by omega) (by omega) hd
    rwa [H.chained₁.eq_of_height h₁ hp₁ (by omega), H.chained₂.eq_of_height h₂ hp₂ (by omega)]

theorem Pinned.content
    (hS : HashesDistinct P S) (h₁ : b₁ ∈ chain₁) (h₂ : b₂ ∈ chain₂) (hh : b₁.height = b₂.height)
    (hle : b₁.height ≤ top) :
    ∃ fs, StoresBlock cfg₁.mode fs b₁.rows ∧ StoresBlock cfg₂.mode fs b₂.rows := by
  by_cases hgen : 2 ≤ b₁.height
  · have hd := H.digest_eq hS (top - b₁.height) b₁ h₁ b₂ h₂ (by omega) (by omega)
    exact (H.step hS h₁ h₂ hgen hh hd).1
  · obtain rfl := H.chained₁.eq_genesis h₁ (by omega)
    obtain rfl := H.chained₂.eq_genesis h₂ (by omega)
    refine ⟨[(genesisRow cfg₁.mode).content], storesBlock_singleton _ rfl, ?_⟩
    rw [genesisRow_content cfg₁.mode cfg₂.mode]
    exact storesBlock_singleton _ rfl

end

end

/-! ## Above the checkpoints -/

/-- The same node with nothing taken on trust. -/
def Config.trustless (cfg : Config π) : Config π := { cfg with assumeValidHeight := 0 }

theorem inTrustedPrefix_trustless (cfg : Config π) (h : Nat) :
    cfg.trustless.inTrustedPrefix h = false := by
  simp [Config.inTrustedPrefix, Config.trustless]

theorem inTrustedPrefix_above (h : ∀ k, cfg.checkpointTable.lastKey? = some k → k < height) :
    cfg.inTrustedPrefix height = false := by
  rw [Config.inTrustedPrefix]
  cases hk : cfg.checkpointTable.lastKey? with
  | none => simp
  | some k =>
    have := h k hk
    simp only [Option.any_some, Bool.and_eq_false_iff, decide_eq_false_iff_not, not_le]
    omega

section
variable {n : Node π} {s : Submission}

theorem checkTransactions_trustless (h : cfg.inTrustedPrefix n.height = false) :
    checkTransactions P cfg n s = checkTransactions P cfg.trustless n s := by
  have h' := inTrustedPrefix_trustless cfg n.height
  have hv : validateTx P cfg n = validateTx P cfg.trustless n := by
    unfold validateTx
    rw [h, h']
    rfl
  unfold checkTransactions checkTimestamp sortAndValidateTransactions
  rw [h, h', hv]
  rfl

theorem sealBlock_trustless (h : cfg.inTrustedPrefix n.height = false) (txs : List Transaction)
    (miner : MinerTx) (diff : Val) :
    sealBlock P cfg n s txs miner diff = sealBlock P cfg.trustless n s txs miner diff := by
  have h' := inTrustedPrefix_trustless cfg n.height
  unfold sealBlock savedDifficulty
  rw [h, h']
  rfl

theorem spendRow_trustless {c : RowContext π} (h : cfg.inTrustedPrefix c.node.height = false) :
    spendRow P cfg c = spendRow P cfg.trustless c := by
  have h' := inTrustedPrefix_trustless cfg c.node.height
  unfold spendRow validateBalance
  rw [h, h']
  rfl

theorem balanceRows_trustless {c : RowContext π} (h : cfg.inTrustedPrefix c.node.height = false)
    (fees : List Number) (block : List RawTx) :
    balanceRows P cfg c fees block = balanceRows P cfg.trustless c fees block := by
  induction block generalizing fees with
  | nil => rfl
  | cons tx block ih =>
    cases block with
    | nil => rfl
    | cons y block =>
      unfold balanceRows
      rw [spendRow_trustless h]
      simp only [ih]

end

/-- A block that is not in the trusted prefix is judged as if nothing were trusted. -/
theorem acceptBlock_trustless (h : cfg.inTrustedPrefix n.height = false) :
    acceptBlock P cfg s n = acceptBlock P cfg.trustless s n := by
  have hprep : prepareBlock P cfg.trustless = prepareBlock P cfg := rfl
  have hdiff : difficulty P cfg.trustless = difficulty P cfg := rfl
  have hcommit : commitRows P cfg.trustless = commitRows P cfg := rfl
  simp only [acceptBlock, processTransactionBalances, Run.bind_apply, hprep, hdiff, hcommit, Run.get,
    Run.lift]
  rcases hp : prepareBlock P cfg n with ⟨e | u, n₁⟩
  · rfl
  · obtain ⟨f, -, hn₁⟩ := prepareBlock_ok hp
    have hheight : n₁.height = n.height := by rw [hn₁, detectFork_eq]; rfl
    rw [← hheight] at h
    simp only [← checkTransactions_trustless h]
    rcases checkTransactions P cfg n₁ s with e | ⟨txs, miner⟩
    · rfl
    · dsimp only
      rcases hd : difficulty P cfg n₁ with ⟨e | d, n₂⟩
      · rfl
      · obtain ⟨t, rfl⟩ := difficulty_ok hd
        replace h : cfg.inTrustedPrefix (n₁.stamped t).height = false := h
        simp only [← sealBlock_trustless h]
        rcases sealBlock P cfg (n₁.stamped t) s txs miner d with e | ⟨hash, saved⟩
        · rfl
        · dsimp only
          rcases oldestPossible (n₁.stamped t) miner with e | oldest
          · rfl
          · dsimp only
            rw [balanceRows_trustless h]

/-! ## The result -/

theorem exists_get?_lastKey {t : OrdTable Nat Text} (h : t.lastKey? = some k) :
    ∃ v, t.get? k = some v := by
  obtain ⟨⟨k', v⟩, he, rfl⟩ := Option.map_eq_some_iff.1 h
  exact ⟨v, OrdTable.mem_entries.1 (List.mem_of_getLast? he)⟩

/-- Two nodes with the same checkpoints that both have passed the highest one, each with a trust horizon
of its own, store the same content up to it; and above it no node leaves out a check. -/
theorem checkpoints_pin {π₁ π₂ : Type} (cfg₁ : Config π₁) (cfg₂ : Config π₂)
    (hw₁ : cfg₁.NoWaiver) (hw₂ : cfg₂.NoWaiver)
    (hcp : cfg₁.checkpointTable = cfg₂.checkpointTable) {S : List TxTuple → Text → Prop}
    (hd : KeysDistinct P keys) (hk : keys genesisPublicKey) (hS : HashesDistinct P S) :
    (∀ n₁ n₂ top, Reach P cfg₁ keys (HashedIn P cfg₁ S) n₁ → Reach P cfg₂ keys (HashedIn P cfg₂ S) n₂ →
      cfg₁.checkpointTable.lastKey? = some top → top ≤ n₁.lastBlock → top ≤ n₂.lastBlock →
      ∃ chain₁ chain₂, Chained P cfg₁ keys n₁ chain₁ ∧ Chained P cfg₂ keys n₂ chain₂ ∧
        ∀ b₁ ∈ chain₁, ∀ b₂ ∈ chain₂, b₁.height = b₂.height → b₁.height ≤ top →
          ∃ fs, StoresBlock cfg₁.mode fs b₁.rows ∧ StoresBlock cfg₂.mode fs b₂.rows) ∧
    ∀ (n : Node π₁) (s : Submission),
      (∀ top, cfg₁.checkpointTable.lastKey? = some top → top < n.height) →
      acceptBlock P cfg₁ s n = acceptBlock P cfg₁.trustless s n := by
  refine ⟨fun n₁ n₂ top h₁ h₂ htop hle₁ hle₂ => ?_, fun n s h =>
    acceptBlock_trustless (inTrustedPrefix_above h)⟩
  obtain ⟨chain₁, H₁, hb₁⟩ := h₁.built hd hk hw₁
  obtain ⟨chain₂, H₂, hb₂⟩ := h₂.built hd hk hw₂
  obtain ⟨want, hwant⟩ := exists_get?_lastKey htop
  have hpin : Pinned P cfg₁ cfg₂ keys S top n₁ n₂ chain₁ chain₂ := by
    refine ⟨H₁, H₂, hb₁, hb₂, hle₁, hle₂, fun b₁ m₁ b₂ m₂ e₁ e₂ => ?_⟩
    by_cases hgen : 2 ≤ top
    · obtain ⟨_, _, a₁, -, rfl, -⟩ := H₁.exists_parent hb₁ m₁ (by omega)
      obtain ⟨_, _, a₂, -, rfl, -⟩ := H₂.exists_parent hb₂ m₂ (by omega)
      have hh₁ := a₁.hash_pinned (e₁ ▸ hwant)
      have hh₂ := a₂.hash_pinned (e₂ ▸ hcp ▸ hwant)
      rw [← a₁.hex_digest] at hh₁
      rw [← a₂.hex_digest, ← hh₁] at hh₂
      exact (hex_injective hh₂).symm
    · rw [H₁.eq_genesis m₁ (by omega), H₂.eq_genesis m₂ (by omega)]
      rfl
  exact ⟨chain₁, chain₂, H₁, H₂, fun b₁ m₁ b₂ m₂ => hpin.content hS m₁ m₂⟩

/-- A checkpoint at the first block above the genesis block. -/
def smallCheckpoint : OrdTable Nat Text :=
  (∅ : OrdTable Nat Text).put 2 "b07743dc0f0215f0989036d7d3c09e41cda5dba99923d1f910e0a42c".toList

def pinnedBlock : Submission := smallBlock [aliceMines "1500000000.00".toList ['A', 'A', 'A', 'A']]

def pinnedFields : TxTuple where
  timestamp := "1500000000.00".toList
  address := alice
  recipient := alice
  amount := "0.00000000".toList
  signature := ['A', 'A', 'A', 'A']
  publicKey := []
  operation := ['0']
  openfield := ['0']

theorem pinnedBlock_hashedIn :
    HashedIn .toy (regnet mode smallCheckpoint horizon) (fun fs prev => fs = [pinnedFields] ∧
      prev = genesisBlockHash) (freshNode mode none) pinnedBlock := by
  intro a
  have h := a.forall₂_converted
  obtain ⟨f, fs, hf, hfs, heq⟩ := List.forall₂_cons_left_iff.1 h
  cases hfs
  have hconv : ∀ pf, (aliceMines "1500000000.00".toList ['A', 'A', 'A', 'A']).fields pf =
      .ok pinnedFields := by decide +kernel
  rw [hconv] at hf
  exact ⟨by rw [heq, Except.ok.inj hf], rfl⟩

/-- A node that trusts the block and keeps decimals, and one that checks it and keeps integers. -/
theorem checkpoints_pin_sample :
    ∃ n₁ n₂ : Node Unit, n₁.lastBlock = 2 ∧ n₂.lastBlock = 2 ∧ ∃ chain₁ chain₂,
      Chained .toy (regnet .decimal smallCheckpoint 2) smallKeys n₁ chain₁ ∧
      Chained .toy (regnet .integer smallCheckpoint 0) smallKeys n₂ chain₂ ∧
      ∀ b₁ ∈ chain₁, ∀ b₂ ∈ chain₂, b₁.height = b₂.height → b₁.height ≤ 2 →
        ∃ fs, StoresBlock .decimal fs b₁.rows ∧ StoresBlock .integer fs b₂.rows := by
  have hkeys : pinnedBlock.Keys smallKeys := by
    intro tx htx
    rw [List.mem_singleton.1 htx]
    exact .inl rfl
  have hreach : ∀ mode horizon, Reach .toy (regnet mode smallCheckpoint horizon) smallKeys
      (HashedIn .toy (regnet mode smallCheckpoint horizon) fun fs prev => fs = [pinnedFields] ∧
        prev = genesisBlockHash)
      (digestBlock .toy (regnet mode smallCheckpoint horizon) [pinnedBlock] (freshNode mode none)).2 :=
    fun mode horizon => ⟨_, freshNode_fresh mode smallCheckpoint horizon rfl,
      .single (.digest pinnedBlock hkeys fun _ => pinnedBlock_hashedIn)⟩
  have h₁ : (digestBlock .toy (regnet .decimal smallCheckpoint 2) [pinnedBlock]
      (freshNode .decimal none)).2.lastBlock = 2 := by decide +kernel
  have h₂ : (digestBlock .toy (regnet .integer smallCheckpoint 0) [pinnedBlock]
      (freshNode .integer none)).2.lastBlock = 2 := by decide +kernel
  refine ⟨_, _, h₁, h₂, ?_⟩
  exact (checkpoints_pin (regnet .decimal smallCheckpoint 2) (regnet .integer smallCheckpoint 0)
    regnet_noWaiver regnet_noWaiver rfl smallKeys_distinct (.inr rfl)
    (fun _ _ _ _ _ _ _ h h' _ _ => ⟨h.1.trans h'.1.symm, h.2.trans h'.2.symm⟩)).1 _ _ 2
    (hreach .decimal 2) (hreach .integer 0) rfl h₁.ge h₂.ge

/-! ## One hash, one history -/

end Bismuth
