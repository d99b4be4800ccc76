import Bismuth.Digest.Chain

/-!
# The states a node reaches

A node starts from a fresh ledger, digests the blocks it is given and goes back to an earlier height
when it takes another branch.
-/

namespace Bismuth
open Py Relation

variable {π : Type} {P : Prims} {cfg : Config π} {keys : Text → Prop}
variable {ok : Node π → Submission → Prop}

/-! ## Going back -/

theorem rollToLocked_ok {n n' : Node π} (h : rollToLocked P cfg k n = (.ok u, n')) :
    ∃ st' removed hash stamp, rollback P cfg.mode n.store k n.forkHeight = .ok (st', removed) ∧
      st'.lastBlockHash = .ok hash ∧
      n' = { n with
        store := st'
        plugins := cfg.onRollback (k + 1) n.plugins
        lastBlockTimestamp := stamp
        lastBlock := k
        lastBlockHash := hash } := by
  simp only [rollToLocked, rollbackUnder, Run.bind_eq_ok, Run.get_eq_ok, Run.modify_eq_ok,
    Run.lift_eq_ok, Prod.exists] at h
  obtain ⟨_, _, ⟨_, _, ⟨rfl, rfl⟩, st', removed, _, ⟨hr, rfl⟩, rfl⟩, _, _, rfl, _, _, ⟨rfl, rfl⟩, stamp,
    _, ⟨-, rfl⟩, _, _, rfl, _, _, ⟨rfl, rfl⟩, hash, _, ⟨hh, rfl⟩, rfl⟩ := h
  have hk : ((k + 1 : Nat) : Int) - 1 = k := by omega
  rw [hk] at hr
  exact ⟨st', removed, hash, stamp, hr, hh, rfl⟩

namespace Chained
variable {n n' : Node π} {chain : List LiveBlock}

theorem exists_height (H : Chained P cfg keys n chain) (h1 : 1 ≤ k) (hk : k ≤ n.lastBlock) :
    ∃ b ∈ chain, b.height = k := by
  obtain ⟨c, b, hc, hb, -⟩ := H.last
  have hmem : b ∈ chain := by simp [hc]
  obtain ⟨rest, rfl⟩ := H.genesis
  exact H.good.exact.contiguous.exists_eq hmem h1 (by omega)

theorem rollTo (H : Chained P cfg keys n chain) (hd : KeysDistinct P keys) (h1 : 1 ≤ k)
    (hk : k ≤ n.lastBlock) (h : rollToLocked P cfg k n = (.ok u, n')) :
    Cut P cfg n n' chain (upTo k chain) ∧ Chained P cfg keys n' (upTo k chain) := by
  obtain ⟨st', removed, hash, stamp, hr, hh, rfl⟩ := rollToLocked_ok h
  obtain ⟨hgood, hgen, halloc⟩ := H.rollback hd (by omega) hr
  obtain ⟨b, hb, rfl⟩ := H.exists_height h1 hk
  obtain ⟨c, rest, hc⟩ := List.append_of_mem hb
  have hup : upTo b.height chain = c ++ [b] :=
    upTo_of_isPrefix H.good.sorted ⟨rest, by rw [hc, List.append_assoc, List.singleton_append]⟩
  have hlast := (hgood.lastBlockHash hup).2
  refine ⟨⟨upTo_isPrefix H.good.sorted _, fun _ _ => rfl, H.good.txidExact_rollback hd hr⟩, hgood, hgen,
    ⟨c, b, hup, rfl, Except.ok.inj (hlast.symm.trans hh)⟩, H.fork, halloc, fun hn => ?_⟩
  rcases H.caughtUp hn with h | rfl
  · exact .inl h
  · have hpre := upTo_isPrefix H.good.sorted b.height
    exact .inr (hpre.eq_of_length (le_antisymm hpre.length_le hgen.length_le))

end Chained

/-! ## Steps -/

def Accepts (P : Prims) (cfg : Config π) (n : Node π) (s : Submission) : Prop :=
  (acceptBlock P cfg s n).1 = .ok ()

/-- The public keys of the block's rows are among `keys`. -/
def Submission.Keys (keys : Text → Prop) (s : Submission) : Prop :=
  ∀ tx ∈ s.block, keys (tx.publicKey.take maxTxPubkeyLen)

section
variable (P : Prims) (cfg : Config π) (keys : Text → Prop) (ok : Node π → Submission → Prop)

/-- One step of a node whose accepted blocks all satisfy `ok`: it digests a block, or it goes back to a
height of its chain. -/
inductive NodeStep : Node π → Node π → Prop
  | digest (s : Submission) : s.Keys keys → (Accepts P cfg n s → ok n s) →
    NodeStep n (digestBlock P cfg [s] n).2
  | rollTo : 1 ≤ k → k ≤ n.lastBlock → rollToLocked P cfg k n = (.ok (), n') → NodeStep n n'

/-- A node that has just seeded its ledger. Its fork height may have been set by hand. -/
structure Fresh (n : Node π) : Prop where
  store : seedGenesis P cfg = .ok n.store
  lastBlock : n.lastBlock = genesisHeight
  lastBlockHash : n.lastBlockHash = genesisBlockHash
  forkHeight : postFork n.forkHeight genesisHeight = false

def Reach (n : Node π) : Prop := ∃ n₀, Fresh P cfg n₀ ∧ ReflTransGen (NodeStep P cfg keys ok) n₀ n

/-- The block `b` was accepted on the chain `c`, for the fork height `fh` as far as it concerns them. -/
def Extends (fh : Option Nat) (c : List LiveBlock) (b : LiveBlock) : Prop :=
  ∃ n s, ∃ a : Acceptance P cfg n s, Chained P cfg keys n c ∧ s.Keys keys ∧ ok n s ∧ b = a.live ∧
    SameFork a.node.forkHeight fh (c ++ [b])

end

/-- Every block above the genesis block satisfies `V` with the blocks before it. -/
def Built (V : List LiveBlock → LiveBlock → Prop) (chain : List LiveBlock) : Prop :=
  ∀ c b, c ≠ [] → c ++ [b] <+: chain → V c b

variable {V : List LiveBlock → LiveBlock → Prop}

theorem Built.of_isPrefix (h : Built V chain) (hp : chain' <+: chain) : Built V chain' :=
  fun c b hc hb => h c b hc (hb.trans hp)

theorem Built.concat (h : Built V chain) (hv : V chain b) : Built V (chain ++ [b]) := by
  intro c b' hc hp
  rcases List.prefix_concat_iff.1 hp with heq | hp
  · obtain ⟨rfl, hb⟩ := List.append_inj' heq rfl
    cases hb
    exact hv
  · exact h c b' hc hp

theorem Extends.congr (h : Extends P cfg keys ok fh c b) (hf : SameFork fh fh' (c ++ [b])) :
    Extends P cfg keys ok fh' c b := by
  obtain ⟨n, s, a, hn, hk, hok, hb, hs⟩ := h
  exact ⟨n, s, a, hn, hk, hok, hb, fun b hb => (hf b hb).trans (hs b hb)⟩

theorem Built.congr (h : Built (Extends P cfg keys ok fh) chain) (hf : SameFork fh fh' chain) :
    Built (Extends P cfg keys ok fh') chain :=
  fun c b hc hp => (h c b hc hp).congr fun b' hb' => hf b' (hp.subset hb')

/-! ## Runs -/

theorem digestBlock_rejected {n n₁ : Node π} (h : acceptBlock P cfg s n = (.error e, n₁)) :
    digestBlock P cfg [s] n = (.error e, resync n₁) := by
  simp only [digestBlock, processBlockData, processBlock, Run.bind_apply, h]

/-- After an accepted block the difficulty is read once more, which may raise. -/
theorem digestBlock_accepted {n n₁ : Node π} (h : acceptBlock P cfg s n = (.ok u, n₁)) :
    ∃ t, (digestBlock P cfg [s] n).2 = n₁.stamped t ∨
      (digestBlock P cfg [s] n).2 = resync (n₁.stamped t) := by
  obtain ⟨t, ht⟩ := difficulty_frame P cfg n₁
  refine ⟨t, ?_⟩
  simp only [digestBlock, processBlockData, processBlock, Run.bind_apply, h]
  rcases hdiff : difficulty P cfg n₁ with ⟨_ | d, n₂⟩ <;> rw [hdiff] at ht <;> subst ht
  · exact .inr rfl
  · exact .inl rfl

theorem resync_store (n : Node π) : (resync n).store = n.store := by
  rw [resync]
  split <;> rfl

theorem resync_forkHeight (n : Node π) : (resync n).forkHeight = n.forkHeight := by
  rw [resync]
  split <;> rfl

theorem Chained.stamped {n : Node π} (H : Chained P cfg keys n chain) (t : Number) :
    Chained P cfg keys (n.stamped t) chain :=
  ⟨H.good, H.genesis, H.last, H.fork, H.allocations, H.caughtUp⟩

/-- Accepting a block extends the chain; a block that is rejected leaves a part of it. -/
theorem digestBlock_cases {n : Node π} (hd : KeysDistinct P keys) (hw : cfg.NoWaiver)
    (hk : s.Keys keys) (H : Chained P cfg keys n chain) :
    (∃ a : Acceptance P cfg n s, Accepts P cfg n s ∧
      (digestBlock P cfg [s] n).2.forkHeight = a.node.forkHeight ∧
      (digestBlock P cfg [s] n).2.store = a.store ∧
      Chained P cfg keys (digestBlock P cfg [s] n).2 (chain ++ [a.live])) ∨
    ∃ chain', Cut P cfg n (digestBlock P cfg [s] n).2 chain chain' ∧
      Chained P cfg keys (digestBlock P cfg [s] n).2 chain' := by
  rcases h : acceptBlock P cfg s n with ⟨e | u, n₁⟩
  · right
    rw [digestBlock_rejected h]
    obtain ⟨chain', hcut, H'⟩ := H.rejected hd (acceptBlock_error h)
    refine ⟨chain', ⟨hcut.isPrefix, ?_, ?_⟩, H'⟩
    · rw [resync_forkHeight]
      exact hcut.sameFork
    · rw [resync_forkHeight, resync_store]
      exact hcut.txid
  · left
    obtain ⟨a, mempool, rfl⟩ := acceptBlock_ok h
    have H' := H.accept hd hw a hk mempool
    refine ⟨a, by rw [Accepts, h], ?_⟩
    obtain ⟨t, ht | ht⟩ := digestBlock_accepted h
    · rw [ht]
      exact ⟨rfl, rfl, H'.stamped t⟩
    · rw [ht, resync_forkHeight, resync_store]
      exact ⟨rfl, rfl, .of_resync H'.good H'.genesis H'.fork H'.allocations H'.caughtUp⟩

/-- A step extends the chain by a block that is accepted, or leaves a part of it. -/
theorem NodeStep.cases {n n' : Node π} (hd : KeysDistinct P keys) (hw : cfg.NoWaiver)
    (h : NodeStep P cfg keys ok n n') (H : Chained P cfg keys n chain) :
    (∃ s, ∃ a : Acceptance P cfg n s, s.Keys keys ∧ ok n s ∧ n'.forkHeight = a.node.forkHeight ∧
      n'.store = a.store ∧ Chained P cfg keys n' (chain ++ [a.live])) ∨
    ∃ chain', Cut P cfg n n' chain chain' ∧ Chained P cfg keys n' chain' := by
  cases h with
  | digest s hk hok =>
    refine (digestBlock_cases hd hw hk H).imp_left ?_
    rintro ⟨a, hacc, hf, hst, H'⟩
    exact ⟨s, a, hk, hok hacc, hf, hst, H'⟩
  | rollTo h1 h2 hr =>
    right
    exact ⟨_, H.rollTo hd h1 h2 hr⟩

theorem Fresh.chained {n : Node π} (hd : KeysDistinct P keys) (hk : keys genesisPublicKey)
    (h : Fresh P cfg n) : Chained P cfg keys n [genesisBlock cfg] where
  good := by
    refine (seedGenesis_good hd hk h.store).1.congr fun b hb => ?_
    rw [List.mem_singleton.1 hb]
    exact h.forkHeight
  genesis := List.prefix_rfl
  last := ⟨[], genesisBlock cfg, rfl, h.lastBlock.symm, hex_genesis.trans h.lastBlockHash.symm⟩
  fork := h.forkHeight
  allocations := (seedGenesis_good hd hk h.store).2
  caughtUp := fun _ => .inr rfl

/-- What holds of a fresh ledger and is kept by accepted blocks and by going back holds in every state
that a node reaches. -/
theorem Reach.induct (I : Node π → List LiveBlock → Prop) (hd : KeysDistinct P keys)
    (hk : keys genesisPublicKey) (hw : cfg.NoWaiver)
    (fresh : ∀ n, Fresh P cfg n → Chained P cfg keys n [genesisBlock cfg] → I n [genesisBlock cfg])
    (accept : ∀ n n' chain s (a : Acceptance P cfg n s), Chained P cfg keys n chain → I n chain →
      s.Keys keys → ok n s → n'.forkHeight = a.node.forkHeight → n'.store = a.store →
      I n' (chain ++ [a.live]))
    (cut : ∀ n n' chain chain', Chained P cfg keys n chain → I n chain → Cut P cfg n n' chain chain' →
      I n' chain')
    {n : Node π} (h : Reach P cfg keys ok n) : ∃ chain, Chained P cfg keys n chain ∧ I n chain := by
  obtain ⟨n₀, hf, h⟩ := h
  induction h with
  | refl => exact ⟨_, hf.chained hd hk, fresh n₀ hf (hf.chained hd hk)⟩
  | tail _ hstep ih =>
    obtain ⟨chain, H, hI⟩ := ih
    obtain ⟨s, a, hkeys, hok, hfork, hst, H'⟩ | ⟨chain', hcut, H'⟩ := hstep.cases hd hw H
    · exact ⟨_, H', accept _ _ _ s a H hI hkeys hok hfork hst⟩
    · exact ⟨_, H', cut _ _ _ _ H hI hcut⟩

theorem Built.genesis (g : LiveBlock) : Built V [g] := by
  intro c b hc hp
  have hlen := hp.length_le
  have hpos := List.length_pos_iff.2 hc
  simp only [List.length_append, List.length_singleton] at hlen
  omega

theorem Built.accept {n : Node π} (a : Acceptance P cfg n s) (H : Chained P cfg keys n chain)
    (hb : Built (Extends P cfg keys ok n.forkHeight) chain) (hk : s.Keys keys) (hok : ok n s) :
    Built (Extends P cfg keys ok a.node.forkHeight) (chain ++ [a.live]) := by
  have hsame : SameFork n.forkHeight a.node.forkHeight chain := a.node_forkHeight ▸ H.sameFork
  exact (hb.congr hsame).concat ⟨n, s, a, H, hk, hok, rfl, fun _ _ => rfl⟩

/-- In every state that a node reaches, its ledger holds a chain of blocks that were accepted one on
the other. -/
theorem Reach.built {n : Node π} (hd : KeysDistinct P keys) (hk : keys genesisPublicKey)
    (hw : cfg.NoWaiver) (h : Reach P cfg keys ok n) :
    ∃ chain, Chained P cfg keys n chain ∧ Built (Extends P cfg keys ok n.forkHeight) chain := by
  refine h.induct (fun n chain => Built (Extends P cfg keys ok n.forkHeight) chain) hd hk hw
    (fun _ _ _ => .genesis _) ?_ ?_
  · intro n n' chain s a H hb hkeys hok hfork _
    rw [hfork]
    exact hb.accept a H hkeys hok
  · intro n n' chain chain' _ hb hcut
    exact (hb.of_isPrefix hcut.isPrefix).congr hcut.sameFork

theorem digestBlock_steps {n : Node π} (hk : ∀ s ∈ ss, s.Keys keys)
    (hok : ∀ n, ∀ s ∈ ss, Accepts P cfg n s → ok n s) :
    ReflTransGen (NodeStep P cfg keys ok) n (digestBlock P cfg ss n).2 := by
  induction ss generalizing n with
  | nil => exact .refl
  | cons s ss ih =>
    have hstep : NodeStep P cfg keys ok n (digestBlock P cfg [s] n).2 :=
      .digest s (hk s (by simp)) (hok n s (by simp))
    have ih := fun n => ih (n := n) (fun s h => hk s (by simp [h])) fun n s h => hok n s (by simp [h])
    rcases h : processBlock P cfg s n with ⟨e | u, n₁⟩
    · have : digestBlock P cfg (s :: ss) n = digestBlock P cfg [s] n := by
        simp only [digestBlock, processBlockData, Run.bind_apply, h]
      rw [this]
      exact .single hstep
    · have h1 : (digestBlock P cfg [s] n).2 = n₁ := by
        simp only [digestBlock, processBlockData, Run.bind_apply, h]
        rfl
      have h2 : digestBlock P cfg (s :: ss) n = digestBlock P cfg ss n₁ := by
        simp only [digestBlock, processBlockData, Run.bind_apply, h]
      rw [h2, ← h1]
      exact .head hstep (ih _)

/-! ## A small network -/

/-- A regnet without plugins, on which blocks from `horizon` down are trusted if `checkpoints` anchor
it. -/
def regnet (mode : Mode) (checkpoints : OrdTable Nat Text := ∅) (horizon : Nat := 0) : Config Unit where
  network := .regnet
  mode := mode
  assumeValidHeight := horizon
  checkpoints := some checkpoints
  onBlock _ _ u := u
  onRollback _ u := u

def genesisStore (mode : Mode) : Store where
  blocks := (∅ : OrdTable Nat Body).put 1 (.legacy genesisBlockHash [(genesisRow mode).withId 0])
  hashes := (∅ : OrdTable Bytes Nat).put
    (beBytes 28 0x7a0f384876aca3871adbde8622a87f8b971ede0ed8ee10425e3958a1) 1
  pk := (∅ : OrdTable Bytes Nat).put
    (beBytes 32 0x1044a6997c9c2fc7a3cef55ddc4d66355675bd1f80963000e47f98f9dfd8655e) 0
  pkr := (∅ : OrdTable Nat Text).put 0 genesisPublicKey
  diff := (∅ : OrdTable Nat Text).put 1 ['1', '6']
  sig := (∅ : OrdTable Bytes Unit).put (beBytes 67
    0x444b695756722b475148727345556c75337145516e734235727a6e553449733752464c6e506d484d3167726f62695546487570306b5357690080000000000000010000)
    ()
  addr := ((∅ : OrdTable Bytes Unit).put
    (beBytes 19 0x000767656e6573697380000000000000010000) ()).put (beBytes 68
      0x0138346564616461633930393364393332366565346231376638363962313466316132353334663936663963356437623438646339616361656480000000000000010000)
    ()
  bal := (∅ : OrdTable Bytes Parts).put (beBytes 56
    0x3465646164616339303933643933323665653462313766383639623134663161323533346639366639633564376234386463396163616564)
    (0, 100000000, 0, 0)
  txcount := some 1
  alloc := some ∅

set_option maxRecDepth 4000 in
theorem genesisPublicKey_chars : genesisPublicKey =
    ['-', '-', '-', '-', '-', 'B', 'E', 'G', 'I', 'N', ' ', 'P', 'U', 'B', 'L', 'I', 'C', ' ', 'K',
     'E', 'Y', '-', '-', '-', '-', '-', '\n', 'M', 'I', 'G', 'f', 'M', 'A', '0', 'G', 'C', 'S', 'q',
     'G', 'S', 'I', 'b', '3', 'D', 'Q', 'E', 'B', 'A', 'Q', 'U', 'A', 'A', '4', 'G', 'N', 'A', 'D',
     'C', 'B', 'i', 'Q', 'K', 'B', 'g', 'Q', 'D', 'K', 'v', 'L', 'T', 'b', 'D', 'x', '8', '5', 'a',
     '1', 'u', 'g', 'b', '/', '6', 'x', 'M', 'M', 'h', 'V', 'O', 'q', '6', 'U', '\n', '2', 'G', 'e',
     'Y', 'T', '8', '+', 'I', 'q', '2', 'z', '9', 'F', 'w', 'I', 'M', 'R', '4', '0', 'l', '2', 't',
     't', 'G', 'q', 'N', 'K', '7', 'v', 'a', 'r', 'N', 'c', 'c', 'F', 'L', 'I', 'u', '8', 'K', 'n',
     '4', 'o', 'g', 'D', 'Q', 's', '3', 'W', 'S', 'W', 'Q', 'C', 'x', 'N', 'k', 'h', 'Z', 'h', '/',
     'F', 'q', 'z', 'F', '\n', 'Y', 'Y', 'a', '3', '/', 'I', 't', 'P', 'P', 'f', 'z', 'r', 'X', 'q',
     'g', 'a', 'j', 'w', 'D', '8', 'q', '4', 'Z', 't', '4', 'Y', 'm', 'j', 't', '8', '+', '2', 'B',
     'k', 'I', 'm', 'P', 'j', 'j', 'F', 'N', 'k', 'u', 'T', 'Q', 'I', 'z', '2', 'I', 'u', '3', 'y',
     'F', 'q', 'O', 'I', 'x', 'L', 'd', 'j', 'M', 'w', '7', 'n', '\n', 'U', 'V', 'u', '9', 't', 'F',
     'P', 'i', 'U', 'k', 'D', '0', 'V', 'n', 'D', 'P', 'L', 'Q', 'I', 'D', 'A', 'Q', 'A', 'B', '\n',
     '-', '-', '-', '-', '-', 'E', 'N', 'D', ' ', 'P', 'U', 'B', 'L', 'I', 'C', ' ', 'K', 'E', 'Y',
     '-', '-', '-', '-', '-'] :=
  String.toList_ofList

set_option maxRecDepth 4000 in
theorem genesisSignature_chars : genesisSignature =
    ['D', 'K', 'i', 'W', 'V', 'r', '+', 'G', 'Q', 'H', 'r', 's', 'E', 'U', 'l', 'u', '3', 'q', 'E',
     'Q', 'n', 's', 'B', '5', 'r', 'z', 'n', 'U', '4', 'I', 's', '7', 'R', 'F', 'L', 'n', 'P', 'm',
     'H', 'M', '1', 'g', 'r', 'o', 'b', 'i', 'U', 'F', 'H', 'u', 'p', '0', 'k', 'S', 'W', 'i', 'N',
     '8', '3', 'g', 'B', 'k', 'N', 'S', '9', 'L', 'g', 'E', '5', '7', 'R', 'X', 'U', 'E', 'J', 'v',
     'x', 'M', 'K', 'c', '+', '9', 'h', 'I', 'A', 'z', 'Y', 'E', '8', 'E', 'w', 'G', 't', 'O', '3',
     'R', 's', 'X', 'x', 'k', 'q', 'P', 'T', 'T', '1', 'v', '1', '9', 'C', 'g', 'u', 'N', '0', 'i',
     'q', 'E', '4', 'n', 'I', 'M', '8', 'B', 'u', 'r', '5', '3', '/', 'D', 'j', 's', '5', 'a', '1',
     'b', 'H', '/', 'R', '8', 'E', 'M', 'e', 'r', 's', 'e', 'm', 'Z', 'Y', '1', 'b', 'D', 'J', '4',
     'j', 'T', 'e', 'e', 'b', 'a', '6', 'y', 'q', 'F', 'x', 'm', 'e', 'v', 'G', 'k', '/', 'g', 'w',
     '='] :=
  String.toList_ofList

theorem seedGenesis_regnet (mode : Mode) (checkpoints : OrdTable Nat Text) (horizon : Nat) :
    seedGenesis .toy (regnet mode checkpoints horizon) = .ok (genesisStore mode) := by
  change seedGenesis .toy (regnet mode) = .ok (genesisStore mode)
  unfold seedGenesis genesisStore genesisRow
  -- the literals as lists of characters, which the kernel need not decode
  rw [genesisPublicKey_chars, genesisSignature_chars]
  cases mode <;> decide +kernel

def freshNode (mode : Mode) (forkHeight : Option Nat) : Node Unit where
  store := genesisStore mode
  plugins := ()
  mempool := ∅
  lastBlock := genesisHeight
  lastBlockHash := genesisBlockHash
  lastBlockTimestamp := .ofRat 0
  forkHeight := forkHeight
  forkCaughtUp := false
  baseFee := staticBaseFee

theorem freshNode_fresh (mode : Mode) (checkpoints : OrdTable Nat Text) (horizon : Nat)
    (h : postFork forkHeight genesisHeight = false) :
    Fresh .toy (regnet mode checkpoints horizon) (freshNode mode forkHeight) where
  store := seedGenesis_regnet mode checkpoints horizon
  lastBlock := rfl
  lastBlockHash := rfl
  forkHeight := h

theorem KeysDistinct.pair (h : P.blake2b (utf8 k) ≠ P.blake2b (utf8 k')) :
    KeysDistinct P fun p => p = k ∨ p = k' := by
  rintro p q (rfl | rfl) (rfl | rfl) heq
  · rfl
  · exact absurd heq h
  · exact absurd heq.symm h
  · rfl

def smallKeys (p : Text) : Prop := p = [] ∨ p = genesisPublicKey

theorem smallKeys_distinct : KeysDistinct .toy smallKeys :=
  .pair (by rw [genesisPublicKey_chars]; decide +kernel)

theorem regnet_noWaiver : (regnet mode checkpoints horizon).NoWaiver := fun _ _ _ => rfl

def alice : Text := List.replicate 56 'a'
def bob : Text := List.replicate 56 'b'

def smallTx (timestamp : Text) (address recipient : Text) (amount signature : Text) : RawTx where
  timestamp := .str timestamp
  address := address
  recipient := recipient
  amount := .str amount
  signature := signature
  publicKey := []
  operation := ['0']
  openfield := ['0']

def smallBlock (block : List RawTx) : Submission := ⟨block, fun _ => .ofRat 3000000000⟩

/-- The coinbase of a block that `alice` mines. -/
def aliceMines (timestamp signature : Text) : RawTx := smallTx timestamp alice alice ['0'] signature

theorem smallBlock_keys (h : ∀ tx ∈ block, keys tx.publicKey) (hle : ∀ tx ∈ block,
    tx.publicKey.length ≤ maxTxPubkeyLen) : (smallBlock block).Keys keys := by
  intro tx htx
  rw [List.take_of_length_le (hle tx htx)]
  exact h tx htx

def nodeAfter (mode : Mode) (forkHeight : Option Nat) (ss : List Submission) : Node Unit :=
  (digestBlock .toy (regnet mode) ss (freshNode mode forkHeight)).2

theorem nodeAfter_steps (mode : Mode) (forkHeight : Option Nat) (hk : ∀ s ∈ ss, s.Keys keys) :
    ReflTransGen (NodeStep .toy (regnet mode) keys fun _ _ => True) (freshNode mode forkHeight)
      (nodeAfter mode forkHeight ss) :=
  digestBlock_steps hk fun _ _ _ _ => trivial

theorem nodeAfter_reach (mode : Mode) (h : postFork forkHeight genesisHeight = false)
    (hk : ∀ s ∈ ss, s.Keys keys) :
    Reach .toy (regnet mode) keys (fun _ _ => True) (nodeAfter mode forkHeight ss) :=
  ⟨_, freshNode_fresh mode _ _ h, nodeAfter_steps mode forkHeight hk⟩

def firstRow (n : Node Unit) (mode : Mode) (k : Nat) : Option Row :=
  match n.store.rawBlock .toy mode k with
  | .ok (some (r :: _ :: _)) => some r
  | _ => none

theorem firstRow_some (h : firstRow n mode k = some r) :
    ∃ rows, n.store.rawBlock .toy mode k = .ok (some rows) ∧ r ∈ rows.dropLast := by
  rw [firstRow] at h
  split at h
  · rename_i r' r'' rows hrows
    cases h
    exact ⟨_, hrows, by simp⟩
  · cases h

end Bismuth
