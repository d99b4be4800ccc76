import Bismuth.Digest.Checkpoint

/-!
# Ledgers from peers

A fresh node takes over the whole ledger of the peer that announces the highest tip. The image is compared
with the announced tip only: neither the checkpoints nor the tables that are derived from the blocks are
looked at. What the node gets is anchored if that peer serves the ledger of a node that follows the rules.
-/

namespace Bismuth.Snapshot
open Py

/-- What `/api/snapshot/info` answers. A field that is missing or null is none. -/
structure Info where
  available : Bool
  dbDirect : Bool
  height : Option Val
  tipHash : Option Val

/-- The behaviour of a peer towards a node that asks for a snapshot. -/
structure Peer where
  /-- None if the request fails. -/
  info : Option Info
  /-- The store that the streamed image opens as; none if the download fails or it does not open. -/
  image : Option Store

/-! ## Serving -/

def dbSnapshotInfo (st : Store) : Option Info := do
  let tip ← st.tip
  let tipHash ← (st.blockHash tip).toOption.join
  return ⟨true, true, some (.int tip), some (.str tipHash)⟩

/-! ## Fetching -/

/-- The peer has a snapshot of the kind that is asked for. -/
def Info.offers (i : Info) : Bool :=
  i.available && i.dbDirect && i.tipHash.any Val.truthy && i.height.isSome

/-- `int(info["height"])`. -/
def Info.tip (i : Info) : Except Err Int :=
  match i.height with
  | some v => v.toInt
  | none => .error .typeError

def better (best : Option (Peer × Info)) (p : Peer) : Except Err (Option (Peer × Info)) :=
  match p.info with
  | none => .ok best
  | some i =>
    if i.offers then
      match best with
      | none => .ok (some (p, i))
      | some (_, j) => do
        let mine ← i.tip
        let highest ← j.tip
        return if highest < mine then some (p, i) else best
    else .ok best

/-- The peer whose snapshot is fetched, with what it announces. -/
def choose (peers : List Peer) : Except Err (Option (Peer × Info)) := peers.foldlM better none

def verifyDbSnapshot (st : Store) (i : Info) : Bool :=
  match st.tip with
  | none => false
  | some tip =>
    match i.tip, st.blockHash tip with
    | .ok height, .ok x => height = tip && x.map Val.str = i.tipHash
    | _, _ => false

/-- `fetch_db_from_peers`. A height that is no number raises here when it is compared. -/
def fetchDbFromPeers (peers : List Peer) : Except Err (Option (Store × Info)) := do
  match ← choose peers with
  | none => return none
  | some (p, i) =>
    match p.image with
    | none => return none
    | some st => return if verifyDbSnapshot st i then some (st, i) else none

theorem fetchDbFromPeers_eq_some (h : fetchDbFromPeers peers = .ok (some (st, i))) :
    ∃ p, choose peers = .ok (some (p, i)) ∧ p.image = some st ∧ verifyDbSnapshot st i = true := by
  rw [fetchDbFromPeers, Except.bind_eq_ok] at h
  obtain ⟨best, hbest, h⟩ := h
  match best with
  | none => cases h
  | some (p, i') =>
    dsimp only at h
    split at h
    · cases h
    · rename_i st' himage
      split at h
      · rename_i hverify
        cases h
        exact ⟨p, hbest, himage, hverify⟩
      · cases h

theorem fetchDbFromPeers_singleton (h : i.offers = true) (hv : verifyDbSnapshot st i = true) :
    fetchDbFromPeers [⟨some i, some st⟩] = .ok (some (st, i)) := by
  have hchoose : choose [⟨some i, some st⟩] = .ok (some (⟨some i, some st⟩, i)) := by
    simp only [choose, List.foldlM_cons, better, if_pos h, Except.ok_bind]
    rfl
  rw [fetchDbFromPeers, hchoose, Except.ok_bind]
  simp only [hv, if_true]
  rfl

/-- What a node announces of its ledger is what its ledger is compared with. -/
theorem verifyDbSnapshot_served (h : dbSnapshotInfo st = some i) : verifyDbSnapshot st i = true := by
  obtain ⟨tip, htip, h⟩ := Option.bind_eq_some_iff.1 h
  obtain ⟨tipHash, hhash, h⟩ := Option.bind_eq_some_iff.1 h
  replace hhash := Except.toOption_eq_some.1 (Option.join_eq_some_iff.1 hhash)
  have hi : i.tip = .ok (tip : Int) := by
    rw [← Option.some.inj h]
    rfl
  have htipHash : i.tipHash = some (.str tipHash) := by rw [← Option.some.inj h]
  unfold verifyDbSnapshot
  rw [htip]
  dsimp only
  rw [hi, hhash, htipHash]
  simp only [Option.map_some, decide_true, Bool.and_self]

/-! ## What a ledger should be -/

def storedParts (P : Prims) (mode : Mode) (st : Store) (a : Text) : Except Err Parts := do
  let blocks ← st.blocks.entries.mapM fun e => expand P mode st.pubkey e.1 e.2
  return (blocks.flatten.map (Row.partsFor mode a)).sum

/-- The ledger keeps to the checkpoints, and its balances are those of its blocks and of the
allocations. -/
structure Anchored (P : Prims) (cfg : Config π) (st : Store) : Prop where
  checkpoints : ∀ h want, cfg.checkpointTable.get? h = some want → (∃ tip, st.tip = some tip ∧ h ≤ tip) →
    st.blockHash h = .ok (some want)
  balances : ∀ a, a ≠ [] → ∃ p, storedParts P cfg.mode st a = .ok p ∧
    st.balanceParts a = .ok (p + (0, (cfg.allocations.get? a).getD 0, 0, 0))

variable {π : Type} {P : Prims} {cfg : Config π} {keys : Text → Prop}

/-- The peer serves the ledger of a node of the same network. -/
def Peer.Honest (P : Prims) (cfg : Config π) (keys : Text → Prop) (p : Peer) : Prop :=
  ∃ n, Reach P cfg keys (fun _ _ => True) n ∧ p.image = some n.store

section
variable {n : Node π} {chain : List LiveBlock}

theorem storedParts_of_indexed {read : List LiveBlock} (H : Indexed P mode keys forkHeight st read)
    (a : Text) :
    storedParts P mode st a = .ok ((read.flatMap (·.rows)).map (Row.partsFor mode a)).sum := by
  have hrows : st.blocks.entries.mapM (fun e => expand P mode st.pubkey e.1 e.2) =
      .ok (read.map (·.rows)) := by
    refine Except.mapM_eq_ok.2 (List.forall₂_map_right_iff.2 (H.blocks.imp fun e b hl => ?_))
    rw [hl.height]
    exact hl.expands _ st.reads_pubkey
  rw [storedParts, hrows, Except.ok_bind, List.flatMap]
  rfl

theorem balances_of_chained (H : Chained P cfg keys n chain) (ha : a ≠ []) :
    ∃ p, storedParts P cfg.mode n.store a = .ok p ∧
      n.store.balanceParts a = .ok (p + (0, (cfg.allocations.get? a).getD 0, 0, 0)) := by
  obtain ⟨read, -, hi⟩ := H.good
  refine ⟨_, storedParts_of_indexed hi a, ?_⟩
  rw [Store.balanceParts, if_neg (abytes_ne_nil ha), ← H.allocations, ← chainTotal_rows hi.ok,
    ← allocAcc_total hi.alloc, ← hi.bal]
  rfl

theorem blockHash_of_built (H : Chained P cfg keys n chain)
    (hb : Built (Extends P cfg keys ok n.forkHeight) chain)
    (hwant : cfg.checkpointTable.get? h = some want) (h2 : 2 ≤ h) (hle : h ≤ n.lastBlock) :
    n.store.blockHash h = .ok (some want) := by
  obtain ⟨b, hmem, rfl⟩ := H.exists_height (by omega) hle
  have hlive := H.good.exact.live b hmem
  obtain ⟨_, _, a, -, rfl, -⟩ := H.exists_parent hb hmem h2
  rw [← a.hash_pinned hwant, ← a.hex_digest]
  exact hlive

end

/-- The ledger of a node that follows the rules is anchored. The digester never sees the genesis block, so
no checkpoint pins it. -/
theorem anchored_of_reach (hd : KeysDistinct P keys) (hk : keys genesisPublicKey) (hw : cfg.NoWaiver)
    (hc : ∀ h want, cfg.checkpointTable.get? h = some want → 2 ≤ h)
    (hn : Reach P cfg keys ok n) : Anchored P cfg n.store := by
  obtain ⟨chain, H, hb⟩ := hn.built hd hk hw
  refine ⟨fun h want hwant => ?_, fun a ha => balances_of_chained H ha⟩
  rintro ⟨tip, htip, hle⟩
  obtain rfl : n.lastBlock = tip := Option.some.inj (H.tip.symm.trans htip)
  exact blockHash_of_built H hb hwant (hc h want hwant) hle

/-- Whatever the peers answer, a ledger that is fetched is anchored if the peer whose snapshot is chosen
serves the ledger of a node of the same network. -/
theorem fetchDbFromPeers_anchored (hd : KeysDistinct P keys) (hk : keys genesisPublicKey)
    (hw : cfg.NoWaiver) (hc : ∀ h want, cfg.checkpointTable.get? h = some want → 2 ≤ h)
    (peers : List Peer) (h : fetchDbFromPeers peers = .ok (some (st, i)))
    (hp : ∀ p, choose peers = .ok (some (p, i)) → p.Honest P cfg keys) : Anchored P cfg st := by
  obtain ⟨p, hchoose, himage, -⟩ := fetchDbFromPeers_eq_some h
  obtain ⟨n, hn, himage'⟩ := hp p hchoose
  obtain rfl : st = n.store := Option.some.inj (himage.symm.trans himage')
  exact anchored_of_reach hd hk hw hc hn

def pinnedNode : Node Unit :=
  (digestBlock .toy (regnet .decimal smallCheckpoint) [pinnedBlock] (freshNode .decimal none)).2

theorem fetchDbFromPeers_anchored_pinned : ∃ st i,
    fetchDbFromPeers [⟨dbSnapshotInfo pinnedNode.store, some pinnedNode.store⟩] = .ok (some (st, i)) ∧
      st.tip = some 2 ∧ Anchored .toy (regnet .decimal smallCheckpoint) st := by
  have hany : (dbSnapshotInfo pinnedNode.store).any Info.offers = true := by decide +kernel
  obtain ⟨i, hi, hoffers⟩ := (Option.any_eq_true _ _).1 hany
  have hfetch : fetchDbFromPeers [⟨dbSnapshotInfo pinnedNode.store, some pinnedNode.store⟩] =
      .ok (some (pinnedNode.store, i)) := by
    rw [hi]
    exact fetchDbFromPeers_singleton hoffers (verifyDbSnapshot_served hi)
  have hkeys : pinnedBlock.Keys smallKeys := by
    intro tx htx
    rw [List.mem_singleton.1 htx]
    exact .inl rfl
  have hreach : Reach .toy (regnet .decimal smallCheckpoint) smallKeys (fun _ _ => True) pinnedNode :=
    ⟨_, freshNode_fresh .decimal smallCheckpoint 0 rfl, .single (.digest pinnedBlock hkeys fun _ => trivial)⟩
  have hpoints : ∀ h want, (regnet .decimal smallCheckpoint).checkpointTable.get? h = some want →
      2 ≤ h := by
    intro h want hwant
    rw [show (regnet .decimal smallCheckpoint).checkpointTable = smallCheckpoint from rfl,
      smallCheckpoint, OrdTable.get?_put] at hwant
    split at hwant
    · omega
    · cases hwant
  refine ⟨_, i, hfetch, by decide +kernel, ?_⟩
  refine fetchDbFromPeers_anchored smallKeys_distinct (.inr rfl) regnet_noWaiver hpoints _ hfetch ?_
  intro p hp
  obtain ⟨p', hp', himage, -⟩ := fetchDbFromPeers_eq_some hfetch
  obtain rfl : p = p' := congrArg Prod.fst (Option.some.inj (Except.ok.inj (hp.symm.trans hp')))
  exact ⟨pinnedNode, hreach, himage⟩

/-! ## A forged ledger -/

def forgedHash : Text := List.replicate 56 '0'

/-- The ledger of a fresh node with a block on top that nobody mined, and with a balance for `alice` that no
block gives. -/
def forgedStore : Store :=
  { genesisStore .decimal with
    blocks := (genesisStore .decimal).blocks.put 2 (.legacy forgedHash [(genesisRow .decimal).withId 0])
    bal := (genesisStore .decimal).bal.put (abytes alice) (10 ^ 15, 0, 0, 0) }

/-- A forged ledger is fetched from a peer that announces its tip: at the checkpoint it has another
block, and it holds a balance out of nothing. -/
theorem fetchDbFromPeers_forged :
    (fetchDbFromPeers [⟨dbSnapshotInfo forgedStore, some forgedStore⟩]).toOption.map (·.map Prod.fst) =
        some (some forgedStore) ∧
      forgedStore.tip = some 2 ∧ (smallCheckpoint.get? 2).isSome ∧
      forgedStore.blockHash 2 = .ok (some forgedHash) ∧ smallCheckpoint.get? 2 ≠ some forgedHash ∧
      storedParts .toy .decimal forgedStore alice = .ok 0 ∧
      forgedStore.balanceParts alice = .ok (10 ^ 15, 0, 0, 0) ∧
      (regnet .decimal smallCheckpoint).allocations.get? alice = none ∧
      ¬ Anchored .toy (regnet .decimal smallCheckpoint) forgedStore := by
  have hany : (dbSnapshotInfo forgedStore).any Info.offers = true := by decide +kernel
  obtain ⟨i, hi, hoffers⟩ := (Option.any_eq_true _ _).1 hany
  have htip : forgedStore.tip = some 2 := by decide +kernel
  have hhash : forgedStore.blockHash 2 = .ok (some forgedHash) := by decide +kernel
  have hne : smallCheckpoint.get? 2 ≠ some forgedHash := by decide +kernel
  refine ⟨?_, htip, by decide +kernel, hhash, hne, by decide +kernel, by decide +kernel,
    by decide +kernel, fun h => ?_⟩
  · rw [hi, fetchDbFromPeers_singleton hoffers (verifyDbSnapshot_served hi)]
    rfl
  · cases hw : smallCheckpoint.get? 2 with
    | none => revert hw; decide +kernel
    | some want =>
      have := h.checkpoints 2 want hw ⟨2, htip, le_rfl⟩
      rw [show ((2 : Nat) : Int) = 2 from rfl, hhash] at this
      cases this
      exact hne hw

end Bismuth.Snapshot
