import Bismuth.Digest.Heights

/-!
# The activation height over whole runs

The activation height that a node has recorded, in memory or in the sidecar next to its ledger, against
what a scan of its ledger finds: over digested blocks, rollbacks and restarts.
-/

namespace Bismuth
open Py Relation

variable {π : Type} {P : Prims} {cfg : Config π}

/-! ## The sidecar -/

structure Host (π : Type) where
  node : Node π
  sidecar : Option Nat

/-- `save_locked_height`: the first writer wins. -/
def saveLockedHeight (sidecar height : Option Nat) : Option Nat :=
  match height with
  | none => sidecar
  | some _ => sidecar.or height

/-- The height that the digester hands to `save_locked_height`: one that it has just found. -/
def newlyLocked (cfg : Config π) (n : Node π) : Option Nat :=
  match n.forkHeight with
  | none => (detectFork cfg n).forkHeight
  | some _ => none

theorem saveLockedHeight_some (h : saveLockedHeight sidecar height = some f) :
    sidecar = some f ∨ height = some f := by
  cases height with
  | none => exact .inl h
  | some g => exact (Option.or_eq_some_iff.1 h).imp id And.right

theorem newlyLocked_some (h : newlyLocked cfg n = some f) : (detectFork cfg n).forkHeight = some f := by
  rw [newlyLocked] at h
  split at h
  · exact h
  · cases h

section
variable (P : Prims) (cfg : Config π)

/-- One step of a node with its sidecar. Writing the sidecar and reading it may both fail, and the file
may get lost; a node that starts reads its tip from the ledger. -/
inductive HostStep : Host π → Host π → Prop
  | digest (s : Submission) : sidecar' = sidecar ∨
      sidecar' = saveLockedHeight sidecar (newlyLocked cfg n) →
    HostStep ⟨n, sidecar⟩ ⟨(digestBlock P cfg [s] n).2, sidecar'⟩
  | rollTo : 1 ≤ k → k ≤ n.lastBlock → rollToLocked P cfg k n = (.ok (), n') →
    HostStep ⟨n, sidecar⟩ ⟨n', sidecar⟩
  | restart : n'.store = n.store → n.store.tip = some n'.lastBlock →
      n.store.lastBlockHash = .ok n'.lastBlockHash →
      (n'.forkHeight = sidecar ∨ n'.forkHeight = none) → n'.forkCaughtUp = false →
    HostStep ⟨n, sidecar⟩ ⟨n', sidecar⟩
  | lose : HostStep ⟨n, sidecar⟩ ⟨n, none⟩

/-- A node that has just seeded its ledger, with nothing recorded. -/
structure FreshHost (h : Host π) : Prop where
  fresh : Fresh P cfg h.node
  forkHeight : h.node.forkHeight = none
  sidecar : h.sidecar = none

/-- While an activation height is recorded, no block goes that locked it in: the blocks that are left
already close a window. -/
def KeepsLockIn (h h' : Host π) : Prop :=
  (h'.node.forkHeight ≠ none ∨ h'.sidecar ≠ none) → h'.node.lastBlock < h.node.lastBlock →
    dynamicForkHeight cfg (forkSignal cfg.mode h.node.store) h'.node.lastBlock ≠ .ok none

end

/-! ## Signals -/

def Store.signalAt (st : Store) (k : Nat) : Bool :=
  match st.blocks.get? k with
  | some (.legacy _ txs) => (txs.getLast?.map (·.openfield)).any hasForkSignal
  | _ => false

/-- The block at the height, if there is one, is stored as a list of fields. -/
def Store.LegacyAt (st : Store) (k : Nat) : Prop :=
  ∀ body, st.blocks.get? k = some body → ∃ hash txs, body = .legacy hash txs

theorem forkSignal_eq (mode : Mode) {st : Store} (hk : k < 2 ^ 64) (h : st.LegacyAt k) :
    forkSignal mode st k = .ok (st.signalAt k) := by
  rw [forkSignal, Store.lastOpenfield, heightKey_natCast hk, Except.ok_bind, Store.signalAt]
  cases hb : st.blocks.get? k with
  | none => rfl
  | some body =>
    obtain ⟨hash, txs, rfl⟩ := h body hb
    rfl

theorem Store.signalAt_congr {st st' : Store} (h : st'.blocks.get? k = st.blocks.get? k) :
    st'.signalAt k = st.signalAt k := by
  rw [Store.signalAt, Store.signalAt, h]

theorem Closes.congr {signal signal' : Nat → Bool} (h : ∀ i ≤ t, signal' i = signal i) :
    Closes signal' w t ↔ Closes signal w t := by
  refine and_congr_right fun _ => forall₂_congr fun i _ => ?_
  rw [h (t - i) (by omega)]

/-! ## The invariant -/

/-- The first window closes at `t`. -/
def FirstCloses (signal : Nat → Bool) (w t : Nat) : Prop :=
  Closes signal w t ∧ ∀ t' < t, ¬Closes signal w t'

structure Followed (cfg : Config π) (n : Node π) (sidecar : Option Nat) : Prop where
  ranged : n.store.Ranged n.lastBlock
  /-- A height is found before the first block that it concerns. -/
  legacy : ∀ k ≤ n.lastBlock, (∀ t < k, ¬Closes n.store.signalAt cfg.forkWindow t) →
    n.store.LegacyAt k
  recorded : ∀ f, n.forkHeight = some f ∨ sidecar = some f →
    ∃ t ≤ n.lastBlock, FirstCloses n.store.signalAt cfg.forkWindow t ∧
      f = nextForkBoundary (t + cfg.forkBury) cfg.forkBoundary
  caughtUp : n.forkHeight = none → n.forkCaughtUp = true →
    ∀ t < n.lastBlock, ¬Closes n.store.signalAt cfg.forkWindow t

theorem exists_firstCloses (h : Closes signal w t) : ∃ t' ≤ t, FirstCloses signal w t' := by
  classical
  have hex : ∃ t, Closes signal w t := ⟨t, h⟩
  exact ⟨Nat.find hex, Nat.find_min' hex h, Nat.find_spec hex, fun t' ht => Nat.find_min hex ht⟩

theorem FirstCloses.congr {signal signal' : Nat → Bool} (h : ∀ i ≤ t, signal' i = signal i) :
    FirstCloses signal' w t ↔ FirstCloses signal w t :=
  and_congr (Closes.congr h) (forall₂_congr fun t' ht =>
    not_congr (Closes.congr fun i hi => h i (by omega)))

namespace Followed
variable {n n' : Node π} {sidecar sidecar' : Option Nat}

section
variable (H : Followed cfg n sidecar)
include H

section
variable (hw : 1 ≤ cfg.forkWindow)
include hw

theorem scan (hm : m ≤ n.lastBlock) :
    ((∀ t ≤ m, ¬Closes n.store.signalAt cfg.forkWindow t) →
      dynamicForkHeight cfg (forkSignal cfg.mode n.store) m = .ok none) ∧
    ∀ t ≤ m, FirstCloses n.store.signalAt cfg.forkWindow t →
      dynamicForkHeight cfg (forkSignal cfg.mode n.store) m =
        .ok (some (nextForkBoundary (t + cfg.forkBury) cfg.forkBoundary)) := by
  have hlt := H.ranged.lt
  have hread : ∀ k, 1 ≤ k → k ≤ m → (∀ t < k, ¬Closes n.store.signalAt cfg.forkWindow t) →
      forkSignal cfg.mode n.store k = .ok (n.store.signalAt k) := fun k _ hk hnone =>
    forkSignal_eq cfg.mode (by omega) (H.legacy k (by omega) hnone)
  obtain ⟨h1, h2⟩ := dynamicForkHeight_eq hw hread
  exact ⟨h1, fun t ht hfirst => h2 t ht hfirst.1 hfirst.2⟩

theorem scan_cases (hm : m ≤ n.lastBlock) :
    ((∀ t ≤ m, ¬Closes n.store.signalAt cfg.forkWindow t) ∧
      dynamicForkHeight cfg (forkSignal cfg.mode n.store) m = .ok none) ∨
    ∃ t ≤ m, FirstCloses n.store.signalAt cfg.forkWindow t ∧
      dynamicForkHeight cfg (forkSignal cfg.mode n.store) m =
        .ok (some (nextForkBoundary (t + cfg.forkBury) cfg.forkBoundary)) := by
  by_cases hex : ∃ t ≤ m, Closes n.store.signalAt cfg.forkWindow t
  · obtain ⟨t, ht, hc⟩ := hex
    obtain ⟨t', ht', hfirst⟩ := exists_firstCloses hc
    exact .inr ⟨t', by omega, hfirst, (H.scan hw hm).2 t' (by omega) hfirst⟩
  · have hnone : ∀ t ≤ m, ¬Closes n.store.signalAt cfg.forkWindow t :=
      fun t ht hc => hex ⟨t, ht, hc⟩
    exact .inl ⟨hnone, (H.scan hw hm).1 hnone⟩

theorem detectFork_scan :
    dynamicForkHeight cfg (forkSignal cfg.mode n.store) n.lastBlock =
      .ok (detectFork cfg n).forkHeight ∧ (detectFork cfg n).forkCaughtUp = true := by
  rw [detectFork]
  cases hf : n.forkHeight with
  | some f =>
    obtain ⟨t, ht, hfirst, rfl⟩ := H.recorded f (.inl hf)
    exact ⟨(H.scan hw le_rfl).2 t ht hfirst, rfl⟩
  | none =>
    have hfind : findForkHeight cfg n =
        dynamicForkHeight cfg (forkSignal cfg.mode n.store) n.lastBlock := by
      rw [findForkHeight]
      split <;> rename_i hcaught
      · -- no window closes below the tip, so that the check there sees all there is to see
        have hbelow := H.caughtUp hf hcaught
        have hlt := H.ranged.lt
        have hread : ∀ k, 1 ≤ k → k ≤ n.lastBlock →
            forkSignal cfg.mode n.store k = .ok (n.store.signalAt k) := fun k _ hk =>
          forkSignal_eq cfg.mode (by omega) (H.legacy k hk fun t ht => hbelow t (by omega))
        obtain ⟨hcloses, hnot⟩ := @lockinAtTip_eq _ cfg _ _ _ hread
        by_cases hc : Closes n.store.signalAt cfg.forkWindow n.lastBlock
        · rw [hcloses hc, (H.scan hw le_rfl).2 _ le_rfl ⟨hc, hbelow⟩]
        · rw [hnot hc, (H.scan hw le_rfl).1 fun t ht hc' => ?_]
          rcases Nat.lt_or_eq_of_le ht with hlt | rfl
          · exact hbelow t hlt hc'
          · exact hc hc'
      · rfl
    rw [hfind]
    rcases H.scan_cases hw le_rfl with ⟨-, hscan⟩ | ⟨t, -, -, hscan⟩
    · rw [hscan]
      exact ⟨rfl, rfl⟩
    · rw [hscan]
      exact ⟨rfl, rfl⟩

/-- What the detection leaves unset is on no window of the chain. -/
theorem not_closes_of_detect
    (hnone : (detectFork cfg n).forkHeight = none) :
    ∀ t ≤ n.lastBlock, ¬Closes n.store.signalAt cfg.forkWindow t := by
  have hdet := (H.detectFork_scan hw).1
  rw [hnone] at hdet
  rcases H.scan_cases hw le_rfl with ⟨hall, -⟩ | ⟨t, -, -, hscan⟩
  · exact hall
  · rw [hscan] at hdet
    cases hdet

theorem detect
    (hs : sidecar' = sidecar ∨ sidecar' = saveLockedHeight sidecar (newlyLocked cfg n)) :
    Followed cfg (detectFork cfg n) sidecar' := by
  have hscan := (H.detectFork_scan hw).1
  have hnone := H.not_closes_of_detect hw
  have hfound : ∀ f, (detectFork cfg n).forkHeight = some f →
      ∃ t ≤ n.lastBlock, FirstCloses n.store.signalAt cfg.forkWindow t ∧
        f = nextForkBoundary (t + cfg.forkBury) cfg.forkBoundary := by
    intro f hf
    simp only [hf] at hscan
    rcases H.scan_cases hw le_rfl with ⟨-, h⟩ | ⟨t, ht, hfirst, h⟩
    · rw [hscan] at h
      cases h
    · rw [hscan] at h
      exact ⟨t, ht, hfirst, Option.some.inj (Except.ok.inj h)⟩
  have hnew : ∀ f, sidecar' = some f → sidecar = some f ∨ (detectFork cfg n).forkHeight = some f := by
    intro f hf
    rcases hs with rfl | rfl
    · exact .inl hf
    · exact (saveLockedHeight_some hf).imp_right newlyLocked_some
  have hframe := detectFork_eq cfg n
  refine ⟨?_, ?_, ?_, ?_⟩
  · rw [hframe]
    exact H.ranged
  · rw [hframe]
    exact H.legacy
  · intro f hf
    have key : ∃ t ≤ n.lastBlock, FirstCloses n.store.signalAt cfg.forkWindow t ∧
        f = nextForkBoundary (t + cfg.forkBury) cfg.forkBoundary := by
      rcases hf with hf | hf
      · exact hfound f hf
      · rcases hnew f hf with h | h
        · exact H.recorded f (.inr h)
        · exact hfound f h
    rw [hframe]
    exact key
  · intro hn _ t ht
    rw [hframe] at ht ⊢
    exact hnone hn t (le_of_lt ht)

end

theorem commit {hash : Text}
    (hnone : n.forkHeight = none → ∀ t ≤ n.lastBlock, ¬Closes n.store.signalAt cfg.forkWindow t)
    (hc : commitBlock P cfg.mode n.store k hash rows d n.forkHeight = .ok n'.store)
    (hlast : n'.lastBlock = k) (hfork : n'.forkHeight = n.forkHeight) :
    Followed cfg n' sidecar := by
  obtain ⟨rfl, hranged⟩ := H.ranged.commit hc
  obtain ⟨body, -, -, hblocks, hbody, -⟩ := commitBlock_blocks hc
  have hget : ∀ j ≤ n.lastBlock, n'.store.blocks.get? j = n.store.blocks.get? j := fun j hj => by
    rw [hblocks, OrdTable.get?_put, if_neg (by omega)]
  have hsignal : ∀ j ≤ n.lastBlock, n'.store.signalAt j = n.store.signalAt j :=
    fun j hj => Store.signalAt_congr (hget j hj)
  have hcloses : ∀ t ≤ n.lastBlock, Closes n'.store.signalAt cfg.forkWindow t ↔
      Closes n.store.signalAt cfg.forkWindow t :=
    fun t ht => Closes.congr fun i hi => hsignal i (by omega)
  refine ⟨?_, ?_, ?_, ?_⟩
  · rw [hlast]
    exact hranged
  · intro j hj hbelow body' hb
    rw [hlast] at hj
    rcases Nat.lt_or_eq_of_le hj with hlt | rfl
    · refine H.legacy j (by omega) (fun t ht hc => hbelow t ht ((hcloses t (by omega)).2 hc)) body' ?_
      rwa [← hget j (by omega)]
    · -- a block after the activation height has a window below it
      have hn : n.forkHeight = none := by
        cases hf : n.forkHeight with
        | none => rfl
        | some f =>
          obtain ⟨t, ht, hfirst, -⟩ := H.recorded f (.inl hf)
          exact absurd ((hcloses t ht).2 hfirst.1) (hbelow t (by omega))
      obtain ⟨txs, rfl⟩ := hbody (by rw [hn]; rfl)
      rw [hblocks, OrdTable.get?_put, if_pos rfl] at hb
      exact ⟨hash, txs, (Option.some.inj hb).symm⟩
  · intro f hf
    rw [hfork] at hf
    obtain ⟨t, ht, hfirst, rfl⟩ := H.recorded f hf
    exact ⟨t, by omega, (FirstCloses.congr fun i hi => hsignal i (by omega)).2 hfirst, rfl⟩
  · intro hn _ t ht hc
    rw [hfork] at hn
    rw [hlast] at ht
    exact hnone hn t (by omega) ((hcloses t (by omega)).1 hc)

/-- Going back keeps it as long as the blocks that are left lock in what is recorded. -/
theorem cut (hw : 1 ≤ cfg.forkWindow) (h1 : 1 ≤ k)
    (hk : k ≤ n.lastBlock) (hr : rollback P cfg.mode n.store k forkHeight = .ok (n'.store, removed))
    (hlast : n'.lastBlock = k) (hfork : n'.forkHeight = n.forkHeight)
    (hcaught : n'.forkCaughtUp = n.forkCaughtUp)
    (hkeep : n.forkHeight ≠ none ∨ sidecar ≠ none → k < n.lastBlock →
      dynamicForkHeight cfg (forkSignal cfg.mode n.store) k ≠ .ok none) :
    Followed cfg n' sidecar := by
  have hget : ∀ j ≤ k, n'.store.blocks.get? j = n.store.blocks.get? j := fun j hj => by
    rw [rollback_blocks hr, OrdTable.get?_filter]
    cases n.store.blocks.get? j <;> simp [hj, Option.filter]
  have hsignal : ∀ j ≤ k, n'.store.signalAt j = n.store.signalAt j :=
    fun j hj => Store.signalAt_congr (hget j hj)
  have hcloses : ∀ t ≤ k, Closes n'.store.signalAt cfg.forkWindow t ↔
      Closes n.store.signalAt cfg.forkWindow t :=
    fun t ht => Closes.congr fun i hi => hsignal i (by omega)
  refine ⟨?_, ?_, ?_, ?_⟩
  · rw [hlast]
    exact H.ranged.rollback h1 hk hr
  · intro j hj hbelow body hb
    rw [hlast] at hj
    refine H.legacy j (by omega) (fun t ht hc => hbelow t ht ((hcloses t (by omega)).2 hc))
      body ?_
    rwa [← hget j hj]
  · intro f hf
    rw [hfork] at hf
    obtain ⟨t, ht, hfirst, rfl⟩ := H.recorded f hf
    have htk : t ≤ k := by
      rcases Nat.lt_or_eq_of_le hk with hlt | rfl
      · have hscan := hkeep (by rcases hf with hf | hf <;> simp [hf]) hlt
        rcases H.scan_cases hw hk with ⟨-, hnone⟩ | ⟨t', ht', hfirst', -⟩
        · exact absurd hnone hscan
        · by_contra hlt
          exact hfirst.2 t' (by omega) hfirst'.1
      · exact ht
    exact ⟨t, by omega, (FirstCloses.congr fun i hi => hsignal i (by omega)).2 hfirst, rfl⟩
  · intro hn hc t ht hcl
    rw [hfork] at hn
    rw [hcaught] at hc
    rw [hlast] at ht
    exact H.caughtUp hn hc t (by omega) ((hcloses t (by omega)).1 hcl)

theorem congr (hst : n'.store = n.store)
    (hlast : n'.lastBlock = n.lastBlock) (hfork : n'.forkHeight = n.forkHeight)
    (hcaught : n'.forkCaughtUp = n.forkCaughtUp) : Followed cfg n' sidecar := by
  refine ⟨?_, ?_, ?_, ?_⟩
  · simpa only [hst, hlast] using H.ranged
  · simpa only [hst, hlast] using H.legacy
  · simpa only [hst, hlast, hfork] using H.recorded
  · simpa only [hst, hlast, hfork, hcaught] using H.caughtUp

end

end Followed

/-! ## Steps -/

theorem Followed.digest (H : Followed cfg n sidecar) (Hin : n.InStep) (hw : 1 ≤ cfg.forkWindow)
    (hs : sidecar' = sidecar ∨ sidecar' = saveLockedHeight sidecar (newlyLocked cfg n))
    (hkeep : KeepsLockIn cfg ⟨n, sidecar⟩ ⟨(digestBlock P cfg [s] n).2, sidecar'⟩) :
    Followed cfg (digestBlock P cfg [s] n).2 sidecar' := by
  have Hd := H.detect hw hs
  have hlast : (Bismuth.detectFork cfg n).lastBlock = n.lastBlock := by rw [detectFork_eq cfg n]
  have hstore := detectFork_store cfg n
  obtain ⟨hstep, hfork, hcaught⟩ : LedgerStep P cfg n (digestBlock P cfg [s] n).2 ∧ _ := (Hin.digest s).2
  cases hstep with
  | accept s' a hst hlb _ =>
    have hcommit : commitBlock P cfg.mode (Bismuth.detectFork cfg n).store a.node.height a.hash a.rows
        (some a.saved) (Bismuth.detectFork cfg n).forkHeight = .ok (digestBlock P cfg [s] n).2.store := by
      rw [hstore, ← a.node_store, ← a.node_forkHeight, hst]
      exact a.commit
    refine Hd.commit (fun hn t ht => ?_) hcommit (hlb.trans a.node_height.symm) hfork
    rw [hlast] at ht
    rw [hstore]
    exact H.not_closes_of_detect hw hn t ht
  | cut k h1 hk hr hlb =>
    obtain ⟨fh, removed, hr⟩ := hr
    rw [← hstore] at hr
    refine Hd.cut hw h1 (by omega) hr hlb hfork hcaught fun hrec hlt => ?_
    rw [hstore, ← hlb]
    exact hkeep (hrec.imp_left fun hne => by rwa [hfork]) (by simp only; omega)
  | same hst hlb => exact Hd.congr (hst.trans hstore.symm) (hlb.trans hlast.symm) hfork hcaught

theorem HostStep.inStep {h h' : Host π} (hstep : HostStep P cfg h h') (H : h.node.InStep) :
    h'.node.InStep := by
  cases hstep with
  | digest s _ => exact (H.digest s).1
  | rollTo h1 hk hr => exact (H.rollTo h1 hk hr).1
  | @restart sidecar n n' hst htip hhash _ _ =>
    have hlast : n'.lastBlock = n.lastBlock := Option.some.inj (htip.symm.trans H.ranged.tip_eq)
    obtain ⟨hash, hblock, hh⟩ := H.ranged.lastBlockHash
    obtain rfl : n'.lastBlockHash = hash := Except.ok.inj (hhash.symm.trans hh)
    refine ⟨?_, ?_⟩
    · rw [hst, hlast]
      exact H.ranged
    · rw [hst, hlast]
      exact hblock
  | lose => exact H

theorem HostStep.followed {h h' : Host π} (hw : 1 ≤ cfg.forkWindow) (hstep : HostStep P cfg h h')
    (hkeep : KeepsLockIn cfg h h') (Hin : h.node.InStep) (H : Followed cfg h.node h.sidecar) :
    Followed cfg h'.node h'.sidecar := by
  cases hstep with
  | digest s hs => exact H.digest Hin hw hs hkeep
  | rollTo h1 hk hr =>
    obtain ⟨st', removed, hash, stamp, hroll, -, rfl⟩ := rollToLocked_ok hr
    exact H.cut hw h1 hk hroll rfl rfl rfl fun hrec hlt => hkeep hrec hlt
  | @restart sidecar n n' hst htip _ hload hcaught =>
    have hlast : n'.lastBlock = n.lastBlock := Option.some.inj (htip.symm.trans H.ranged.tip_eq)
    refine ⟨?_, ?_, ?_, ?_⟩
    · simpa only [hst, hlast] using H.ranged
    · simpa only [hst, hlast] using H.legacy
    · simp only [hst, hlast]
      rintro f (hf | hf)
      · rcases hload with hload | hload
        · exact H.recorded f (.inr (hload.symm.trans hf))
        · rw [hload] at hf
          cases hf
      · exact H.recorded f (.inr hf)
    · intro _ hc
      rw [hcaught] at hc
      cases hc
  | lose =>
    refine ⟨H.ranged, H.legacy, ?_, H.caughtUp⟩
    rintro f (hf | hf)
    · exact H.recorded f (.inl hf)
    · cases hf

theorem FreshHost.followed {h : Host π} (hw : 1 ≤ cfg.forkWindow) (hf : FreshHost P cfg h) :
    Followed cfg h.node h.sidecar := by
  obtain ⟨txs, hblocks⟩ := seedGenesis_blocks hf.fresh.store
  have hlast : h.node.lastBlock = 1 := hf.fresh.lastBlock
  refine ⟨?_, ?_, ?_, ?_⟩
  · rw [hlast]
    exact ⟨by rw [hblocks]; rfl, le_rfl, by norm_num⟩
  · intro k _ _ body hb
    rw [hblocks, OrdTable.get?_put] at hb
    split at hb
    · cases hb
      exact ⟨_, _, rfl⟩
    · cases hb
  · rw [hf.forkHeight, hf.sidecar]
    rintro f (hf | hf) <;> cases hf
  · intro _ _ t ht hc
    have := hc.1
    omega

/-- Along every run in which no block goes that locked in a recorded height, the height under which the
next block is judged is the one that a scan of the ledger finds; before the detection runs, the node may
not have recorded it yet. -/
theorem forkHeight_follows (hw : 1 ≤ cfg.forkWindow) {h₀ h : Host π} (h0 : FreshHost P cfg h₀)
    (hrun : ReflTransGen (fun h h' => HostStep P cfg h h' ∧ KeepsLockIn cfg h h') h₀ h) :
    dynamicForkHeight cfg (forkSignal cfg.mode h.node.store) h.node.lastBlock =
      .ok (detectFork cfg h.node).forkHeight ∧
    (h.node.forkHeight = none ∨ h.node.forkHeight = (detectFork cfg h.node).forkHeight) ∧
    (h.sidecar = none ∨ h.sidecar = (detectFork cfg h.node).forkHeight) := by
  have H : h.node.InStep ∧ Followed cfg h.node h.sidecar := by
    induction hrun with
    | refl => exact ⟨h0.fresh.inStep, h0.followed hw⟩
    | tail _ hstep ih => exact ⟨hstep.1.inStep ih.1, hstep.1.followed hw hstep.2 ih.1 ih.2⟩
  replace H := H.2
  have hscan := (H.detectFork_scan hw).1
  have hrec : ∀ f, h.node.forkHeight = some f ∨ h.sidecar = some f →
      (detectFork cfg h.node).forkHeight = some f := by
    intro f hf
    obtain ⟨t, ht, hfirst, rfl⟩ := H.recorded f hf
    rw [(H.scan hw le_rfl).2 t ht hfirst] at hscan
    exact (Except.ok.inj hscan).symm
  refine ⟨hscan, ?_, ?_⟩
  · cases hf : h.node.forkHeight with
    | none => exact .inl rfl
    | some f => exact .inr (hrec f (.inl hf)).symm
  · cases hf : h.sidecar with
    | none => exact .inl rfl
    | some f => exact .inr (hrec f (.inr hf)).symm

/-! ## A small network with signals -/

def signalNet : Config Unit :=
  { regnet .decimal with
    forkWindow := 2, forkBoundary := 10, forkBury := 1, forkBoundary_pos := twoWindow.forkBoundary_pos }

def signalHost : Host Unit := ⟨freshNode .decimal none, none⟩

/-- The fresh ledger depends on the network and on the mode alone. -/
theorem seedGenesis_congr {cfg' : Config π} (hnet : cfg'.network = cfg.network)
    (hmode : cfg'.mode = cfg.mode) : seedGenesis P cfg' = seedGenesis P cfg := by
  simp only [seedGenesis, Config.allocations, Config.genesisDifficulty, hnet, hmode]

theorem signalHost_fresh : FreshHost .toy signalNet signalHost where
  fresh := {
    store := (seedGenesis_congr rfl rfl).trans (seedGenesis_regnet .decimal ∅ 0)
    lastBlock := rfl
    lastBlockHash := rfl
    forkHeight := rfl }
  forkHeight := rfl
  sidecar := rfl

def signalBlock (timestamp signature : Text) : Submission :=
  smallBlock [{ aliceMines timestamp signature with openfield := ['h', 'f', '2'] }]

def plainBlock (timestamp signature : Text) : Submission := smallBlock [aliceMines timestamp signature]

def digested (s : Submission) (n : Node Unit) : Node Unit := (digestBlock .toy signalNet [s] n).2

/-- A node after one signalled block and after two, after one block more, and on another branch. -/
def signalledOnce : Node Unit :=
  digested (signalBlock "1500000000.00".toList ['A', 'A', 'A', 'A']) signalHost.node

def signalledTwice : Node Unit :=
  digested (signalBlock "1500000100.00".toList ['A', 'A', 'A', 'B']) signalledOnce

def lockedNode : Node Unit :=
  digested (plainBlock "1500000200.00".toList ['A', 'A', 'A', 'C']) signalledTwice

def rolledNode (k : Nat) : Node Unit := (rollToLocked .toy signalNet k lockedNode).2

def otherNode : Node Unit :=
  digested (plainBlock "1500000150.00".toList ['A', 'A', 'A', 'D']) (rolledNode 2)

/-- The tip, the recorded height, and the height that the ledger gives. -/
def heights (n : Node Unit) : Nat × Option Nat × Except Err (Option Nat) :=
  (n.lastBlock, n.forkHeight, dynamicForkHeight signalNet (forkSignal .decimal n.store) n.lastBlock)

theorem heights_eq (h : heights n = (k, f, e)) : n.lastBlock = k ∧ n.forkHeight = f ∧
    dynamicForkHeight signalNet (forkSignal .decimal n.store) n.lastBlock = e := by
  simpa [heights] using h

theorem digested_step (s : Submission) (n : Node Unit) (sidecar : Option Nat) :
    HostStep .toy signalNet ⟨n, sidecar⟩ ⟨digested s n, sidecar⟩ := .digest s (.inl rfl)

theorem signal_heights : heights signalledOnce = (2, none, .ok none) ∧
    heights signalledTwice = (3, none, .ok (some 10)) ∧
    heights lockedNode = (4, some 10, .ok (some 10)) ∧
    dynamicForkHeight signalNet (forkSignal .decimal lockedNode.store) 3 = .ok (some 10) := by
  decide +kernel

theorem rolled_heights : (rollToLocked .toy signalNet 3 lockedNode).1 = .ok () ∧
    heights (rolledNode 3) = (3, some 10, .ok (some 10)) ∧
    (rollToLocked .toy signalNet 2 lockedNode).1 = .ok () ∧
    heights otherNode = (3, some 10, .ok none) := by
  decide +kernel

theorem signal_steps : HostStep .toy signalNet signalHost ⟨signalledOnce, none⟩ ∧
    HostStep .toy signalNet ⟨signalledOnce, none⟩ ⟨signalledTwice, none⟩ ∧
    HostStep .toy signalNet ⟨signalledTwice, none⟩ ⟨lockedNode, none⟩ ∧
    HostStep .toy signalNet ⟨rolledNode 2, none⟩ ⟨otherNode, none⟩ :=
  ⟨digested_step _ signalHost.node none, digested_step _ signalledOnce none,
    digested_step _ signalledTwice none, digested_step _ (rolledNode 2) none⟩

theorem rolled_step (h : (rollToLocked .toy signalNet k lockedNode).1 = .ok ()) (h1 : 1 ≤ k)
    (hk : k ≤ 4) : HostStep .toy signalNet ⟨lockedNode, none⟩ ⟨rolledNode k, none⟩ := by
  refine .rollTo h1 ?_ (Run.eq_of_fst h)
  rw [(heights_eq signal_heights.2.2.1).1]
  exact hk

/-- The fork is locked in by two blocks and recorded with the third; the node goes back to the second. -/
theorem forkHeight_follows_sample : ∃ h₀ h : Host Unit, FreshHost .toy signalNet h₀ ∧
    ReflTransGen (fun h h' => HostStep .toy signalNet h h' ∧ KeepsLockIn signalNet h h') h₀ h ∧
    h.node.lastBlock = 3 ∧ (detectFork signalNet h.node).forkHeight = some 10 ∧
    dynamicForkHeight signalNet (forkSignal .decimal h.node.store) h.node.lastBlock =
      .ok (detectFork signalNet h.node).forkHeight := by
  obtain ⟨h1, h2, h3, hscan⟩ := signal_heights
  obtain ⟨hroll, h4, -, -⟩ := rolled_heights
  obtain ⟨s1, s2, s3, -⟩ := signal_steps
  have hfork := (heights_eq h4).2.1
  have hgrows : ∀ {n n' : Node Unit} {j k : Nat}, n.lastBlock = j → n'.lastBlock = k → j ≤ k →
      KeepsLockIn signalNet ⟨n, none⟩ ⟨n', none⟩ := by
    intro n n' j k hj hk hle _ hlt
    simp only [hj, hk] at hlt
    omega
  have hsteps : ReflTransGen (fun h h' => HostStep .toy signalNet h h' ∧ KeepsLockIn signalNet h h')
      signalHost ⟨rolledNode 3, none⟩ := by
    have k1 : KeepsLockIn signalNet signalHost ⟨signalledOnce, none⟩ :=
      hgrows rfl (heights_eq h1).1 (by decide)
    have k2 : KeepsLockIn signalNet ⟨signalledOnce, none⟩ ⟨signalledTwice, none⟩ :=
      hgrows (heights_eq h1).1 (heights_eq h2).1 (by decide)
    have k3 : KeepsLockIn signalNet ⟨signalledTwice, none⟩ ⟨lockedNode, none⟩ :=
      hgrows (heights_eq h2).1 (heights_eq h3).1 (by decide)
    have k4 : KeepsLockIn signalNet ⟨lockedNode, none⟩ ⟨rolledNode 3, none⟩ := by
      intro _ _
      simp only [(heights_eq h4).1]
      exact fun h => by cases hscan.symm.trans h
    exact .tail (.tail (.tail (.single ⟨s1, k1⟩) ⟨s2, k2⟩) ⟨s3, k3⟩)
      ⟨rolled_step hroll (by decide) (by decide), k4⟩
  refine ⟨signalHost, ⟨rolledNode 3, none⟩, signalHost_fresh, hsteps, (heights_eq h4).1, ?_,
    (forkHeight_follows (by decide) signalHost_fresh hsteps).1⟩
  simp only [detectFork, hfork]

/-- Right after the second block the height is not recorded yet. On a branch without the signals it still
is. -/
theorem forkHeight_stale : ∃ h₀ h₁ h₂ : Host Unit, FreshHost .toy signalNet h₀ ∧
    ReflTransGen (HostStep .toy signalNet) h₀ h₁ ∧ ReflTransGen (HostStep .toy signalNet) h₁ h₂ ∧
    (h₁.node.forkHeight = none ∧
      dynamicForkHeight signalNet (forkSignal .decimal h₁.node.store) h₁.node.lastBlock = .ok (some 10)) ∧
    h₂.node.forkHeight = some 10 ∧ (detectFork signalNet h₂.node).forkHeight = some 10 ∧
      dynamicForkHeight signalNet (forkSignal .decimal h₂.node.store) h₂.node.lastBlock = .ok none := by
  obtain ⟨-, h2, -, -⟩ := signal_heights
  obtain ⟨-, -, hroll, h4⟩ := rolled_heights
  obtain ⟨s1, s2, s3, s4⟩ := signal_steps
  have hfork := (heights_eq h4).2.1
  refine ⟨signalHost, ⟨signalledTwice, none⟩, ⟨otherNode, none⟩, signalHost_fresh, .tail (.single s1) s2,
    .tail (.tail (.single s3) (rolled_step hroll (by decide) (by decide))) s4,
    (heights_eq h2).2, hfork, ?_, (heights_eq h4).2.2⟩
  show (detectFork signalNet otherNode).forkHeight = some 10
  simp only [detectFork, hfork]

end Bismuth
