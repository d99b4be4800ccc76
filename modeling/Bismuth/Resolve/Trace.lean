import Bismuth.Digest.Heights
import Bismuth.Resolve.Measured

/-!
# What a run of the fork resolution went through
-/

namespace Bismuth
open Py Relation

section
variable {σ κ π : Type} {P : Prims} {cfg : Config π} {E : Env σ κ π} {w w' : World σ π}

/-! ## Steps before the lock -/

theorem look_eq_ok {f : World σ π → α} : look E f w = (.ok a, w') ↔ a = f w' ∧ w' = E.others w := by
  simp only [look, Prod.mk.injEq, Except.ok.injEq]
  constructor
  · rintro ⟨rfl, rfl⟩
    exact ⟨rfl, rfl⟩
  · rintro ⟨rfl, rfl⟩
    exact ⟨rfl, rfl⟩

/-! ## Frames -/

/-- A relation between nodes that the other threads respect, as one between worlds. -/
structure Guarded (E : Env σ κ π) (Q : Node π → Node π → Prop) : Prop where
  refl : ∀ n, Q n n
  trans : ∀ a b c, Q a b → Q b c → Q a c
  others : ∀ w, Q w.node (E.others w).node

namespace Guarded
variable {Q : Node π → Node π → Prop}

/-- `Q` between the nodes of two worlds. -/
abbrev onWorld (Q : Node π → Node π → Prop) (w w' : World σ π) : Prop := Q w.node w'.node

theorem look (H : Guarded E Q) (f : World σ π → α) : Run.Frame (onWorld Q) (look E f) := H.others

theorem ask (H : Guarded E Q) (f : σ → α × σ) : Run.Frame (onWorld Q) (ask E f) := H.others

theorem skip (H : Guarded E Q) (v : Verdict) : Run.Frame (onWorld Q) (skip v : Resolve σ π α) :=
  fun w => H.refl w.node

theorem pure (H : Guarded E Q) (a : α) : Run.Frame (onWorld Q) (pure a : Resolve σ π α) :=
  fun w => H.refl w.node

theorem bind (H : Guarded E Q) {x : Resolve σ π α} {f : α → Resolve σ π β}
    (hx : Run.Frame (onWorld Q) x) (hf : ∀ a, Run.Frame (onWorld Q) (f a)) :
    Run.Frame (onWorld Q) (x >>= f) :=
  Run.Frame.bind (fun a b c => H.trans a.node b.node c.node) hx hf

theorem agrees (H : Guarded E Q) (link : κ) (k : Int) : Run.Frame (onWorld Q) (agrees E link k) := by
  refine H.bind (H.look _) fun hash => ?_
  cases hash with
  | none => exact H.pure _
  | some hash => exact H.ask _

variable {agrees : Int → Resolve σ π (Option Bool)}

section
variable (H : Guarded E Q)
include H

theorem linearWalk (ha : ∀ k, Run.Frame (onWorld Q) (agrees k)) (floor : Int) (k : Nat) (hi : Int) :
    Run.Frame (onWorld Q) (linearWalk agrees floor k hi) := by
  induction k generalizing hi with
  | zero => exact H.pure _
  | succ k ih =>
    rw [Bismuth.linearWalk]
    split
    · exact H.pure _
    · refine H.bind (ha _) fun b => ?_
      match b with
      | none => exact H.pure _
      | some true => exact H.pure _
      | some false => exact ih _

theorem bisect (ha : ∀ k, Run.Frame (onWorld Q) (agrees k)) (fuel : Nat) (lo hi : Int) :
    Run.Frame (onWorld Q) (bisect agrees fuel lo hi) := by
  induction fuel generalizing lo hi with
  | zero => exact H.pure _
  | succ fuel ih =>
    rw [Bismuth.bisect]
    split
    · refine H.bind (ha _) fun b => ?_
      match b with
      | none => exact H.pure _
      | some true => exact ih _ _
      | some false => exact ih _ _
    · exact H.pure _

theorem findCommonAncestor
    (ha : ∀ k, Run.Frame (onWorld Q) (agrees k)) (floor tip : Int) (linear : Nat) :
    Run.Frame (onWorld Q) (findCommonAncestor agrees floor tip linear) := by
  rw [Bismuth.findCommonAncestor]
  refine H.bind (ha _) fun b => ?_
  match b with
  | none => exact H.pure _
  | some true => exact H.pure _
  | some false =>
    refine H.bind (H.linearWalk ha _ _ _) fun x => ?_
    match x with
    | .inl _ => exact H.pure _
    | .inr hi =>
      simp only
      split
      · exact H.pure _
      · refine H.bind (ha _) fun b => ?_
        match b with
        | none => exact H.pure _
        | some false => exact H.pure _
        | some true => exact H.bisect ha _ _ _

theorem countAnswers (tip : Nat) (hash : Text) (ps : List κ) (a d : Nat) :
    Run.Frame (onWorld Q) (countAnswers E tip hash ps a d) := by
  induction ps generalizing a d with
  | nil => exact H.pure _
  | cons p ps ih =>
    refine H.bind (H.bind (H.ask _) fun b => ?_) fun x => ?_
    · cases b with
      | false => exact H.pure _
      | true => exact H.ask _
    · match x with
      | none => exact ih _ _
      | some true => exact ih _ _
      | some false => exact ih _ _

theorem reorgOk (tip : Nat) (hash : Text) (ancestor : Nat) :
    Run.Frame (onWorld Q) (reorgOk E tip hash ancestor) := by
  rw [Bismuth.reorgOk]
  split
  · exact H.pure _
  · refine H.bind (H.look _) fun b => ?_
    cases b with
    | false => exact H.pure _
    | true => exact H.bind (H.look _) fun ps => H.bind (H.countAnswers _ _ _ _ _) fun _ => H.pure _

theorem measure (link : κ) (tip : Nat) (hash : Text) (peerHeight : Nat) :
    Run.Frame (onWorld Q) (measure E link tip hash peerHeight) := by
  rw [Bismuth.measure]
  split
  · exact H.skip _
  · refine H.bind (H.findCommonAncestor (H.agrees link) _ _ _) fun a => ?_
    cases a with
    | none => exact H.skip _
    | some a =>
      simp only
      split
      · exact H.skip _
      · refine H.bind ?_ fun v => ?_
        · rw [classify]
          split
          · exact H.pure _
          · exact H.bind (H.reorgOk _ _ _) fun _ => H.pure _
        · cases v <;> first | exact H.skip _ | exact H.pure _

theorem chooseLink [DecidableEq κ] (peer : κ) (tip : Nat) (hash : Text) (ps : List κ) :
    Run.Frame (onWorld Q) (chooseLink E peer tip hash ps) := by
  induction ps with
  | nil => exact H.pure _
  | cons p ps ih =>
    refine H.bind (H.ask _) fun b => ?_
    cases b with
    | false => exact ih
    | true =>
      simp only [if_true]
      split
      · exact H.pure _
      · refine H.bind (H.ask _) fun x => ?_
        split
        · exact H.pure _
        · exact ih

theorem fetchLoop (link : κ) (ancestor stop fuel : Nat) (held : List Submission)
    (hash : Text) : Run.Frame (onWorld Q) (fetchLoop E link ancestor stop fuel held hash) := by
  induction fuel generalizing held hash with
  | zero => exact H.pure _
  | succ fuel ih =>
    rw [Bismuth.fetchLoop]
    split
    · exact H.pure _
    · refine H.bind (H.ask _) fun b => ?_
      split
      · exact H.pure _
      · refine H.bind (H.ask _) fun x => ?_
        match x with
        | none => exact H.pure _
        | some [] => exact H.pure _
        | some (b :: batch) =>
          simp only
          match takeBatch held (b :: batch) with
          | (held, true) => exact H.pure _
          | (held, false) =>
            simp only
            split
            · exact H.pure _
            · refine H.bind (H.ask _) fun y => ?_
              cases y with
              | none => exact H.pure _
              | some next =>
                simp only
                split
                · exact H.pure _
                · exact ih _ _

theorem fetchBranch (link : κ) (ancestor : Nat) (hash : Text) (stop : Nat) :
    Run.Frame (onWorld Q) (fetchBranch E link ancestor hash stop) := by
  rw [Bismuth.fetchBranch]
  exact H.fetchLoop link ancestor stop _ _ _

theorem gates (P : Prims) (cfg : Config π) (ad : Advert κ) :
    Run.Frame (onWorld Q) (gates P cfg E ad) := by
  refine H.bind (H.look _) fun b => ?_
  split
  · exact H.skip _
  · refine H.bind (H.look _) fun x => ?_
    match x with
    | .error _ => exact H.skip _
    | .ok none => exact H.skip _
    | .ok (some (tip, hash)) =>
      refine H.bind (H.look _) fun b => ?_
      split
      · exact H.skip _
      · split
        · exact H.skip _
        · refine H.bind (H.look _) fun b => ?_
          split
          · exact H.skip _
          · refine H.bind (H.look _) fun o => ?_
            cases ad.peerHeight.or o with
            | none => exact H.skip _
            | some ph =>
              simp only
              split
              · exact H.skip _
              · refine H.bind (H.look _) fun v => ?_
                cases v with
                | some v => exact H.skip _
                | none =>
                  refine H.bind (H.look _) fun b => ?_
                  split
                  · exact H.skip _
                  · exact H.pure _

theorem breakTie (link : κ) (ancestor : Nat) :
    Run.Frame (onWorld Q) (breakTie E link ancestor) := by
  refine H.bind (H.ask _) fun _ => H.bind (H.look _) fun _ => ?_
  split
  · exact H.skip _
  · exact H.pure _

theorem settleTie (tie : Prop) [Decidable tie] (link : κ) (ancestor : Nat) :
    Run.Frame (onWorld Q) (settleTie E tie link ancestor) := by
  rw [Bismuth.settleTie]
  split
  · exact H.bind (H.breakTie _ _) fun _ => H.pure _
  · exact H.pure _

end

end Guarded

/-! ## What was read -/

theorem heldHash_eq_some {x : Except Err (Option Text)} {hash : Text} (h : heldHash x = some hash) :
    x = .ok (some hash) := by
  cases x with
  | error e => cases h
  | ok x => rw [(Option.filter_eq_some_iff.1 h).1]

theorem blockMaxRam_height {st : Store} {hash : Text} (h : st.blockMaxRam P mode = .ok (some (k, hash))) :
    st.tip = some k := by
  rw [Store.blockMaxRam] at h
  split at h
  · cases h
  · rename_i tip htip
    obtain ⟨rows, hrows, h⟩ := Except.bind_eq_ok.1 h
    simp only [Except.pure_eq_ok, Except.ok.injEq, Option.map_eq_some_iff, Option.bind_eq_some_iff] at h
    obtain ⟨r, ⟨ts, rfl, hlast⟩, hk⟩ := h
    cases hk
    simp only [Store.getBlock, Store.getBlockRaw, Store.rawBlock, Except.bind_eq_ok] at hrows
    obtain ⟨x, ⟨j, hj, hx⟩, hrows⟩ := hrows
    obtain rfl : j = tip := by
      rw [heightKey] at hj
      split at hj <;> cases hj
      simp
    cases x with
    | none => cases hrows
    | some rows =>
      obtain ⟨ts', hts, hrows⟩ := Except.bind_eq_ok.1 hrows
      cases hrows
      split at hx
      · obtain ⟨rows', hexp, hx⟩ := Except.bind_eq_ok.1 hx
        cases hx
        obtain ⟨row, hmem, hrow⟩ := Except.exists_of_mem_mapM hts (List.mem_of_getLast? hlast)
        have hheight : r.height = row.height := by
          simp only [typedRow, Except.bind_eq_ok] at hrow
          obtain ⟨_, -, _, -, _, -, _, -, hrow⟩ := hrow
          cases hrow
          rfl
        rw [hheight, expand_height hexp hmem, htip]
      · cases hx

/-- The tip is read from the ledger, by way of the other threads. -/
theorem gates_ok {Q : Node π → Node π → Prop} (H : Guarded E Q) {ad : Advert κ}
    (h : gates P cfg E ad w = (.ok (tip, tipHash, peerHeight), w')) :
    tip ≤ peerHeight ∧ ∃ n, Q w.node n ∧ n.store.blockMaxRam P cfg.mode = .ok (some (tip, tipHash)) := by
  rw [gates] at h
  obtain ⟨b, w₁, hlook, h⟩ := Run.bind_eq_ok.1 h
  obtain ⟨rfl, rfl⟩ := look_eq_ok.1 hlook
  split at h
  · cases h
  · obtain ⟨x, w₂, hlook, h⟩ := Run.bind_eq_ok.1 h
    obtain ⟨hx, rfl⟩ := look_eq_ok.1 hlook
    match x, hx, h with
    | .error _, _, h => cases h
    | .ok none, _, h => cases h
    | .ok (some (tip', tipHash')), hx, h =>
      have hread := H.trans _ _ _ (H.others w) (H.others (E.others w))
      obtain ⟨b, w₃, -, h⟩ := Run.bind_eq_ok.1 h
      split at h
      · cases h
      · split at h
        · cases h
        · obtain ⟨old, w₄, -, h⟩ := Run.bind_eq_ok.1 h
          split at h
          · cases h
          · obtain ⟨opinion, w₅, -, h⟩ := Run.bind_eq_ok.1 h
            cases hp : ad.peerHeight.or opinion with
            | none =>
              rw [hp] at h
              cases h
            | some p =>
              simp only [hp] at h
              split at h
              · cases h
              · rename_i hle
                obtain ⟨v, w₆, -, h⟩ := Run.bind_eq_ok.1 h
                cases v with
                | some v => cases h
                | none =>
                  obtain ⟨busy, w₇, -, h⟩ := Run.bind_eq_ok.1 h
                  split at h
                  · cases h
                  · cases h
                    exact ⟨not_lt.1 hle, _, hread, hx.symm⟩

theorem settleTie_ok {Q : Node π → Node π → Prop} (H : Guarded E Q) {tie : Prop} [Decidable tie] {link : κ}
    (htie : tie) (h : settleTie E tie link a w = (.ok reported, w')) :
    ∃ theirs n, reported = some theirs ∧ Q w.node n ∧ Q n w'.node ∧
      tieWinner (n.store.ourHashAt (a + 1)) theirs = .theirs := by
  rw [settleTie, if_pos htie] at h
  obtain ⟨theirs, hb, rfl⟩ := Run.map_eq_ok.1 h
  rw [breakTie] at hb
  obtain ⟨theirs, w₂, hask, hb⟩ := Run.bind_eq_ok.1 hb
  obtain ⟨ours, w₃, hlook, hb⟩ := Run.bind_eq_ok.1 hb
  obtain ⟨hours, rfl⟩ := look_eq_ok.1 hlook
  have hq := H.ask (E.hashAt link (a + 1)) w
  rw [hask] at hq
  cases hside : tieWinner ours theirs with
  | ours =>
    rw [if_pos hside] at hb
    cases hb
  | theirs =>
    rw [if_neg (by rw [hside]; decide)] at hb
    cases hb
    exact ⟨theirs, _, rfl, H.trans _ _ _ hq (H.others _), H.refl _, hours ▸ hside⟩

/-! ## Under the lock -/

theorem locked_eq_ok {x : Digest π α} :
    locked x w = (.ok a, w') ↔ ∃ n, x w.node = (.ok a, n) ∧ w' = { w with node := n } := by
  rw [locked]
  rcases x w.node with ⟨_ | a', n⟩
  · simp
  · simp [eq_comm]

theorem backupHigher_ok {n n' : Node π} (h : backupHigher P cfg (k + 1) n = (.ok removed, n')) :
    ∃ st', rollback P cfg.mode n.store k n.forkHeight = .ok (st', removed) ∧
      n' = { n with store := st' } := by
  simp only [backupHigher, Run.bind_eq_ok, Run.get_eq_ok, Run.lift_eq_ok, Run.modify_eq_ok,
    Prod.exists] at h
  obtain ⟨_, _, ⟨rfl, rfl⟩, st', removed, _, ⟨hr, rfl⟩, _, _, rfl, h⟩ := h
  cases h
  have hk : ((k + 1 : Nat) : Int) - 1 = k := by omega
  rw [hk] at hr
  exact ⟨st', hr, rfl⟩

/-- The node has gone back to height `k`, and the ledger up to there is as it was. -/
structure Node.BackAt (n n' : Node π) (k : Nat) : Prop where
  inStep : n'.InStep
  lastBlock : n'.lastBlock = k
  forkHeight : n'.forkHeight = n.forkHeight
  blocks : ∀ j ≤ k, n'.store.blocks.get? j = n.store.blocks.get? j

theorem Node.BackAt.rollTo {n n' : Node π} (H : n.store.Ranged t) (h1 : 1 ≤ k) (hk : k ≤ t)
    (h : rollToLocked P cfg k n = (.ok u, n')) : n.BackAt n' k := by
  obtain ⟨st', removed, hash, stamp, hr, hh, rfl⟩ := rollToLocked_ok h
  have hranged := H.rollback h1 hk hr
  obtain ⟨hash', hblock, hh'⟩ := hranged.lastBlockHash
  obtain rfl : hash = hash' := Except.ok.inj (hh.symm.trans hh')
  refine ⟨⟨hranged, hblock⟩, rfl, rfl, fun j hj => ?_⟩
  rw [rollback_blocks hr, OrdTable.get?_filter]
  cases n.store.blocks.get? j <;> simp [hj]

theorem Node.BackAt.rollTo_rolled {n n₁ n₂ : Node π} (H : n.store.Ranged t) (h1 : 1 ≤ k) (hk : k ≤ t)
    (hst : rollback P cfg.mode n.store k n.forkHeight = .ok (n₁.store, removed))
    (hf : n₁.forkHeight = n.forkHeight) (hr : rollToLocked P cfg k n₁ = (.ok u, n₂)) : n.BackAt n₂ k := by
  have hback : n₁.BackAt n₂ k := .rollTo (H.rollback h1 hk hst) h1 le_rfl hr
  refine ⟨hback.inStep, hback.lastBlock, hback.forkHeight.trans hf, fun j hj => ?_⟩
  rw [hback.blocks j hj, rollback_blocks hst, OrdTable.get?_filter]
  cases n.store.blocks.get? j <;> simp [hj]

theorem Node.BackAt.backup {n n₁ n₂ : Node π} (H : n.store.Ranged t) (h1 : 1 ≤ k) (hk : k ≤ t)
    (hb : backupHigher P cfg (k + 1) n = (.ok removed, n₁))
    (hr : rollToLocked P cfg k n₁ = (.ok u, n₂)) : n.BackAt n₂ k := by
  obtain ⟨st₁, hr₁, rfl⟩ := backupHigher_ok hb
  exact .rollTo_rolled H h1 hk hr₁ (by rfl) hr

/-- An adopted branch was digested on the ancestor, and what it reaches beats the tip that was read. -/
theorem replaceBranch_adopted (H : w.node.store.Ranged t) (h1 : 1 ≤ k) (hk : k ≤ t)
    (h : replaceBranch P cfg E tip k tie held w = (.ok true, w')) :
    ∃ n, w.node.BackAt n k ∧ w'.node = (digestBlock P cfg held n).2 ∧
      (tip < w'.node.lastBlock ∨ tie = true ∧ w'.node.lastBlock = tip) := by
  rw [replaceBranch] at h
  obtain ⟨removed, w₁, hback, h⟩ := Run.bind_eq_ok.1 h
  obtain ⟨_, w₂, hroll, h⟩ := Run.bind_eq_ok.1 h
  obtain ⟨n₁, hb, rfl⟩ := locked_eq_ok.1 hback
  obtain ⟨n₂, hr, rfl⟩ := locked_eq_ok.1 hroll
  obtain ⟨_, w₃, hm, h⟩ := Run.bind_eq_ok.1 h
  obtain rfl := Run.modify_eq_ok.1 hm
  obtain ⟨_, w₄, hg, h⟩ := Run.bind_eq_ok.1 h
  obtain ⟨rfl, rfl⟩ := Run.get_eq_ok.1 hg
  refine ⟨n₂, .backup H h1 hk hb hr, ?_⟩
  split at h
  · rename_i hbeats
    cases h
    exact ⟨rfl, hbeats.imp_right fun hb => ⟨hb.1, hb.2.1⟩⟩
  · obtain ⟨_, w₅, -, h⟩ := Run.bind_eq_ok.1 h
    cases h

/-! ## A whole run -/

theorem measure_stages {link : κ} (h : measure E link tip tipHash peerHeight w = (.ok a, w')) :
    probeFloor tip ≤ a ∧ ∃ w₁ w₂,
      findCommonAncestor (agrees E link) (probeFloor tip) tip linearProbes w = (.ok (some (a : Int)), w₁) ∧
      classify a tip peerHeight (reorgOk E tip tipHash) w₁ = (.ok .reorg, w₂) := by
  rw [measure] at h
  split at h
  · cases h
  · obtain ⟨x, w₁, hfind, h⟩ := Run.bind_eq_ok.1 h
    cases x with
    | none => cases h
    | some a' =>
      simp only at h
      split at h
      · cases h
      · rename_i hfloor
        obtain ⟨v, w₂, hv, h⟩ := Run.bind_eq_ok.1 h
        cases v <;> try cases h
        have hcast : ((a'.toNat : Nat) : Int) = a' := by omega
        rw [hcast]
        exact ⟨by omega, w₁, _, hfind, hv⟩

/-- The policy was asked about an ancestor below the tip, and allowed it. -/
theorem classify_reorg {ok : Nat → Resolve σ π Bool} (h : classify a tip peerHeight ok w = (.ok .reorg, w')) :
    a < tip ∧ ok a w = (.ok true, w') := by
  rw [classify] at h
  split at h
  · simp only [pure] at h
    split at h <;> cases h
  · rename_i hlt
    split at h
    · cases h
    · obtain ⟨v, w₁, hv, h⟩ := Run.bind_eq_ok.1 h
      cases v
      · cases h
      · cases h
        exact ⟨not_le.1 hlt, hv⟩

/-- A verdict for a reorg comes with an ancestor that the search found between its floor and the tip. -/
theorem measure_ok {link : κ} (h : measure E link tip tipHash peerHeight w = (.ok a, w')) :
    probeFloor tip ≤ a ∧ a < tip ∧ ∃ w₁,
      findCommonAncestor (agrees E link) (probeFloor tip) tip linearProbes w = (.ok (some (a : Int)), w₁) := by
  obtain ⟨hfloor, w₁, w₂, hfind, hclass⟩ := measure_stages h
  exact ⟨hfloor, (classify_reorg hclass).1, w₁, hfind⟩

theorem reorgOk_true (h : reorgOk E tip tipHash a w = (.ok true, w')) :
    E.checkpoint ≤ a + 1 ∨ E.rollbackAllowed (E.others w) (a + 1) = true := by
  rw [reorgOk] at h
  split at h
  · rename_i hle
    exact .inl hle
  · rw [deepOk] at h
    obtain ⟨x, w₁, hlook, h⟩ := Run.bind_eq_ok.1 h
    obtain ⟨rfl, rfl⟩ := look_eq_ok.1 hlook
    right
    split at h
    · assumption
    · cases h

structure RunOf [DecidableEq κ] (P : Prims) (cfg : Config π) (E : Env σ κ π) (ad : Advert κ)
    (w : World σ π) (r : Reorg π) (w' : World σ π) where
  tipHash : Text
  peerHeight : Nat
  gated : World σ π
  gates_eq : gates P cfg E ad w = (.ok (r.tip, tipHash, peerHeight), gated)
  donor : Option κ
  linked : World σ π
  donor_eq : chooseLink E ad.peer r.tip tipHash (E.donors (E.others gated) peerHeight) (E.others gated) =
    (.ok donor, linked)
  measured : World σ π
  measure_eq : measure E (donor.getD ad.peer) r.tip tipHash peerHeight linked =
    (.ok r.ancestor, measured)
  hash : Text
  hash_eq : (E.others measured).node.store.ourHashAt r.ancestor = some hash
  decided : World σ π
  tie_eq : settleTie E (peerHeight = r.tip) (donor.getD ad.peer) r.ancestor (E.others measured) =
    (.ok r.reported, decided)
  fetched : World σ π
  fetch_eq : fetchBranch E (donor.getD ad.peer) r.ancestor hash peerHeight decided =
    (.ok r.held, fetched)
  longer : r.tip < r.ancestor + r.held.length ∨ peerHeight = r.tip ∧ r.ancestor + r.held.length = r.tip
  before_eq : r.before = (E.others (E.others fetched)).node
  replace_eq : replaceBranch P cfg E r.tip r.ancestor (decide (peerHeight = r.tip)) r.held
    (E.others (E.others fetched)) = (.ok r.adopted, w')

theorem blocknfMeasured_ok [DecidableEq κ] {ad : Advert κ}
    (h : blocknfMeasured P cfg E ad w = (.ok r, w')) : Nonempty (RunOf P cfg E ad w r w') := by
  rw [blocknfMeasured] at h
  obtain ⟨⟨tip, tipHash, peerHeight⟩, w₁, hgates, h⟩ := Run.bind_eq_ok.1 h
  obtain ⟨donors, w₂, hlook, h⟩ := Run.bind_eq_ok.1 h
  obtain ⟨rfl, rfl⟩ := look_eq_ok.1 hlook
  obtain ⟨donor, w₃, hdonor, h⟩ := Run.bind_eq_ok.1 h
  obtain ⟨a, w₄, hmeasure, h⟩ := Run.bind_eq_ok.1 h
  obtain ⟨y, w₅, hlook, h⟩ := Run.bind_eq_ok.1 h
  obtain ⟨hhash, rfl⟩ := look_eq_ok.1 hlook
  cases y with
  | none => cases h
  | some hash =>
    obtain ⟨reported, w₆, htie, h⟩ := Run.bind_eq_ok.1 h
    obtain ⟨held, w₇, hfetch, h⟩ := Run.bind_eq_ok.1 h
    split at h
    · cases h
    · split at h
      · cases h
      · rename_i hlonger
        obtain ⟨b, w₈, hlook, h⟩ := Run.bind_eq_ok.1 h
        obtain ⟨rfl, rfl⟩ := look_eq_ok.1 hlook
        split at h
        · cases h
        · obtain ⟨before, w₉, hlook, h⟩ := Run.bind_eq_ok.1 h
          obtain ⟨rfl, rfl⟩ := look_eq_ok.1 hlook
          obtain ⟨adopted, w₁₀, hreplace, h⟩ := Run.bind_eq_ok.1 h
          cases h
          exact ⟨{
            tipHash, peerHeight, gated := w₁, gates_eq := hgates, donor, linked := w₃
            donor_eq := hdonor, measured := w₄, measure_eq := hmeasure, hash, hash_eq := hhash.symm
            decided := w₆, tie_eq := htie, fetched := w₇, fetch_eq := hfetch
            longer := not_not.1 hlonger, before_eq := rfl, replace_eq := hreplace }⟩

namespace RunOf
variable [DecidableEq κ] {P : Prims} {cfg : Config π} {ad : Advert κ} {w w' : World σ π} {r : Reorg π}
  (t : RunOf P cfg E ad w r w')

include t

/-! What the other threads keep holds between the start of the run and each of its stages. -/

variable {Q : Node π → Node π → Prop}

theorem guarded_linked (H : Guarded E Q) : Q w.node t.linked.node := by
  have h1 := H.gates P cfg ad w
  rw [t.gates_eq] at h1
  have h2 := H.chooseLink ad.peer r.tip t.tipHash (E.donors (E.others t.gated) t.peerHeight)
    (E.others t.gated)
  rw [t.donor_eq] at h2
  exact H.trans _ _ _ h1 (H.trans _ _ _ (H.others _) h2)

theorem guarded_measured (H : Guarded E Q) : Q w.node (E.others t.measured).node := by
  have h := H.measure (t.donor.getD ad.peer) r.tip t.tipHash t.peerHeight t.linked
  rw [t.measure_eq] at h
  exact H.trans _ _ _ (t.guarded_linked H) (H.trans _ _ _ h (H.others _))

theorem guarded_before (H : Guarded E Q) : Q w.node r.before := by
  have h1 := H.settleTie (t.peerHeight = r.tip) (t.donor.getD ad.peer) r.ancestor (E.others t.measured)
  rw [t.tie_eq] at h1
  have h2 := H.fetchBranch (t.donor.getD ad.peer) r.ancestor t.hash t.peerHeight t.decided
  rw [t.fetch_eq] at h2
  rw [t.before_eq]
  exact H.trans _ _ _ (t.guarded_measured H) (H.trans _ _ _ h1 (H.trans _ _ _ h2
    (H.trans _ _ _ (H.others _) (H.others _))))

theorem ancestor_pos : 1 ≤ r.ancestor :=
  le_trans (le_max_left _ _) (measure_ok t.measure_eq).1

theorem ancestor_lt : r.ancestor < r.tip := (measure_ok t.measure_eq).2.1

/-- The branch was digested on the ancestor, and what it reaches beats the tip that was read. -/
theorem adopted (hadopted : r.adopted = true) (hr : r.before.store.Ranged r.tip) :
    ∃ n, r.before.BackAt n r.ancestor ∧ w'.node = (digestBlock P cfg r.held n).2 ∧ w'.node.InStep ∧
      (r.tip < w'.node.lastBlock ∨ t.peerHeight = r.tip ∧ w'.node.lastBlock = r.tip) := by
  have hreplace := t.replace_eq
  rw [hadopted] at hreplace
  rw [t.before_eq] at hr ⊢
  obtain ⟨n, hback, hdigest, hbeats⟩ := replaceBranch_adopted hr t.ancestor_pos t.ancestor_lt.le hreplace
  refine ⟨n, hback, hdigest, hdigest ▸ hback.inStep.digestAll r.held, ?_⟩
  exact hbeats.imp_right fun ⟨htie, hlast⟩ => ⟨of_decide_eq_true htie, hlast⟩

end RunOf

end

end Bismuth
