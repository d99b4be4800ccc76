import Bismuth.Resolve.Trace

/-!
# Fork resolution: one block at a time

`chain_ops._blocknf_legacy`: a peer that does not have our tip makes the node drop it, if the policy allows.
-/

namespace Bismuth
open Py

section
variable {σ κ π : Type} (P : Prims) (cfg : Config π) (E : Env σ κ π)

/-- The rollback of `_blocknf_legacy`: the rows that it took. -/
def legacyRoll (height : Nat) : Digest π (List TypedRow) := do
  let backup ← backupHigher P cfg height
  Run.modify fun n => { n with plugins := cfg.onRollback height n.plugins }
  let stamp ← Run.lift ((← Run.get).store.lastBlockTimestamp P cfg.mode)
  Run.modify fun n => { n with lastBlockTimestamp := stamp }
  let hash ← Run.lift (← Run.get).store.lastBlockHash
  Run.modify fun n => { n with lastBlock := height - 1, lastBlockHash := hash }
  return backup

/-- `_blocknf_legacy`, up to the return of the transactions to the mempool. The other threads have their last
turn when the lock is taken. -/
def blocknfLegacy (ad : Advert κ) : Resolve σ π (List TypedRow) := do
  if ← look E E.dbLocked then skip .unknown
  else
    match ← look E fun w => w.node.store.blockMaxRam P cfg.mode with
    | .error e => Run.lift (.error (.failed e))
    | .ok none => Run.lift (.error (.failed .typeError))
    | .ok (some (height, blockHash)) =>
      let w ← Run.get
      if E.filtered w then skip .unknown
      else if !E.rollbackAllowed w height then skip .deadFork
      else if blockHash ≠ ad.blockHash then skip .synced
      else if ad.hyperblocks && E.lastBlockOld w then skip .unknown
      else locked (legacyRoll P cfg height)

end

section
variable {σ κ π : Type} {P : Prims} {cfg : Config π} {E : Env σ κ π} {n : Node π}

/-! ## Rolling back -/

theorem rollback_lt {k : Int} (h : rollback P mode st (k - 1) forkHeight = .ok (st', removed)) :
    0 ≤ k ∧ k < 2 ^ 64 := by
  rw [rollback] at h
  obtain ⟨start, hstart, -⟩ := Except.bind_eq_ok.1 h
  rw [Int.sub_add_cancel] at hstart
  obtain ⟨h0, hlt, -⟩ := heightKey_ok hstart
  exact ⟨h0, hlt⟩

theorem rollback_again {k : Nat} (h : rollback P mode st k forkHeight = .ok (st', removed)) :
    rollback P mode st' k forkHeight = .ok (st', []) := by
  have hblocks := rollback_blocks h
  rw [rollback] at h ⊢
  obtain ⟨start, hstart, -⟩ := Except.bind_eq_ok.1 h
  obtain ⟨-, -, rfl⟩ := heightKey_ok hstart
  have hnil : (st'.blocks.entries.map Prod.fst).filter (((k : Int) + 1).toNat ≤ ·) = [] := by
    refine List.filter_eq_nil_iff.2 fun j hj => ?_
    obtain ⟨⟨j', body⟩, he, rfl⟩ := List.mem_map.1 hj
    rw [hblocks] at he
    have hle : j' ≤ k := of_decide_eq_true (List.mem_filter.1 he).2
    simp only [decide_eq_true_eq]
    omega
  rw [hstart, Except.ok_bind, hnil]
  rfl

theorem rollbackUnder_of_ok {height : Int}
    (h : rollback P cfg.mode n.store (height - 1) n.forkHeight = .ok (st', removed)) :
    rollbackUnder P cfg height n = (.ok (), { n with store := st' }) := by
  simp only [rollbackUnder, Run.bind_apply, Run.get, Run.lift, Run.modify, h]

theorem rollbackUnder_of_error {height : Int}
    (h : rollback P cfg.mode n.store (height - 1) n.forkHeight = .error e) :
    rollbackUnder P cfg height n = (.error e, n) := by
  simp only [rollbackUnder, Run.bind_apply, Run.get, Run.lift, h]

theorem rollbackUnder_ok {height : Int} {n' : Node π} (h : rollbackUnder P cfg height n = (.ok u, n')) :
    ∃ st' removed, rollback P cfg.mode n.store (height - 1) n.forkHeight = .ok (st', removed) ∧
      n' = { n with store := st' } := by
  rcases hr : rollback P cfg.mode n.store (height - 1) n.forkHeight with e | ⟨st', removed⟩
  · rw [rollbackUnder_of_error hr] at h
    cases h
  · rw [rollbackUnder_of_ok hr] at h
    cases h
    exact ⟨st', removed, rfl, rfl⟩

theorem backupHigher_of_ok {height : Nat}
    (h : rollback P cfg.mode n.store ((height : Int) - 1) n.forkHeight = .ok (st', removed)) :
    backupHigher P cfg height n = (.ok removed, { n with store := st' }) := by
  simp only [backupHigher, Run.bind_apply, Run.get, Run.lift, Run.modify, h]
  rfl

theorem backupHigher_of_error {height : Nat}
    (h : rollback P cfg.mode n.store ((height : Int) - 1) n.forkHeight = .error e) :
    backupHigher P cfg height n = (.error e, n) := by
  simp only [backupHigher, Run.bind_apply, Run.get, Run.lift, h]

/-! ## The tip after a rollback -/

theorem Node.BackAt.restore {n₁ n₂ : Node π} (H : n.store.Ranged t) (h1 : 1 ≤ k) (hk : k ≤ t)
    (hc : rollbackChain P cfg (k + 1) n = (.ok u, n₁)) (hr : rollToLocked P cfg k n₁ = (.ok u', n₂)) :
    n.BackAt n₂ k := by
  obtain ⟨_, n₀, hb, hm⟩ := Run.bind_eq_ok.1 hc
  obtain rfl := Run.modify_eq_ok.1 hm
  obtain ⟨st', removed, hroll, rfl⟩ := rollbackUnder_ok hb
  have hk' : ((k + 1 : Nat) : Int) - 1 = k := by omega
  rw [hk'] at hroll
  exact .rollTo_rolled H h1 hk hroll (by rfl) hr

theorem legacyRoll_ok {n' : Node π} (h : legacyRoll P cfg (k + 1) n = (.ok removed, n')) :
    rollToLocked P cfg k n = (.ok (), n') := by
  simp only [legacyRoll, Run.bind_eq_ok, Run.get_eq_ok, Run.modify_eq_ok, Run.lift_eq_ok] at h
  obtain ⟨_, _, hb, _, _, rfl, _, _, ⟨rfl, rfl⟩, stamp, _, ⟨hstamp, rfl⟩, _, _, rfl, _, _, ⟨rfl, rfl⟩, hash, _,
    ⟨hhash, rfl⟩, _, _, rfl, hret⟩ := h
  cases hret
  obtain ⟨st', hr, rfl⟩ := backupHigher_ok hb
  have hk : ((k + 1 : Nat) : Int) - 1 = k := by omega
  rw [rollToLocked, Run.bind_apply, rollbackUnder_of_ok (by rw [hk]; exact hr)]
  simp only [Run.bind_apply, Run.modify, Run.get, Run.lift, hstamp, hhash]
  rfl

theorem blocknfLegacy_ok {ad : Advert κ} {w w' : World σ π}
    (h : blocknfLegacy P cfg E ad w = (.ok removed, w')) :
    ∃ k w₁, w₁ = E.others (E.others w) ∧ w₁.node.store.tip = some k ∧ E.rollbackAllowed w₁ k = true ∧
      legacyRoll P cfg k w₁.node = (.ok removed, w'.node) := by
  rw [blocknfLegacy] at h
  obtain ⟨x, w₂, hlook, h⟩ := Run.bind_eq_ok.1 h
  obtain ⟨rfl, rfl⟩ := look_eq_ok.1 hlook
  split at h
  · cases h
  obtain ⟨x, w₁, hlook, h⟩ := Run.bind_eq_ok.1 h
  obtain ⟨hx, rfl⟩ := look_eq_ok.1 hlook
  rcases x with e | _ | ⟨height, blockHash⟩
  · cases h
  · cases h
  · have hmax := hx.symm
    obtain ⟨_, _, hget, h⟩ := Run.bind_eq_ok.1 h
    obtain ⟨rfl, rfl⟩ := Run.get_eq_ok.1 hget
    refine ⟨height, _, rfl, blockMaxRam_height hmax, ?_⟩
    split at h
    · cases h
    split at h
    · cases h
    rename_i hallowed
    split at h
    · cases h
    split at h
    · cases h
    obtain ⟨n, hroll, rfl⟩ := locked_eq_ok.1 h
    exact ⟨by simpa using hallowed, hroll⟩

theorem Node.InStep.legacyRoll (H : n.InStep) {n' : Node π}
    (h : legacyRoll P cfg n.lastBlock n = (.ok removed, n')) :
    ∃ k, n.lastBlock = k + 1 ∧ n.BackAt n' k := by
  have hpos := H.ranged.pos
  obtain ⟨k, hk⟩ : ∃ k, n.lastBlock = k + 1 := ⟨n.lastBlock - 1, by omega⟩
  rw [hk] at h
  have hroll := legacyRoll_ok h
  refine ⟨k, hk, .rollTo H.ranged ?_ (by omega) hroll⟩
  by_contra hzero
  obtain rfl : k = 0 := by omega
  obtain ⟨st', removed, hash, stamp, hr, hh, -⟩ := rollToLocked_ok hroll
  have hnone : st'.blocks.entries = [] := by
    rw [rollback_blocks hr]
    refine List.filter_eq_nil_iff.2 fun e he => ?_
    have := (H.ranged.le_of_get? (OrdTable.mem_entries.1 he)).1
    simp only [Nat.le_zero, decide_eq_true_eq]
    omega
  rw [Store.lastBlockHash, Store.tip, OrdTable.lastKey?, hnone] at hh
  cases hh

end

end Bismuth
