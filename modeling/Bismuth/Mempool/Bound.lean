import Bismuth.Mempool.Afford
import Bismuth.Mempool.Gossip

/-!
# The bound of the pool

On a fixed ledger, whatever is merged, deleted and purged while the clock goes on: right after a purge every pooled
transaction is younger than the age limit and not ahead of the clock, and the pooled transactions of a sender cost no
more than the sender can spend. It takes timestamps that are numbers: a pooled NaN is never purged and never counted.
-/

namespace Bismuth
open Py

namespace Gossip
variable {π : Type}

/-! ## What a step does to the pool -/

section Changes
variable (P : Prims) (cfg : Config π) (mandatory : Text → Bool) (n : Node π)

def stampedBy (now : ℚ) (t : TxTuple) : Bool :=
  (Py.float t.timestamp : Except Err Number).toOption.any (floatLe · (.ofRat now))

/-- The pool loses entries, or a round on `n` admits a transaction. -/
inductive Changes (s s' : State) : Prop
  | shrink (clock : s.clock ≤ s'.clock) (txs : s'.pool.txs.entries.Sublist s.pool.txs.entries)
  | accept {bypass : Bool} {size : Number} {timeNow : ℚ} {tx : RawTx} {t : TxTuple} (clock : s'.clock = s.clock)
      (admitted : judge P cfg mandatory n s.pool bypass size timeNow s.clock tx = .ok (.admitted t))
      (stamp : stampedBy s.clock t = true)
      (txs : s'.pool.txs = s.pool.txs.set t.signature { fields := t, merged := intOf timeNow })

/-- A transaction that is admitted is stamped, as it is pooled, with a number that is not ahead of the clock. -/
def timely (s : State) : Event π → Bool
  | .round i n size =>
    match s.merges i with
    | .running ⟨_, bypass, timeNow, tx :: _⟩ =>
      match judge P cfg mandatory n s.pool bypass size timeNow s.clock tx with
      | .ok (.admitted t) => stampedBy s.clock t
      | _ => true
    | _ => true
  | _ => true

def timelyRun (peer : Text) : State → List (Event π) → Bool
  | _, [] => true
  | s, e :: es => timely P cfg mandatory s e &&
      (step P cfg mandatory peer s e).all fun s' => timelyRun peer s' es

end Changes

section Step
variable {P : Prims} {cfg : Config π} {mandatory : Text → Bool} {n : Node π} {peer : Text} {s s' : State}

theorem Changes.refl (hclock : s'.clock = s.clock) (hpool : s'.pool.txs = s.pool.txs) :
    Changes P cfg mandatory n s s' := .shrink hclock.ge (by rw [hpool])

theorem Changes.enter (i : Nat) (p : Text) (bypass : Bool) (data : Payload) :
    Changes P cfg mandatory n s (s.enter i p bypass data) := by
  fun_cases State.enter with
  | case1 => exact .refl rfl rfl
  | case2 => exact .refl rfl rfl
  | case3 => exact .refl rfl rfl
  | case4 => exact .refl rfl rfl
  | case5 =>
    rw [State.freezeBad]
    split <;> exact .refl rfl rfl

theorem Changes.round {i : Nat} {size : Number} {job : Job} {tx : RawTx} {txs : List RawTx}
    (ht : ∀ t, judge P cfg mandatory n s.pool job.sizeBypass size job.timeNow s.clock tx = .ok (.admitted t) →
      stampedBy s.clock t) :
    Changes P cfg mandatory n s (s.round P cfg mandatory peer i job tx txs n size) := by
  rw [State.round]
  cases hv : judge P cfg mandatory n s.pool job.sizeBypass size job.timeNow s.clock tx with
  | error => exact .refl rfl rfl
  | ok v =>
    cases v with
    | refused => exact .refl rfl rfl
    | evicted sig => exact .shrink le_rfl List.filter_sublist
    | inLedger stamp =>
      refine .refl rfl ?_
      dsimp only [State.receive, State.setMerge, Mempool.apply]
      split <;> rfl
    | admitted t =>
      dsimp only [State.receive]
      split
      · exact .accept rfl hv (ht t hv) rfl
      · exact .accept rfl hv (ht t hv) rfl

theorem step_changes {e : Event π} (hn : ∀ i n' size, e = .round i n' size → n' = n)
    (ht : timely P cfg mandatory s e) (h : step P cfg mandatory peer s e = some s') : Changes P cfg mandatory n s s' := by
  cases e with
  | tick d =>
    cases h
    exact .shrink (le_add_of_nonneg_right d.2) (List.Sublist.refl _)
  | enter i p bypass data =>
    rw [step] at h
    split at h <;> cases h
    exact .enter ..
  | round i n' size =>
    obtain rfl := hn i n' size rfl
    rw [step] at h
    split at h
    · rename_i hm
      cases h
      refine .round fun t hv => ?_
      rw [timely, hm] at ht
      dsimp only at ht hv
      rwa [hv] at ht
    · cases h
  | purge =>
    rw [step] at h
    split at h <;> cases h
    exact .shrink le_rfl List.filter_sublist
  | clear =>
    rw [step] at h
    split at h <;> cases h
    exact .shrink le_rfl (List.nil_sublist _)
  | delete sig =>
    rw [step] at h
    split at h <;> cases h
    exact .shrink le_rfl List.filter_sublist
  | forget =>
    cases h
    exact .refl rfl rfl
  | check =>
    rw [step] at h
    split at h
    · split at h <;> cases h
      exact .refl rfl rfl
    · split at h <;> cases h
      exact .refl rfl rfl
    · cases h
  | read =>
    rw [step] at h
    split at h
    · split at h <;> cases h
      exact .refl rfl rfl
    · cases h
  | answer data =>
    rw [step] at h
    split at h
    · cases h
      have henter : Changes P cfg mandatory n s (s.enter 0 peer false data) := .enter ..
      cases henter with
      | shrink hclock htxs => exact .shrink hclock htxs
      | accept hclock hadm hstamp htxs => exact .accept hclock hadm hstamp htxs
    · cases h
  | record =>
    rw [step] at h
    split at h
    · cases h
      refine .refl rfl ?_
      dsimp only [Mempool.sent]
      split <;> rfl
    · cases h
  | start | drop | acquire | release | look | transmit | stamp | lose =>
    rw [step] at h
    split at h <;> cases h
    exact .refl rfl rfl

end Step

/-! ## The invariant -/

section Bounded
variable (P : Prims) (cfg : Config π) (n : Node π)

/-- Every pooled transaction is stamped with a number that is not ahead of the clock, and the pending ones of an
address are covered. -/
structure Sound (s : State) : Prop where
  stamped : ∀ r ∈ s.pool.txs.values, stampedBy s.clock r.fields
  covered : ∀ address, s.pool.pending address s.clock = [] ∨ Covered P cfg n address (s.pool.pending address s.clock)

/-- The pool at the time `now`: the timestamps are within the age limit, and what the transactions of a sender cost
is covered. -/
structure Bounded (now : ℚ) (m : Mempool) : Prop where
  stamps : ∀ r ∈ m.txs.values, ∃ q z, Py.float r.fields.timestamp = (.ok (.fin q z) : Except Err Number) ∧
    now - refuseOlderThan < q ∧ q ≤ now
  covered : ∀ r ∈ m.txs.values,
    Covered P cfg n r.fields.address (m.txs.values.filter fun r' => r'.fields.address = r.fields.address)

end Bounded

section Run
variable {P : Prims} {cfg : Config π} {mandatory : Text → Bool} {n : Node π} {peer : Text} {s s' : State}

theorem floatLe_ofRat {x : Number} {p : ℚ} (h : floatLe x (.ofRat p) = true) :
    (∃ q z, x = .fin q z ∧ q ≤ p) ∨ x = .inf true := by
  cases x with
  | fin q z =>
    refine .inl ⟨q, z, rfl, ?_⟩
    simpa [floatLe, floatLt, Number.ofRat, lt] using h
  | inf a =>
    cases a with
    | true => exact .inr rfl
    | false => cases h
  | nan | snan => cases h

theorem stampedBy_mono {now now' : ℚ} {t : TxTuple} (h : stampedBy now t) (hle : now ≤ now') : stampedBy now' t := by
  rw [stampedBy, Option.any_eq_true] at h ⊢
  obtain ⟨x, hx, h⟩ := h
  refine ⟨x, hx, ?_⟩
  obtain ⟨q, z, rfl, hq⟩ | rfl := floatLe_ofRat h
  · simpa [floatLe, floatLt, Number.ofRat, lt] using hq.trans hle
  · rfl

theorem recent_anti {now now' : ℚ} {r : PoolTx} (hle : now ≤ now') (h : Mempool.recent now' r) :
    Mempool.recent now r := by
  rw [Mempool.recent, Option.any_eq_true] at h ⊢
  obtain ⟨x, hx, h⟩ := h
  refine ⟨x, hx, ?_⟩
  cases x with
  | fin q z =>
    have hq : now' - refuseOlderThan < q := by simpa [floatLt, Number.ofRat, lt] using h
    have : now - refuseOlderThan < q := by linarith
    simpa [floatLt, Number.ofRat, lt] using this
  | inf a => exact h
  | nan | snan => cases h

theorem pending_sublist {m m' : Mempool} {now now' : ℚ} (hle : now ≤ now')
    (h : m'.txs.entries.Sublist m.txs.entries) (address : Text) :
    (m'.pending address now').Sublist (m.pending address now) := by
  have hvalues : m'.txs.values.Sublist m.txs.values := h.map _
  refine (List.monotone_filter_right _ fun r hr => ?_).trans (hvalues.filter _)
  rw [Bool.and_eq_true] at hr ⊢
  exact hr.imp_right (recent_anti hle)

theorem Sound.shrink (hs : Sound P cfg n s) (hclock : s.clock ≤ s'.clock)
    (htxs : s'.pool.txs.entries.Sublist s.pool.txs.entries) : Sound P cfg n s' where
  stamped r hr := stampedBy_mono (hs.stamped r (Dict.values_subset htxs.subset hr)) hclock
  covered address := by
    have hsub := pending_sublist hclock htxs address
    obtain hnil | hcov := hs.covered address
    · rw [hnil] at hsub
      exact .inl (List.sublist_nil.1 hsub)
    · exact .inr (hcov.sublist hsub)

theorem Sound.accept (himm : ImmatureNonneg P cfg n) (hbase : ∃ base z, n.baseFee = .fin base z ∧ 0 ≤ base)
    (hs : Sound P cfg n s) {bypass : Bool} {size : Number} {timeNow : ℚ} {tx : RawTx} {t : TxTuple}
    (hclock : s'.clock = s.clock)
    (hadm : judge P cfg mandatory n s.pool bypass size timeNow s.clock tx = .ok (.admitted t))
    (hstamp : stampedBy s.clock t)
    (htxs : s'.pool.txs = s.pool.txs.set t.signature { fields := t, merged := intOf timeNow }) :
    Sound P cfg n s' := by
  obtain ⟨t', hnorm, -, -, hnew, hafford⟩ := judge_admitted hadm
  obtain ⟨rfl, u, us, x, w, hu, hus, hx, hw, hle⟩ := afford_admitted himm hbase
    (fun x u hx hu => normalise_amount hnorm hx hu) (hs.covered t'.address) hafford
  have hvalues : s'.pool.txs.values = s.pool.txs.values ++ [{ fields := t, merged := intOf timeNow }] := by
    rw [htxs, Dict.values, Dict.entries_set_of_get?_eq_none _ hnew, List.map_append]
    rfl
  refine ⟨fun r hr => ?_, fun address => ?_⟩
  · rw [hvalues, List.mem_append, List.mem_singleton] at hr
    rw [hclock]
    obtain hr | rfl := hr
    · exact hs.stamped r hr
    · exact hstamp
  · rw [Mempool.pending, hvalues, hclock, List.filter_append]
    by_cases hr : t.address = address ∧ Mempool.recent s.clock { fields := t, merged := intOf timeNow }
    · -- the new one is pending beside the others
      obtain ⟨rfl, hrecent⟩ := hr
      refine .inr ⟨us ++ [u], x, w, ?_, hx, hw, by simpa using hle⟩
      refine List.rel_append hus ?_
      simpa [hrecent] using hu
    · have hnil : [(⟨t, intOf timeNow⟩ : PoolTx)].filter
          (fun r => r.fields.address = address && Mempool.recent s.clock r) = [] := by
        simpa using hr
      rw [hnil, List.append_nil]
      exact hs.covered address

/-- One step on the ledger of `n`. -/
theorem step_sound (himm : ImmatureNonneg P cfg n) (hbase : ∃ base z, n.baseFee = .fin base z ∧ 0 ≤ base)
    (hs : Sound P cfg n s) {e : Event π} (hn : ∀ i n' size, e = .round i n' size → n' = n)
    (ht : timely P cfg mandatory s e) (h : step P cfg mandatory peer s e = some s') : Sound P cfg n s' := by
  cases step_changes hn ht h with
  | shrink hclock htxs => exact hs.shrink hclock htxs
  | accept hclock hadm hstamp htxs => exact hs.accept himm hbase hclock hadm hstamp htxs

theorem run_sound (himm : ImmatureNonneg P cfg n) (hbase : ∃ base z, n.baseFee = .fin base z ∧ 0 ≤ base)
    (hs : Sound P cfg n s) {es : List (Event π)} (hn : ∀ i n' size, .round i n' size ∈ es → n' = n)
    (ht : timelyRun P cfg mandatory peer s es) (h : run P cfg mandatory peer s es = some s') : Sound P cfg n s' := by
  induction es generalizing s with
  | nil =>
    cases h
    exact hs
  | cons e es ih =>
    obtain ⟨s₁, hstep, hrun⟩ := Option.bind_eq_some_iff.1 h
    rw [timelyRun, hstep, Bool.and_eq_true] at ht
    have hs₁ := step_sound himm hbase hs (fun i n' size he => hn i n' size (by simp [he])) ht.1 hstep
    exact ih hs₁ (fun i n' size he => hn i n' size (by simp [he])) ht.2 hrun

theorem Sound.purge (hs : Sound P cfg n s) : Bounded P cfg n s.clock (s.pool.purge s.clock) := by
  have hstamps : ∀ r ∈ (s.pool.purge s.clock).txs.values, ∃ q z,
      Py.float r.fields.timestamp = (.ok (.fin q z) : Except Err Number) ∧ s.clock - refuseOlderThan < q ∧
        q ≤ s.clock := by
    intro r hr
    obtain ⟨e, he, rfl⟩ := List.mem_map.1 hr
    obtain ⟨he, hkeep⟩ := List.mem_filter.1 he
    have hstamp := hs.stamped e.2 (List.mem_map_of_mem he)
    rw [stampedBy, Option.any_eq_true] at hstamp
    obtain ⟨x, hx, hle⟩ := hstamp
    dsimp only at hkeep
    rw [hx, Option.any_some, Bool.not_eq_true'] at hkeep
    obtain ⟨q, z, rfl, hq⟩ | rfl := floatLe_ofRat hle
    · refine ⟨q, z, Except.toOption_eq_some.1 hx, ?_, hq⟩
      simpa [floatLe, floatLt, Number.ofRat, lt] using hkeep
    · cases hkeep
  refine ⟨hstamps, fun r hr => ?_⟩
  have hpending : (s.pool.purge s.clock).pending r.fields.address s.clock =
      (s.pool.purge s.clock).txs.values.filter fun r' => r'.fields.address = r.fields.address := by
    refine List.filter_congr fun r' hr' => ?_
    obtain ⟨q, z, hread, hlt, -⟩ := hstamps r' hr'
    have hrecent : Mempool.recent s.clock r' = true := by
      rw [Mempool.recent, hread]
      simpa [Except.toOption, floatLt, Number.ofRat, lt] using hlt
    rw [hrecent, Bool.and_true]
  have hpurged : Sound P cfg n { s with pool := s.pool.purge s.clock } := hs.shrink le_rfl List.filter_sublist
  obtain hnil | hcov := hpurged.covered r.fields.address
  · have hmem : r ∈ (s.pool.purge s.clock).pending r.fields.address s.clock := by
      rw [hpending]
      exact List.mem_filter.2 ⟨hr, decide_eq_true rfl⟩
    rw [hnil] at hmem
    cases hmem
  · rwa [hpending] at hcov

end Run

section Sample

private def merged (txs : List RawTx) : List (Event Unit) :=
  [.enter 0 peerB false (.txs txs), .start 1, .acquire 1] ++
    txs.map (fun _ => .round 1 genesisNode (.ofRat 0)) ++ [.release 1]

private theorem round_merged {txs : List RawTx} {i : Nat} {n : Node Unit} {size : Number}
    (h : .round i n size ∈ merged txs) : n = genesisNode := by
  simp only [merged, List.mem_append, List.mem_map, List.mem_cons, List.not_mem_nil, or_false] at h
  rcases h with ((h | h | h) | ⟨-, -, h⟩) | h <;> cases h
  rfl

private theorem immatureNonneg_genesisNode : ImmatureNonneg .toy config genesisNode := fun h => by
  cases h

/-- Two transactions of one sender, of which the second is refused: they cost more than the sender has. -/
private def twoSpends : List RawTx :=
  [{ spend with amount := .str "0.60000000".toList },
    { spend with amount := .str "0.60000000".toList, signature := "BBBB".toList }]

private def nanSpends : List RawTx := twoSpends.map fun tx => { tx with timestamp := .str "nan".toList }

/-- A transaction that is stamped with a time just before the clock, which its two decimals round up. -/
private def roundedSpend : RawTx := { spend with timestamp := .str "1700000099.996".toList }

/-- A timestamp of the pool that is no number, by a sender whose transactions cost more than is left. -/
private def overspent (m : Mempool) : Bool :=
  m.txs.values.any fun r => (Py.float r.fields.timestamp : Except Err Number).toOption = some .nan &&
    match spendable .toy config genesisNode r.fields.address,
      (m.txs.values.filter fun r' => r'.fields.address = r.fields.address).foldlM
        (fun d r => do add d (← cost genesisNode.baseFee r.fields)) (.ofRat 0) with
    | .ok x, .ok c => (lt x c : Except Err Bool).toOption = some true
    | _, _ => false

/-- A timestamp of the pool that is after the clock. -/
private def aheadOf (clock : ℚ) (m : Mempool) : Bool :=
  m.txs.values.any fun r => match (Py.float r.fields.timestamp : Except Err Number) with
    | .ok (.fin q _) => decide (clock < q)
    | _ => false

private theorem not_covered_of_overspent {m : Mempool} (h : overspent m = true) :
    ∃ r ∈ m.txs.values, Py.float r.fields.timestamp = (.ok .nan : Except Err Number) ∧
      ¬Covered .toy config genesisNode r.fields.address
        (m.txs.values.filter fun r' => r'.fields.address = r.fields.address) := by
  obtain ⟨r, hr, h⟩ := List.any_eq_true.1 h
  rw [Bool.and_eq_true, decide_eq_true_eq] at h
  refine ⟨r, hr, Except.toOption_eq_some.1 h.1, fun hcov => ?_⟩
  have hlt := h.2
  split at hlt
  · rename_i x c hx hc
    rw [hcov.not_lt hx hc] at hlt
    cases hlt
  · cases hlt

end Sample

end Gossip

end Bismuth
