import Bismuth.Genesis
import Bismuth.Mempool.Merge
import Mathlib

/-!
# Gossip

The exchanges of `worker.py` with one peer, step by step, between the steps of other threads: merges from any
peer, purges, deletions, and the passing of time. The worker reads the pool, transmits what was merged since the
last send, merges the answer, and only then records the time of the send.
-/

namespace Bismuth
open Py

namespace Gossip
variable {π : Type}

/-- What a peer hands to `merge`. -/
inductive Payload where
  | txs (l : List RawTx)
  /-- Anything that is no sequence. -/
  | other

/-- The arguments of a call of `merge` and what it keeps while it runs. -/
structure Job where
  peer : Text
  sizeBypass : Bool
  timeNow : ℚ
  txs : List RawTx

/-- Where a thread is in `merge`. -/
inductive Merge where
  | idle
  /-- The early tests are passed and the clock is not read yet. -/
  | entered (job : Job)
  /-- The clock is read and the lock of the pool is awaited. -/
  | timed (job : Job)
  /-- The lock is held. -/
  | running (job : Job)

/-- Where the worker is in an exchange. `pool` is the pool as the exchange read it, at `time`. -/
inductive Exchange where
  | idle
  | sendable
  /-- The time of the last send is read. -/
  | looked (since : Option ℚ)
  /-- The pool is read. -/
  | read (pool out : List PoolTx) (time : ℚ)
  | transmitted (pool : List PoolTx) (time : ℚ)
  /-- The answer is being merged. -/
  | answered (pool : List PoolTx) (time : ℚ)
  /-- The clock is read for the record. -/
  | stamped (pool : List PoolTx) (now : ℚ)
  | finished (pool : List PoolTx)

structure State where
  pool : Mempool
  clock : ℚ
  /-- The merge that holds the lock of the pool. -/
  lock : Option Nat := none
  /-- The merges in progress; the worker's own is the first. -/
  merges : Nat → Merge := fun _ => .idle
  exchange : Exchange := .idle
  /-- What was transmitted to the peer. -/
  sent : List TxTuple := []
  /-- What was merged from the peer. -/
  received : List TxTuple := []

inductive Event (π : Type) where
  | tick (d : ℚ≥0)
  | enter (i : Nat) (peer : Text) (sizeBypass : Bool) (data : Payload)
  | start (i : Nat)
  /-- The ledger is locked and the merge gives up. -/
  | drop (i : Nat)
  | acquire (i : Nat)
  | round (i : Nat) (n : Node π) (size : Number)
  | release (i : Nat)
  | purge
  | clear
  | delete (signature : Text)
  /-- `status` forgets the peers that were not sent to for a quarter of an hour. -/
  | forget
  | check
  | look
  | read
  | transmit
  | answer (data : Payload)
  | stamp
  | record
  /-- The connection is lost. -/
  | lose

namespace State
variable (P : Prims) (cfg : Config π) (mandatory : Text → Bool) (peer : Text) (s : State)

def setMerge (i : Nat) (m : Merge) : State := { s with merges := fun j => if j = i then m else s.merges j }

/-- A bad payload freezes its sender for ten minutes. -/
def freezeBad (p : Text) : State :=
  if p = localhost then s else { s with pool := { s.pool with peersSent := s.pool.peersSent.set p (s.clock + 600) } }

/-- The tests of `merge` before it looks at the ledger's lock. -/
def enter (i : Nat) (p : Text) (sizeBypass : Bool) : Payload → State
  | .txs [] => s
  | .txs l => if (s.pool.peersSent.get? p).any (s.clock < ·) && p ≠ localhost then s
    else s.setMerge i (.entered ⟨p, sizeBypass, 0, l⟩)
  | .other => if (s.pool.peersSent.get? p).any (s.clock < ·) && p ≠ localhost then s else s.freezeBad p

/-- The worker's peer is the one a transaction was merged from. -/
def receive (job : Job) : Admission → State
  | .admitted t => if job.peer = peer then { s with received := s.received ++ [t] } else s
  | _ => s

/-- One round of the loop; an exception ends the loop. -/
def round (i : Nat) (job : Job) (tx : RawTx) (txs : List RawTx) (n : Node π) (size : Number) : State :=
  match judge P cfg mandatory n s.pool job.sizeBypass size job.timeNow s.clock tx with
  | .ok v => ({ s with pool := s.pool.apply job.peer job.timeNow s.clock v }.setMerge i
      (.running { job with txs })).receive peer job v
  | .error _ => s.setMerge i (.running { job with txs := [] })

/-- The entries of `peers_sent` that `status` keeps. -/
def forget : State :=
  { s with pool := { s.pool with peersSent :=
      ⟨s.pool.peersSent.entries.filter fun e => s.clock - 15 * 60 < e.2,
        s.pool.peersSent.nodup.sublist (List.filter_sublist.map Prod.fst)⟩ } }

end State

def step (P : Prims) (cfg : Config π) (mandatory : Text → Bool) (peer : Text) (s : State) : Event π → Option State
  | .tick d => some { s with clock := s.clock + d }
  | .enter i p bypass data =>
    match s.merges (i + 1) with
    | .idle => some (s.enter (i + 1) p bypass data)
    | _ => none
  | .start i =>
    match s.merges i with
    | .entered job => some (s.setMerge i (.timed { job with timeNow := s.clock }))
    | _ => none
  | .drop i =>
    match s.merges i with
    | .entered _ => some (s.setMerge i .idle)
    | _ => none
  | .acquire i =>
    match s.merges i, s.lock with
    | .timed job, none => some ({ s with lock := some i }.setMerge i (.running job))
    | _, _ => none
  | .round i n size =>
    match s.merges i with
    | .running ⟨p, bypass, now, tx :: txs⟩ =>
      some (s.round P cfg mandatory peer i ⟨p, bypass, now, tx :: txs⟩ tx txs n size)
    | _ => none
  | .release i =>
    match s.merges i with
    | .running ⟨_, _, _, []⟩ => some ({ s with lock := none }.setMerge i .idle)
    | _ => none
  | .purge => if s.lock = none then some { s with pool := s.pool.purge s.clock } else none
  | .clear => if s.lock = none then some { s with pool := s.pool.clear } else none
  | .delete sig => if s.lock = none then some { s with pool := s.pool.deleteTransaction sig } else none
  | .forget => some s.forget
  | .check =>
    match s.exchange with
    | .idle | .finished _ => if s.pool.sendable peer s.clock then some { s with exchange := .sendable } else none
    | _ => none
  | .look =>
    match s.exchange with
    | .sendable => some { s with exchange := .looked ((s.pool.peersSent.get? peer).map (· - 5)) }
    | _ => none
  | .read =>
    match s.exchange with
    | .looked since =>
      if s.lock = none then
        some { s with exchange := .read s.pool.txs.values (s.pool.transactions since) s.clock }
      else none
    | _ => none
  | .transmit =>
    match s.exchange with
    | .read pool out time =>
      some { s with exchange := .transmitted pool time, sent := s.sent ++ out.map (·.fields) }
    | _ => none
  | .answer data =>
    match s.exchange, s.merges 0 with
    | .transmitted pool time, .idle => some { s.enter 0 peer false data with exchange := .answered pool time }
    | _, _ => none
  | .stamp =>
    match s.exchange, s.merges 0 with
    | .answered pool _, .idle => some { s with exchange := .stamped pool s.clock }
    | _, _ => none
  | .record =>
    match s.exchange with
    | .stamped pool now => some { s with pool := s.pool.sent peer now, exchange := .finished pool }
    | _ => none
  | .lose =>
    match s.merges 0 with
    | .idle => some { s with exchange := .idle }
    | _ => none

def run (P : Prims) (cfg : Config π) (mandatory : Text → Bool) (peer : Text) : State → List (Event π) → Option State
  | s, [] => some s
  | s, e :: es => (step P cfg mandatory peer s e).bind fun s' => run P cfg mandatory peer s' es

/-! ## The promptness under which nothing is lost -/

/-- A merge from elsewhere admits a transaction at most `a` seconds after it read the clock, an exchange reads the
clock for the record at most `b` seconds after it read the pool, and the peer is not frozen. -/
def prompt (P : Prims) (cfg : Config π) (mandatory : Text → Bool) (peer : Text) (a b : ℚ) (s : State) :
    Event π → Bool
  | .enter _ p _ .other => p ≠ peer || peer = localhost
  | .answer .other => peer = localhost
  | .round i n size =>
    match s.merges i with
    | .running ⟨p, bypass, timeNow, tx :: _⟩ =>
      match judge P cfg mandatory n s.pool bypass size timeNow s.clock tx with
      | .ok v => if p = peer then !freezes peer timeNow v else !v.isAdmitted || s.clock ≤ timeNow + a
      | .error _ => true
    | _ => true
  | .stamp =>
    match s.exchange with
    | .answered _ time => s.clock ≤ time + b
    | _ => true
  | _ => true

def promptRun (P : Prims) (cfg : Config π) (mandatory : Text → Bool) (peer : Text) (a b : ℚ) :
    State → List (Event π) → Bool
  | _, [] => true
  | s, e :: es => prompt P cfg mandatory peer a b s e &&
      (step P cfg mandatory peer s e).all fun s' => promptRun P cfg mandatory peer a b s' es

/-! ## Nothing is lost -/

/-- A transaction was transmitted to the peer or merged from it. -/
def Delivered (s : State) (r : PoolTx) : Prop := r.fields ∈ s.sent ∨ r.fields ∈ s.received

/-- A transaction was merged within the margin of a send at `t`. -/
def Within (t : ℚ) (r : PoolTx) : Prop := t - 5 < r.merged

/-- What an exchange knows in its phases. -/
def Exchange.Sound (b : ℚ) (s : State) : Exchange → Prop
  | .idle | .sendable => True
  | .looked since => ∀ x, since = some x → x ≤ s.clock - 5 ∧ ∀ r ∈ s.pool.txs.values, Delivered s r ∨ x < r.merged
  | .read pool out time => time ≤ s.clock ∧ (∀ r ∈ pool, Delivered s r ∨ r ∈ out) ∧
      ∀ r ∈ s.pool.txs.values, (Delivered s r ∨ r ∈ out) ∨ Within (time + b) r
  | .transmitted pool time | .answered pool time => time ≤ s.clock ∧ (∀ r ∈ pool, Delivered s r) ∧
      ∀ r ∈ s.pool.txs.values, Delivered s r ∨ Within (time + b) r
  | .stamped pool now => now ≤ s.clock ∧ (∀ r ∈ pool, Delivered s r) ∧
      ∀ r ∈ s.pool.txs.values, Delivered s r ∨ Within now r
  | .finished pool => ∀ r ∈ pool, Delivered s r

/-- What was not delivered was merged within the margin of the last send, which is past. -/
structure Inv (peer : Text) (b : ℚ) (s : State) : Prop where
  past : ∀ t, s.pool.peersSent.get? peer = some t → t ≤ s.clock
  within : ∀ t, s.pool.peersSent.get? peer = some t → ∀ r ∈ s.pool.txs.values, Delivered s r ∨ Within t r
  phase : s.exchange.Sound b s

/-- A step beside the exchange: what it puts into the pool is delivered or was merged not long ago. -/
structure Beside (peer : Text) (a : ℚ) (s s' : State) : Prop where
  clock : s.clock ≤ s'.clock
  exchange : s'.exchange = s.exchange
  sent : s.sent ⊆ s'.sent
  received : s.received ⊆ s'.received
  lastSend : ∀ t, s'.pool.peersSent.get? peer = some t → s.pool.peersSent.get? peer = some t
  new : ∀ r ∈ s'.pool.txs.values, r ∈ s.pool.txs.values ∨ Delivered s' r ∨ s.clock - a - 1 < r.merged

section Beside
variable {peer : Text} {a b : ℚ} {s s' : State}

theorem Beside.delivered (h : Beside peer a s s') {r : PoolTx} (hr : Delivered s r) : Delivered s' r :=
  hr.imp (fun h' => h.sent h') (fun h' => h.received h')

/-- A condition that holds of what was merged not long ago goes on to hold of all that is not delivered. -/
theorem Beside.pool (h : Beside peer a s s') {p : PoolTx → Prop}
    (hold : ∀ r ∈ s.pool.txs.values, Delivered s r ∨ p r) (hnew : ∀ r : PoolTx, s.clock - a - 1 < r.merged → p r) :
    ∀ r ∈ s'.pool.txs.values, Delivered s' r ∨ p r := by
  intro r hr
  obtain hr | hr | hr := h.new r hr
  · exact (hold r hr).imp_left h.delivered
  · exact .inl hr
  · exact .inr (hnew r hr)

theorem Beside.sound (hab : a + b ≤ 4) (hb : 0 ≤ b) (h : Beside peer a s s') {e : Exchange} (he : e.Sound b s) :
    e.Sound b s' := by
  have hclock := h.clock
  cases e with
  | idle => trivial
  | sendable => trivial
  | looked since =>
    intro x hx
    obtain ⟨hle, hpool⟩ := he x hx
    exact ⟨by linarith, h.pool hpool fun r hr => by linarith⟩
  | read pool out time =>
    obtain ⟨htime, hread, hpool⟩ := he
    refine ⟨by linarith, fun r hr => (hread r hr).imp_left h.delivered, fun r hr => ?_⟩
    have := h.pool (p := fun r => r ∈ out ∨ Within (time + b) r) (fun r hr => or_assoc.1 (hpool r hr))
      (fun r hr => .inr (by rw [Within]; linarith)) r hr
    exact or_assoc.2 this
  | transmitted pool time =>
    obtain ⟨htime, hread, hpool⟩ := he
    exact ⟨by linarith, fun r hr => h.delivered (hread r hr), h.pool hpool fun r hr => by rw [Within]; linarith⟩
  | answered pool time =>
    obtain ⟨htime, hread, hpool⟩ := he
    exact ⟨by linarith, fun r hr => h.delivered (hread r hr), h.pool hpool fun r hr => by rw [Within]; linarith⟩
  | stamped pool now =>
    obtain ⟨htime, hread, hpool⟩ := he
    exact ⟨by linarith, fun r hr => h.delivered (hread r hr), h.pool hpool fun r hr => by rw [Within]; linarith⟩
  | finished pool => exact fun r hr => h.delivered (he r hr)

theorem Beside.inv (hab : a + b ≤ 4) (hb : 0 ≤ b) (h : Beside peer a s s') (hs : Inv peer b s) : Inv peer b s' where
  past t ht := (hs.past t (h.lastSend t ht)).trans h.clock
  within t ht := by
    have hpast := hs.past t (h.lastSend t ht)
    exact h.pool (hs.within t (h.lastSend t ht)) fun r hr => by rw [Within]; linarith
  phase := by
    rw [h.exchange]
    exact h.sound hab hb hs.phase

/-- A step that leaves the pool, the clock, the exchange and what was delivered. -/
theorem Beside.refl (hpool : s'.pool = s.pool) (hclock : s'.clock = s.clock) (hex : s'.exchange = s.exchange)
    (hsent : s'.sent = s.sent) (hrec : s'.received = s.received) : Beside peer a s s' where
  clock := hclock.ge
  exchange := hex
  sent := by rw [hsent]; exact List.Subset.refl _
  received := by rw [hrec]; exact List.Subset.refl _
  lastSend t ht := hpool ▸ ht
  new r hr := .inl (hpool ▸ hr)

/-- A step that only takes entries out of the pool or out of `peers_sent`. -/
theorem Beside.shrink {m : Mempool} (htxs : m.txs.entries ⊆ s.pool.txs.entries)
    (hsent : m.peersSent.entries ⊆ s.pool.peersSent.entries) : Beside peer a s { s with pool := m } where
  clock := le_rfl
  exchange := rfl
  sent := List.Subset.refl _
  received := List.Subset.refl _
  lastSend _ ht := Dict.get?_of_subset hsent ht
  new _ hr := .inl (Dict.values_subset htxs hr)

theorem Beside.freezeBad {p : Text} (h : p = peer → peer = localhost) : Beside peer a s (s.freezeBad p) := by
  rw [State.freezeBad]
  split
  · exact .refl rfl rfl rfl rfl rfl
  · rename_i hp
    refine ⟨le_rfl, rfl, List.Subset.refl _, List.Subset.refl _, fun t ht => ?_, fun r hr => .inl hr⟩
    have hne : p ≠ peer := fun he => hp (he ▸ h he)
    rwa [Dict.get?_set, if_neg hne] at ht

theorem Beside.enter {i : Nat} {p : Text} {bypass : Bool} {data : Payload}
    (h : data = .other → p = peer → peer = localhost) : Beside peer a s (s.enter i p bypass data) := by
  cases data with
  | txs l =>
    cases l with
    | nil => exact .refl rfl rfl rfl rfl rfl
    | cons tx l =>
      rw [State.enter]
      · split
        · exact .refl rfl rfl rfl rfl rfl
        · exact .refl rfl rfl rfl rfl rfl
      · exact nofun
  | other =>
    rw [State.enter]
    split
    · exact .refl rfl rfl rfl rfl rfl
    · exact .freezeBad (h rfl)

variable {P : Prims} {cfg : Config π} {mandatory : Text → Bool}

/-- What a verdict does to the pool, for a merge that does not freeze the peer and admits promptly. -/
theorem Beside.apply {i : Nat} {job : Job} {m : Merge} {v : Admission}
    (hfreeze : job.peer = peer → freezes peer job.timeNow v = false)
    (hprompt : ∀ t, v = .admitted t → job.peer ≠ peer → s.clock ≤ job.timeNow + a) :
    Beside peer a s
      (({ s with pool := s.pool.apply job.peer job.timeNow s.clock v }.setMerge i m).receive peer job v) := by
  cases v with
  | refused => exact .refl rfl rfl rfl rfl rfl
  | evicted sig =>
    refine ⟨le_rfl, rfl, List.Subset.refl _, List.Subset.refl _, fun t ht => ht, fun r hr => .inl ?_⟩
    exact Dict.values_subset (Dict.entries_erase_subset _ _) hr
  | inLedger stamp =>
    refine ⟨le_rfl, rfl, List.Subset.refl _, List.Subset.refl _, fun t ht => ?_, fun r hr => .inl ?_⟩
    · simp only [State.receive, State.setMerge, Mempool.apply] at ht
      split at ht
      · rename_i hf
        have hne : job.peer ≠ peer := fun he => absurd (he ▸ hf) (Bool.eq_false_iff.1 (hfreeze he))
        rwa [Dict.get?_set, if_neg hne] at ht
      · exact ht
    · simp only [State.receive, State.setMerge, Mempool.apply] at hr
      split at hr <;> exact hr
  | admitted t =>
    by_cases hpeer : job.peer = peer
    · rw [State.receive, if_pos hpeer]
      refine ⟨le_rfl, rfl, List.Subset.refl _, List.subset_append_left _ _, fun t ht => ht, fun r hr => ?_⟩
      obtain rfl | hr := Dict.mem_values_set hr
      · exact .inr (.inl (.inr (List.mem_append_right _ (List.mem_singleton.2 rfl))))
      · exact .inl hr
    · rw [State.receive, if_neg hpeer]
      refine ⟨le_rfl, rfl, List.Subset.refl _, List.Subset.refl _, fun t ht => ht, fun r hr => ?_⟩
      obtain rfl | hr := Dict.mem_values_set hr
      · have hlt := lt_intOf job.timeNow
        have hle := hprompt t rfl hpeer
        exact .inr (.inr (by dsimp only; linarith))
      · exact .inl hr

theorem Beside.round {i : Nat} {n : Node π} {size : Number} {p : Text} {bypass : Bool} {timeNow : ℚ} {tx : RawTx}
    {txs : List RawTx} (hm : s.merges i = .running ⟨p, bypass, timeNow, tx :: txs⟩)
    (hp : prompt P cfg mandatory peer a b s (.round i n size)) :
    Beside peer a s (s.round P cfg mandatory peer i ⟨p, bypass, timeNow, tx :: txs⟩ tx txs n size) := by
  rw [State.round]
  rw [prompt, hm] at hp
  dsimp only at hp ⊢
  cases hv : judge P cfg mandatory n s.pool bypass size timeNow s.clock tx with
  | error => exact .refl rfl rfl rfl rfl rfl
  | ok v =>
    rw [hv] at hp
    refine .apply ?_ ?_
    · intro hpeer
      simpa [if_pos hpeer] using hp
    · rintro t rfl hpeer
      simpa [if_neg hpeer, Admission.isAdmitted] using hp

end Beside

section Step
variable {P : Prims} {cfg : Config π} {mandatory : Text → Bool} {peer : Text} {a b : ℚ} {s s' : State}

/-- The last send of the peer is read and the margin taken off. -/
theorem Inv.look (hs : Inv peer b s) :
    Inv peer b { s with exchange := .looked ((s.pool.peersSent.get? peer).map (· - 5)) } where
  past := hs.past
  within := hs.within
  phase := by
    intro x hx
    obtain ⟨t, ht, rfl⟩ := Option.map_eq_some_iff.1 hx
    exact ⟨by linarith [hs.past t ht], hs.within t ht⟩

theorem Inv.read (hs : Inv peer b s) {since : Option ℚ} (h : s.exchange = .looked since) :
    Inv peer b { s with exchange := .read s.pool.txs.values (s.pool.transactions since) s.clock } := by
  have hphase : (Exchange.looked since).Sound b s := h ▸ hs.phase
  have hpool : ∀ r ∈ s.pool.txs.values, Delivered s r ∨ r ∈ s.pool.transactions since := by
    intro r hr
    cases since with
    | none => exact .inr (Mempool.mem_byAmount.2 (List.mem_filter.2 ⟨hr, rfl⟩))
    | some x =>
      refine ((hphase x rfl).2 r hr).imp_right fun hlt => ?_
      exact Mempool.mem_byAmount.2 (List.mem_filter.2 ⟨hr, decide_eq_true hlt⟩)
  exact ⟨hs.past, hs.within, le_rfl, hpool, fun r hr => .inl (hpool r hr)⟩

theorem Inv.transmit (hs : Inv peer b s) {pool out : List PoolTx} {time : ℚ} (h : s.exchange = .read pool out time) :
    Inv peer b { s with exchange := .transmitted pool time, sent := s.sent ++ out.map (·.fields) } := by
  obtain ⟨htime, hread, hpool⟩ : (Exchange.read pool out time).Sound b s := h ▸ hs.phase
  have hdel : ∀ r, Delivered s r ∨ r ∈ out →
      Delivered { s with exchange := .transmitted pool time, sent := s.sent ++ out.map (·.fields) } r := by
    rintro r ((hr | hr) | hr)
    · exact .inl (List.mem_append_left _ hr)
    · exact .inr hr
    · exact .inl (List.mem_append_right _ (List.mem_map_of_mem hr))
  exact ⟨hs.past, fun t ht r hr => (hs.within t ht r hr).imp_left fun hr => hdel r (.inl hr), htime,
    fun r hr => hdel r (hread r hr), fun r hr => (hpool r hr).imp_left (hdel r)⟩

theorem Inv.stamp (hs : Inv peer b s) {pool : List PoolTx} {time : ℚ} (h : s.exchange = .answered pool time)
    (hle : s.clock ≤ time + b) : Inv peer b { s with exchange := .stamped pool s.clock } := by
  obtain ⟨-, hread, hpool⟩ : (Exchange.answered pool time).Sound b s := h ▸ hs.phase
  refine ⟨hs.past, hs.within, le_rfl, hread, fun r hr => (hpool r hr).imp_right fun hr => ?_⟩
  rw [Within] at hr ⊢
  linarith

theorem Inv.record (hs : Inv peer b s) {pool : List PoolTx} {now : ℚ} (h : s.exchange = .stamped pool now) :
    Inv peer b { s with pool := s.pool.sent peer now, exchange := .finished pool } := by
  obtain ⟨hnow, hread, hpool⟩ : (Exchange.stamped pool now).Sound b s := h ▸ hs.phase
  rw [Mempool.sent]
  split
  · refine ⟨fun t ht => ?_, fun t ht r hr => ?_, hread⟩
    · rw [Dict.get?_set, if_pos rfl] at ht
      cases ht
      exact hnow
    · rw [Dict.get?_set, if_pos rfl] at ht
      cases ht
      exact hpool r hr
  · exact ⟨hs.past, hs.within, hread⟩

theorem step_inv (hab : a + b ≤ 4) (hb : 0 ≤ b) (hs : Inv peer b s) {e : Event π}
    (hp : prompt P cfg mandatory peer a b s e) (h : step P cfg mandatory peer s e = some s') : Inv peer b s' := by
  have beside : Beside peer a s s' → Inv peer b s' := fun h => h.inv hab hb hs
  cases e with
  | tick d =>
    cases h
    refine beside ⟨?_, rfl, List.Subset.refl _, List.Subset.refl _, fun t ht => ht, fun r hr => .inl hr⟩
    exact le_add_of_nonneg_right d.2
  | enter i p bypass data =>
    rw [step] at h
    split at h
    · cases h
      refine beside (.enter ?_)
      rintro rfl hpeer
      simpa [prompt, hpeer] using hp
    · cases h
  | start i =>
    rw [step] at h
    split at h <;> cases h
    exact beside (.refl rfl rfl rfl rfl rfl)
  | drop i =>
    rw [step] at h
    split at h <;> cases h
    exact beside (.refl rfl rfl rfl rfl rfl)
  | acquire i =>
    rw [step] at h
    split at h <;> cases h
    exact beside (.refl rfl rfl rfl rfl rfl)
  | round i n size =>
    rw [step] at h
    split at h
    · rename_i hm
      cases h
      exact beside (.round hm hp)
    · cases h
  | release i =>
    rw [step] at h
    split at h <;> cases h
    exact beside (.refl rfl rfl rfl rfl rfl)
  | purge =>
    rw [step] at h
    split at h <;> cases h
    exact beside (.shrink List.filter_sublist.subset (List.Subset.refl _))
  | clear =>
    rw [step] at h
    split at h <;> cases h
    exact beside (.shrink (List.nil_subset _) (List.Subset.refl _))
  | delete sig =>
    rw [step] at h
    split at h <;> cases h
    exact beside (.shrink (Dict.entries_erase_subset _ _) (List.Subset.refl _))
  | forget =>
    cases h
    exact beside (.shrink (List.Subset.refl _) List.filter_sublist.subset)
  | check =>
    rw [step] at h
    split at h
    · split at h <;> cases h
      exact ⟨hs.past, hs.within, trivial⟩
    · split at h <;> cases h
      exact ⟨hs.past, hs.within, trivial⟩
    · cases h
  | look =>
    rw [step] at h
    split at h <;> cases h
    exact hs.look
  | read =>
    rw [step] at h
    split at h
    · rename_i hex
      split at h <;> cases h
      exact hs.read hex
    · cases h
  | transmit =>
    rw [step] at h
    split at h
    · rename_i hex
      cases h
      exact hs.transmit hex
    · cases h
  | answer data =>
    rw [step] at h
    split at h
    · rename_i hex _
      cases h
      have hbeside : Beside peer a s (s.enter 0 peer false data) := by
        refine .enter ?_
        rintro rfl _
        simpa [prompt] using hp
      obtain ⟨hpast, hwithin, hphase⟩ := hbeside.inv hab hb hs
      rw [hbeside.exchange, hex] at hphase
      exact ⟨hpast, hwithin, hphase⟩
    · cases h
  | stamp =>
    rw [step] at h
    split at h
    · rename_i hex _
      cases h
      exact hs.stamp hex (by simpa [prompt, hex] using hp)
    · cases h
  | record =>
    rw [step] at h
    split at h
    · rename_i hex
      cases h
      exact hs.record hex
    · cases h
  | lose =>
    rw [step] at h
    split at h <;> cases h
    exact ⟨hs.past, hs.within, trivial⟩

theorem run_inv (hab : a + b ≤ 4) (hb : 0 ≤ b) {es : List (Event π)} (hs : Inv peer b s)
    (hp : promptRun P cfg mandatory peer a b s es) (h : run P cfg mandatory peer s es = some s') : Inv peer b s' := by
  induction es generalizing s with
  | nil =>
    cases h
    exact hs
  | cons e es ih =>
    obtain ⟨s₁, hstep, hrun⟩ := Option.bind_eq_some_iff.1 h
    rw [promptRun, hstep, Bool.and_eq_true] at hp
    exact ih (step_inv hab hb hs hp.1 hstep) hp.2 hrun

/-- **Gossip loses nothing that is prompt.** In a run from a state in which nothing was sent to the peer yet,
whatever else runs beside the exchanges: when an exchange has ended, every transaction that was in the pool as the
exchange read it was transmitted to the peer or merged from it. It is enough that merges from elsewhere admit a
transaction at most `a` seconds after they read the clock, that an exchange takes at most `b` seconds from reading
the pool to recording the send, with `a + b ≤ 4`, and that the peer is not frozen. -/
theorem exchange_delivers (hab : a + b ≤ 4) (hb : 0 ≤ b) {es : List (Event π)}
    (hfirst : s.pool.peersSent.get? peer = none) (hidle : s.exchange = .idle)
    (hp : promptRun P cfg mandatory peer a b s es) (h : run P cfg mandatory peer s es = some s')
    {pool : List PoolTx} (hend : s'.exchange = .finished pool) : ∀ r ∈ pool, Delivered s' r := by
  have hs : Inv peer b s := by
    refine ⟨fun t ht => ?_, fun t ht => ?_, ?_⟩
    · rw [hfirst] at ht
      cases ht
    · rw [hfirst] at ht
      cases ht
    · rw [hidle]
      trivial
  have hphase := (run_inv hab hb hs hp h).phase
  rw [hend] at hphase
  exact hphase

end Step

section Sample

def config : Config Unit where
  network := .regnet
  mode := .decimal
  forkBoundary_pos := Config.default_forkBoundary_pos
  onBlock _ _ p := p
  onRollback _ p := p

def genesisNode : Node Unit where
  store := (seedGenesis .toy config).toOption.getD {}
  plugins := ()
  mempool := ∅
  lastBlock := 1
  lastBlockHash := genesisBlockHash
  lastBlockTimestamp := .ofRat 0
  forkHeight := none
  forkCaughtUp := true
  baseFee := staticBaseFee

def peerA : Text := "10.0.0.1".toList
def peerB : Text := "10.0.0.2".toList

def spend : RawTx where
  timestamp := .str "1700000100.00".toList
  address := genesisAddress
  recipient := genesisAddress
  amount := .str "0.00000000".toList
  signature := "AAAA".toList
  publicKey := []
  operation := []
  openfield := []

def start : State where
  pool := {}
  clock := 1700000100

/-- A merge from another peer, up to where it has read the clock. -/
private def entering : List (Event Unit) := [.enter 0 peerB false (.txs [spend]), .start 1]

private def merging : List (Event Unit) := [.acquire 1, .round 1 genesisNode (.ofRat 0), .release 1]

private def reading : List (Event Unit) := [.check, .look, .read, .transmit]

private def recording : List (Event Unit) := [.answer (.txs []), .stamp, .record]

/-- A transaction of the pool that an exchange read was neither transmitted nor merged from the peer. -/
private def missed (s : State) : Bool :=
  match s.exchange with
  | .finished pool => pool.any fun r => !decide (r.fields ∈ s.sent) && !decide (r.fields ∈ s.received)
  | _ => false

private theorem exists_of_missed {o : Option State} (h : o.any missed = true) :
    ∃ s pool r, o = some s ∧ s.exchange = .finished pool ∧ r ∈ pool ∧ ¬Delivered s r := by
  cases o with
  | none => cases h
  | some s =>
    rw [Option.any_some, missed] at h
    split at h
    · rename_i pool hex
      obtain ⟨r, hr, hnot⟩ := List.any_eq_true.1 h
      rw [Bool.and_eq_true, Bool.not_eq_true', Bool.not_eq_true', decide_eq_false_iff_not,
        decide_eq_false_iff_not] at hnot
      exact ⟨s, pool, r, rfl, hex, hr, not_or.2 hnot⟩
    · cases h

/-- A merge that waits half a second for the lock, and an exchange that takes three. -/
theorem exchange_delivers_sample :
    ∃ s pool, run .toy config (fun _ => false) peerA start
        (entering ++ .tick (1 / 2) :: merging ++ reading ++ .tick 3 :: recording) = some s ∧
      s.exchange = .finished pool ∧ pool ≠ [] ∧ ∀ r ∈ pool, Delivered s r := by
  have hrun : ((run .toy config (fun _ => false) peerA start
      (entering ++ .tick (1 / 2) :: merging ++ reading ++ .tick 3 :: recording)).any fun s =>
        match s.exchange with
        | .finished pool => !pool.isEmpty
        | _ => false) = true := by
    decide +kernel
  cases h : run .toy config (fun _ => false) peerA start
      (entering ++ .tick (1 / 2) :: merging ++ reading ++ .tick 3 :: recording) with
  | none =>
    rw [h] at hrun
    cases hrun
  | some s =>
    rw [h, Option.any_some] at hrun
    split at hrun
    · rename_i pool hex
      refine ⟨s, pool, rfl, hex, ?_, ?_⟩
      · rintro rfl
        cases hrun
      · exact exchange_delivers (a := 1 / 2) (b := 3) (by norm_num) (by norm_num) rfl rfl (by decide +kernel) h hex
    · cases hrun

/-- A transaction that is merged while the worker waits for the answer of the peer, twenty seconds before the
send is recorded, is never sent: the next exchange reads it in the pool and takes it for sent. -/
theorem exchange_misses :
    ∃ (es : List (Event Unit)) (s s' : State) (pool : List PoolTx) (r : PoolTx),
      s.pool.peersSent.get? peerA = none ∧ s.exchange = .idle ∧
      run .toy config (fun _ => false) peerA s es = some s' ∧ s'.exchange = .finished pool ∧ r ∈ pool ∧
      ¬Delivered s' r := by
  have h : (run .toy config (fun _ => false) peerA start
      (reading ++ entering ++ merging ++ .tick 20 :: recording ++ .tick 31 :: reading ++ recording)).any missed =
        true := by
    decide +kernel
  obtain ⟨s', pool, r, hrun, hex, hr, hnot⟩ := exists_of_missed h
  exact ⟨_, start, s', pool, r, rfl, rfl, hrun, hex, hr, hnot⟩

end Sample

end Gossip

end Bismuth
