import Bismuth.Peers
import Bismuth.Py.ReadBack

/-!
# Outbound connections

`peers_pool.py`, the dial loop of `peershandler.py` and the threads of `worker.py`: a thread that has greeted a peer
tests whether the peer is in the list of connections, appends it if not, and removes it when the connection ends. A
set beside the list is there for fast look-ups, and the limit per class C counts the members of the set.
-/

namespace Bismuth
open Py

namespace Outbound

/-! ## Addresses -/

/-- What stands before the last `sep`; nothing without one. -/
def beforeLast (sep : Char) (s : Text) : Text := ((s.reverse.dropWhile (· ≠ sep)).drop 1).reverse

/-- `'.'.join(host.split('.')[:-1])`. -/
def cClass (host : Text) : Text := beforeLast '.' host

/-- `host:port`. -/
def clientOf (host : Text) (port : Int) : Text := host ++ ':' :: intText port

/-- `ip_port.rsplit(':', 1)[0]`. -/
def hostOf (client : Text) : Text := if ':' ∈ client then beforeLast ':' client else client

def cClassOf (client : Text) : Text := cClass (hostOf client)

/-! ## States -/

inductive Worker where
  /-- The thread is started. -/
  | dialing (client : Text)
  /-- The handshake is done. -/
  | connected (client : Text)
  /-- The thread has looked whether the client is in the list. -/
  | tested (client : Text) (present : Bool)
  /-- The connection is served. -/
  | live (client : Text)
  | ended
  deriving DecidableEq

structure Settings extends PeersConfig where
  port : Int
  nodeIp : Text
  /-- `own_addresses`. -/
  own : List Text

structure State where
  /-- `connection_pool`. -/
  pool : List Text := []
  /-- `_connection_pool_set`. -/
  set : Finset Text := ∅
  /-- The number of tries and the end of the back-off. -/
  tried : Dict Text (Nat × ℚ) := ∅
  banlist : List Text := []
  /-- The client that the dial loop may connect to and has not started a thread for yet. -/
  dial : Option Text := none
  workers : List Worker := []

namespace State
variable (cfg : Settings) (s : State)

def appendClient (client : Text) : State :=
  { s with pool := s.pool ++ [client], set := insert client s.set, tried := s.tried.erase client }

/-- `remove_client`; what is in the set and not in the list raises. -/
def removeClient (client : Text) : State :=
  if client ∈ s.set ∧ client ∈ s.pool then { s with pool := s.pool.erase client, set := s.set.erase client } else s

def canConnectTo (host : Text) (port : Int) (now : ℚ) : Bool :=
  !s.banlist.contains host && !(decide (port = cfg.port) && (decide (host = cfg.nodeIp) || cfg.own.contains host)) &&
    !decide (clientOf host port ∈ s.set) && !((s.tried.get? (clientOf host port)).any fun t => now < t.2) &&
      (Peers.isWhitelisted cfg.toPeersConfig host || decide ((s.set.filter (cClassOf · = cClass host)).card < 2))

def delay (tries : Nat) : ℚ := if tries = 0 then 30 else if tries = 1 then 60 else if tries = 2 then 120 else 300

def addTry (client : Text) (now : ℚ) : State :=
  let tries := ((s.tried.get? client).map Prod.fst).getD 0
  { s with tried := s.tried.set client (min (tries + 1) 3, now + delay tries) }

def resetTried (aggressive : Bool) (now : ℚ) : State :=
  if aggressive then { s with tried := ∅ }
  else { s with tried := ⟨s.tried.entries.filter fun e => e.2.2 ≤ now + 60,
    s.tried.nodup.sublist (List.filter_sublist.map Prod.fst)⟩ }

def outboundCount : Nat := s.pool.length

/-- The thread `i` goes on. -/
def become (i : Nat) (w : Worker) : State := { s with workers := s.workers.set i w }

end State

inductive Event where
  | ban (l : List Text)
  | resetTried (aggressive : Bool) (now : ℚ)
  /-- The dial loop asks for the next known peer. -/
  | check (host : Text) (port : Int) (now : ℚ)
  /-- It starts the thread for the peer. -/
  | spawn (now : ℚ)
  /-- A thread is started for whatever client. -/
  | start (client : Text)
  /-- The handshake fails. -/
  | fail (i : Nat)
  | handshake (i : Nat)
  /-- The address of the peer cannot be read any more. -/
  | unnamed (i : Nat)
  /-- `this_client not in connection_pool`. -/
  | test (i : Nat)
  | append (i : Nat)
  /-- The connection ends with an exception, and the client is removed. -/
  | close (i : Nat)
  /-- The loop of the thread ends because the peer is banned, its version is not allowed any more or the node stops. -/
  | leave (i : Nat)

def step (cfg : Settings) (s : State) : Event → Option State
  | .ban l => some { s with banlist := l }
  | .resetTried aggressive now => some (s.resetTried aggressive now)
  | .check host port now =>
    if s.dial = none then
      some (if s.canConnectTo cfg host port now then { s with dial := some (clientOf host port) } else s)
    else none
  | .spawn now => s.dial.map fun c => { s.addTry c now with dial := none, workers := s.workers ++ [.dialing c] }
  | .start c => some { s with workers := s.workers ++ [.dialing c] }
  | .fail i =>
    match s.workers[i]? with
    | some (.dialing _) => some (s.become i .ended)
    | _ => none
  | .handshake i =>
    match s.workers[i]? with
    | some (.dialing c) => some (s.become i (.connected c))
    | _ => none
  | .unnamed i =>
    match s.workers[i]? with
    | some (.connected _) => some (s.become i .ended)
    | _ => none
  | .test i =>
    match s.workers[i]? with
    | some (.connected c) => some (s.become i (.tested c (decide (c ∈ s.pool))))
    | _ => none
  | .append i =>
    match s.workers[i]? with
    | some (.tested c present) => some ((if present then s else s.appendClient c).become i (.live c))
    | _ => none
  | .close i =>
    match s.workers[i]? with
    | some (.live c) => some ((s.removeClient c).become i .ended)
    | _ => none
  | .leave i =>
    match s.workers[i]? with
    | some (.live _) => some (s.become i .ended)
    | _ => none

def run (cfg : Settings) : State → List Event → Option State
  | s, [] => some s
  | s, e :: es => (step cfg s e).bind fun s' => run cfg s' es

/-! ## What a step does -/

/-- The steps, as far as the list, the set and the threads go. -/
inductive Moves (cfg : Settings) (s s' : State) : Event → Prop
  | aside {e : Event} (hpool : s'.pool = s.pool) (hset : s'.set = s.set) (hdial : s'.dial = s.dial)
      (hworkers : s'.workers = s.workers) : Moves cfg s s' e
  | check {host : Text} {port : Int} {now : ℚ} (hfree : s.dial = none) (hok : s.canConnectTo cfg host port now)
      (h : s' = { s with dial := some (clientOf host port) }) : Moves cfg s s' (.check host port now)
  | spawn {c : Text} {now : ℚ} (hdial : s.dial = some c)
      (h : s' = { s.addTry c now with dial := none, workers := s.workers ++ [.dialing c] }) :
      Moves cfg s s' (.spawn now)
  | start {c : Text} (h : s' = { s with workers := s.workers ++ [.dialing c] }) : Moves cfg s s' (.start c)
  | fail {i : Nat} {c : Text} (hw : s.workers[i]? = some (.dialing c)) (h : s' = s.become i .ended) :
      Moves cfg s s' (.fail i)
  | handshake {i : Nat} {c : Text} (hw : s.workers[i]? = some (.dialing c)) (h : s' = s.become i (.connected c)) :
      Moves cfg s s' (.handshake i)
  | unnamed {i : Nat} {c : Text} (hw : s.workers[i]? = some (.connected c)) (h : s' = s.become i .ended) :
      Moves cfg s s' (.unnamed i)
  | test {i : Nat} {c : Text} (hw : s.workers[i]? = some (.connected c))
      (h : s' = s.become i (.tested c (decide (c ∈ s.pool)))) : Moves cfg s s' (.test i)
  | found {i : Nat} {c : Text} (hw : s.workers[i]? = some (.tested c true)) (h : s' = s.become i (.live c)) :
      Moves cfg s s' (.append i)
  | append {i : Nat} {c : Text} (hw : s.workers[i]? = some (.tested c false))
      (h : s' = (s.appendClient c).become i (.live c)) : Moves cfg s s' (.append i)
  | close {i : Nat} {c : Text} (hw : s.workers[i]? = some (.live c)) (h : s' = (s.removeClient c).become i .ended) :
      Moves cfg s s' (.close i)
  | leave {i : Nat} {c : Text} (hw : s.workers[i]? = some (.live c)) (h : s' = s.become i .ended) :
      Moves cfg s s' (.leave i)

theorem step_moves {cfg : Settings} {s s' : State} {e : Event} (h : step cfg s e = some s') : Moves cfg s s' e := by
  cases e with
  | ban l =>
    cases h
    exact .aside rfl rfl rfl rfl
  | resetTried aggressive now =>
    cases h
    rw [State.resetTried]
    split <;> exact .aside rfl rfl rfl rfl
  | check host port now =>
    rw [step] at h
    split at h
    · rename_i hfree
      cases h
      split
      · rename_i hok
        exact .check hfree hok rfl
      · exact .aside rfl rfl rfl rfl
    · cases h
  | spawn now =>
    obtain ⟨c, hc, rfl⟩ := Option.map_eq_some_iff.1 h
    exact .spawn hc rfl
  | start c =>
    cases h
    exact .start rfl
  | append i =>
    rw [step] at h
    split at h
    · rename_i c present hw
      cases h
      cases present with
      | true => exact .found hw rfl
      | false => exact .append hw rfl
    · cases h
  | fail i =>
    rw [step] at h
    split at h
    · rename_i hw
      cases h
      exact .fail hw rfl
    · cases h
  | handshake i =>
    rw [step] at h
    split at h
    · rename_i hw
      cases h
      exact .handshake hw rfl
    · cases h
  | unnamed i =>
    rw [step] at h
    split at h
    · rename_i hw
      cases h
      exact .unnamed hw rfl
    · cases h
  | test i =>
    rw [step] at h
    split at h
    · rename_i hw
      cases h
      exact .test hw rfl
    · cases h
  | close i =>
    rw [step] at h
    split at h
    · rename_i hw
      cases h
      exact .close hw rfl
    · cases h
  | leave i =>
    rw [step] at h
    split at h
    · rename_i hw
      cases h
      exact .leave hw rfl
    · cases h

/-! ## Bookkeeping -/

def Worker.holds (c : Text) : Worker → Bool
  | .connected d | .tested d _ | .live d => d = c
  | _ => false

/-- The thread is not between the handshake and the list. -/
def Worker.settled : Worker → Bool
  | .connected _ | .tested .. => false
  | _ => true

/-- A thread that has done its handshake finds no other one with a connection to its client, and no thread ends
without removing its client. -/
def solo (s : State) : Event → Bool
  | .handshake i =>
    match s.workers[i]? with
    | some (.dialing c) => s.workers.all fun w => !w.holds c
    | _ => true
  | .leave _ => false
  | _ => true

def soloRun (cfg : Settings) : State → List Event → Bool
  | _, [] => true
  | s, e :: es => solo s e && (step cfg s e).all fun s' => soloRun cfg s' es

/-- The list and the set hold the clients with a connection, each of them once. -/
structure Consistent (s : State) : Prop where
  list : ∀ c, s.pool.count c = if .live c ∈ s.workers then 1 else 0
  set : ∀ c, c ∈ s.set ↔ .live c ∈ s.workers

structure Inv (s : State) : Prop where
  single : ∀ c, s.workers.countP (·.holds c) ≤ 1
  listed : ∀ c, s.pool.count c = s.workers.count (.live c)
  set : ∀ c, c ∈ s.set ↔ c ∈ s.pool
  absent : ∀ c, .tested c true ∉ s.workers

section Inv
variable {cfg : Settings} {s s' : State}

theorem Inv.of_eq (hs : Inv s) (hpool : s'.pool = s.pool) (hset : s'.set = s.set)
    (hworkers : s'.workers = s.workers) : Inv s' := by
  obtain ⟨h1, h2, h3, h4⟩ := hs
  refine ⟨?_, ?_, ?_, ?_⟩
  · rwa [hworkers]
  · rwa [hpool, hworkers]
  · rwa [hpool, hset]
  · rwa [hworkers]

theorem Inv.spawn (hs : Inv s) (c : Text) (hpool : s'.pool = s.pool) (hset : s'.set = s.set)
    (hworkers : s'.workers = s.workers ++ [.dialing c]) : Inv s' := by
  refine ⟨fun d => ?_, fun d => ?_, fun d => ?_, fun d => ?_⟩
  · rw [hworkers, List.countP_append]
    simpa [Worker.holds] using hs.single d
  · rw [hpool, hworkers, List.count_append, hs.listed d]
    simp
  · rw [hpool, hset, hs.set d]
  · rw [hworkers, List.mem_append, not_or]
    exact ⟨hs.absent d, by simp⟩

variable {i : Nat}

theorem count_live_set {w : Worker} (hw : s.workers[i]? = some w) (w' : Worker) (c : Text) :
    (s.workers.set i w').count (.live c) + (if w = .live c then 1 else 0) =
      s.workers.count (.live c) + if w' = .live c then 1 else 0 := by
  simpa [List.count, beq_iff_eq] using List.countP_set_add hw w' (· == .live c)

/-- The one thread with a connection to a client is not joined by another. -/
theorem Inv.not_live (hs : Inv s) {w : Worker} (hw : s.workers[i]? = some w) {c : Text} (hc : w.holds c)
    (hne : w ≠ .live c) : .live c ∉ s.workers := by
  have hholds := List.countP_set_add hw .ended (·.holds c)
  have hlive := count_live_set hw .ended c
  have hle : (s.workers.set i .ended).count (.live c) ≤ (s.workers.set i .ended).countP (·.holds c) := by
    refine List.countP_mono_left fun w _ hw => ?_
    rw [beq_iff_eq.1 hw]
    simp [Worker.holds]
  have hsingle := hs.single c
  rw [if_pos hc, if_neg (by simp [Worker.holds])] at hholds
  rw [if_neg hne, if_neg (by simp)] at hlive
  exact List.count_eq_zero.1 (by omega)

theorem Inv.become (hs : Inv s) {w w' : Worker} (hw : s.workers[i]? = some w)
    (hsingle : ∀ c, w'.holds c → w.holds c ∨ s.workers.countP (·.holds c) = 0) (hlive : ∀ c, w ≠ .live c)
    (hlive' : ∀ c, w' ≠ .live c) (habsent : ∀ c, w' ≠ .tested c true) : Inv (s.become i w') := by
  refine ⟨fun c => ?_, fun c => ?_, hs.set, fun c => ?_⟩
  · have hcount := List.countP_set_add hw w' (·.holds c)
    have hle := hs.single c
    show (s.workers.set i w').countP _ ≤ 1
    by_cases hc : w'.holds c
    · rw [if_pos hc] at hcount
      obtain hc | hc := hsingle c hc
      · rw [if_pos hc] at hcount
        omega
      · omega
    · rw [if_neg hc] at hcount
      omega
  · have hcount := count_live_set hw w' c
    rw [if_neg (hlive c), if_neg (hlive' c)] at hcount
    exact (hs.listed c).trans hcount.symm
  · intro hmem
    obtain hmem | hmem := List.mem_or_eq_of_mem_set hmem
    · exact hs.absent c hmem
    · exact habsent c hmem.symm

theorem Inv.append (hs : Inv s) {c : Text} (hw : s.workers[i]? = some (.tested c false)) :
    Inv ((s.appendClient c).become i (.live c)) := by
  refine ⟨fun d => ?_, fun d => ?_, fun d => ?_, fun d => ?_⟩
  · have hcount := List.countP_set_add hw (.live c) (·.holds d)
    have hle := hs.single d
    have hsame : Worker.holds d (.live c) = Worker.holds d (.tested c false) := rfl
    show (s.workers.set i (.live c)).countP _ ≤ 1
    rw [hsame] at hcount
    omega
  · have hcount := count_live_set hw (.live c) d
    show (s.pool ++ [c]).count d = (s.workers.set i (.live c)).count (.live d)
    rw [List.count_append, hs.listed d, List.count_singleton]
    simp only [Worker.live.injEq, beq_iff_eq, reduceCtorEq, if_false] at hcount ⊢
    omega
  · show d ∈ insert c s.set ↔ d ∈ s.pool ++ [c]
    rw [Finset.mem_insert, List.mem_append, List.mem_singleton, hs.set d, or_comm]
  · intro hmem
    obtain hmem | hmem := List.mem_or_eq_of_mem_set hmem
    · exact hs.absent d hmem
    · cases hmem

theorem Inv.close (hs : Inv s) {c : Text} (hw : s.workers[i]? = some (.live c)) :
    Inv ((s.removeClient c).become i .ended) := by
  have hmem : Worker.live c ∈ s.workers := List.mem_of_getElem? hw
  have hpool : c ∈ s.pool := by
    rw [← List.count_pos_iff, hs.listed c]
    exact List.count_pos_iff.2 hmem
  have hone : s.pool.count c ≤ 1 := by
    rw [hs.listed c]
    refine le_trans (List.countP_mono_left fun w _ hw => ?_) (hs.single c)
    rw [beq_iff_eq.1 hw]
    simp [Worker.holds]
  rw [State.removeClient, if_pos ⟨(hs.set c).2 hpool, hpool⟩]
  refine ⟨fun d => ?_, fun d => ?_, fun d => ?_, fun d => ?_⟩
  · have hcount := List.countP_set_add hw .ended (·.holds d)
    have hle := hs.single d
    show (s.workers.set i .ended).countP _ ≤ 1
    rw [if_neg (by simp [Worker.holds] : ¬Worker.holds d .ended = true)] at hcount
    omega
  · have hcount := count_live_set hw .ended d
    show (s.pool.erase c).count d = (s.workers.set i .ended).count (.live d)
    rw [List.count_erase, hs.listed d]
    simp only [Worker.live.injEq, beq_iff_eq, reduceCtorEq, if_false] at hcount ⊢
    omega
  · show d ∈ s.set.erase c ↔ d ∈ s.pool.erase c
    rw [Finset.mem_erase, hs.set d]
    by_cases hd : d = c
    · subst hd
      have hzero : (s.pool.erase d).count d = 0 := by
        rw [List.count_erase_self]
        omega
      simpa using List.count_eq_zero.1 hzero
    · rw [List.mem_erase_of_ne hd]
      simp [hd]
  · intro hmem
    obtain hmem | hmem := List.mem_or_eq_of_mem_set hmem
    · exact hs.absent d hmem
    · cases hmem

theorem step_inv (hs : Inv s) {e : Event} (hsolo : solo s e) (h : step cfg s e = some s') : Inv s' := by
  have hmoves := step_moves h
  clear h
  cases hmoves with
  | aside hpool hset _ hworkers => exact hs.of_eq hpool hset hworkers
  | check _ _ h =>
    subst h
    exact hs.of_eq rfl rfl rfl
  | spawn _ h =>
    subst h
    exact hs.spawn _ rfl rfl rfl
  | start h =>
    subst h
    exact hs.spawn _ rfl rfl rfl
  | fail hw h =>
    subst h
    exact hs.become hw (by simp [Worker.holds]) (by simp) (by simp) (by simp)
  | @handshake i c hw h =>
    subst h
    refine hs.become hw (fun d hd => .inr ?_) (by simp) (by simp) (by simp)
    obtain rfl : c = d := by simpa [Worker.holds] using hd
    rw [solo, hw] at hsolo
    rw [List.countP_eq_zero]
    intro w hmem
    simpa using List.all_eq_true.1 hsolo w hmem
  | unnamed hw h =>
    subst h
    exact hs.become hw (by simp [Worker.holds]) (by simp) (by simp) (by simp)
  | @test i c hw h =>
    subst h
    have hout : c ∉ s.pool := by
      have hlive := hs.not_live hw (c := c) (by simp [Worker.holds]) (by simp)
      rw [← List.count_eq_zero, hs.listed c]
      exact List.count_eq_zero.2 hlive
    refine hs.become hw (fun d hd => .inl ?_) (by simp) (by simp) (by simp [hout])
    simpa [Worker.holds] using hd
  | found hw h => exact absurd (List.mem_of_getElem? hw) (hs.absent _)
  | append hw h =>
    subst h
    exact hs.append hw
  | close hw h =>
    subst h
    exact hs.close hw
  | leave hw h => cases hsolo

theorem run_inv (hs : Inv s) {es : List Event} (hsolo : soloRun cfg s es) (h : run cfg s es = some s') : Inv s' := by
  induction es generalizing s with
  | nil =>
    cases h
    exact hs
  | cons e es ih =>
    obtain ⟨s₁, hstep, hrun⟩ := Option.bind_eq_some_iff.1 h
    rw [soloRun, hstep, Bool.and_eq_true] at hsolo
    exact ih (step_inv hs hsolo.1 hstep) hsolo.2 hrun

theorem Inv.consistent (hs : Inv s) : Consistent s := by
  have hcount : ∀ c, s.workers.count (.live c) ≤ 1 := by
    intro c
    refine le_trans (List.countP_mono_left fun w _ hw => ?_) (hs.single c)
    rw [beq_iff_eq.1 hw]
    simp [Worker.holds]
  refine ⟨fun c => ?_, fun c => ?_⟩
  · rw [hs.listed c]
    split
    · rename_i hlive
      have := List.count_pos_iff.2 hlive
      have := hcount c
      omega
    · rename_i hlive
      exact List.count_eq_zero.2 hlive
  · rw [hs.set c, ← List.count_pos_iff, hs.listed c, List.count_pos_iff]

/-- **The bookkeeping of outbound connections.** In a run in which no two threads have a connection to one client at
a time and every thread that ends removes its client, the list holds the clients with a connection, each of them once,
the set holds the same clients, and the count is zero when every connection has ended. -/
theorem run_consistent {es : List Event} (hsolo : soloRun cfg {} es) (h : run cfg {} es = some s) :
    Consistent s ∧ ((∀ c, .live c ∉ s.workers) → s.outboundCount = 0) := by
  have hinit : Inv {} := ⟨by simp, by simp, by simp, by simp⟩
  have hcons := (run_inv hinit hsolo h).consistent
  refine ⟨hcons, fun hnone => ?_⟩
  rw [State.outboundCount, List.length_eq_zero_iff, List.eq_nil_iff_forall_not_mem]
  intro c hc
  have hcount := hcons.list c
  rw [if_neg (hnone c), List.count_eq_zero] at hcount
  exact hcount hc

end Inv

/-! ## Two peers per class C -/

section Limit
variable {cfg : Settings} {s s' : State}

theorem beforeLast_append {sep : Char} {a b : Text} (h : sep ∉ b) : beforeLast sep (a ++ sep :: b) = a := by
  have hdrop : (b.reverse ++ sep :: a.reverse).dropWhile (· ≠ sep) = sep :: a.reverse := by
    rw [List.dropWhile_append_of_pos]
    · simp
    · intro c hc
      rw [List.mem_reverse] at hc
      simpa using fun he : c = sep => h (he ▸ hc)
  rw [beforeLast, List.reverse_append, List.reverse_cons, List.append_assoc, List.singleton_append, hdrop,
    List.drop_one, List.tail_cons, List.reverse_reverse]

theorem colon_not_mem_intText (n : Int) : ':' ∉ intText n :=
  fun h => absurd (isPlain_of_mem_intText h) (by decide)

theorem cClassOf_clientOf (host : Text) (port : Int) : cClassOf (clientOf host port) = cClass host := by
  have hmem : ':' ∈ clientOf host port := List.mem_append_right _ (by simp)
  rw [cClassOf, hostOf, if_pos hmem, clientOf, beforeLast_append (colon_not_mem_intText port)]

def Worker.pending? : Worker → Option Text
  | .dialing c | .connected c | .tested c _ => some c
  | _ => none

/-- The thread may come to append a client of the class. -/
def Worker.pendingIn (k : Text) (w : Worker) : Bool := w.pending?.any (cClassOf · = k)

/-- The dial loop asks for a peer while no thread of its class may still come to append one, and no one else starts
threads. -/
def alone (s : State) : Event → Bool
  | .check host _ _ => s.workers.all fun w => !w.pendingIn (cClass host)
  | .start _ => false
  | _ => true

def aloneRun (cfg : Settings) : State → List Event → Bool
  | _, [] => true
  | s, e :: es => alone s e && (step cfg s e).all fun s' => aloneRun cfg s' es

/-- The clients of the set, of the threads and of the dial loop together, for each class and for each client. -/
structure Limited (s : State) : Prop where
  perClass : ∀ k, (s.set.filter (cClassOf · = k)).card + s.workers.countP (·.pendingIn k) +
    (if s.dial.any (cClassOf · = k) then 1 else 0) ≤ 2
  perClient : ∀ c, (if c ∈ s.set then 1 else 0) + s.workers.countP (·.pending? = some c) +
    (if s.dial = some c then 1 else 0) ≤ 1
  listed : ∀ c, s.pool.count c = if c ∈ s.set then 1 else 0
  absent : ∀ c, .tested c true ∉ s.workers

section
variable (hs : Limited s)
include hs

theorem Limited.check {host : Text} {port : Int} {now : ℚ}
    (hwhite : Peers.isWhitelisted cfg.toPeersConfig host = false) (hfree : s.dial = none)
    (hok : s.canConnectTo cfg host port now) (halone : s.workers.all fun w => !w.pendingIn (cClass host)) :
    Limited { s with dial := some (clientOf host port) } := by
  have hnone : s.workers.countP (·.pendingIn (cClass host)) = 0 := by
    rw [List.countP_eq_zero]
    intro w hw
    simpa using List.all_eq_true.1 halone w hw
  simp only [State.canConnectTo, hwhite, Bool.false_or, Bool.and_eq_true, Bool.not_eq_true', decide_eq_false_iff_not,
    decide_eq_true_eq] at hok
  obtain ⟨⟨⟨_, hset⟩, _⟩, hcard⟩ := hok
  refine ⟨fun k => ?_, fun c => ?_, hs.listed, hs.absent⟩
  · have hle := hs.perClass k
    rw [hfree] at hle
    dsimp only
    rw [Option.any_some, cClassOf_clientOf]
    by_cases hk : cClass host = k
    · subst hk
      rw [if_pos (decide_eq_true rfl)]
      omega
    · rw [if_neg (by simpa using hk)]
      simpa using hle
  · have hle := hs.perClient c
    rw [hfree] at hle
    dsimp only
    by_cases hc : clientOf host port = c
    · subst hc
      have hzero : s.workers.countP (·.pending? = some (clientOf host port)) = 0 := by
        rw [List.countP_eq_zero] at hnone ⊢
        intro w hw hp
        refine hnone w hw ?_
        rw [Worker.pendingIn, of_decide_eq_true hp, Option.any_some, cClassOf_clientOf]
        exact decide_eq_true rfl
      rw [if_neg hset, hzero, if_pos rfl]
    · have hne : ¬some (clientOf host port) = some c := by simpa using hc
      rw [if_neg hne]
      simpa using hle

theorem Limited.spawn {c : Text} (hdial : s.dial = some c) (now : ℚ) :
    Limited { s.addTry c now with dial := none, workers := s.workers ++ [.dialing c] } := by
  refine ⟨fun k => ?_, fun d => ?_, hs.listed, fun d => ?_⟩
  · have hle := hs.perClass k
    rw [hdial, Option.any_some] at hle
    dsimp only
    rw [List.countP_append, List.countP_singleton, Option.any_none, if_neg Bool.false_ne_true, Nat.add_zero,
      ← Nat.add_assoc]
    exact hle
  · have hle := hs.perClient d
    rw [hdial] at hle
    dsimp only
    have hpending : Worker.pending? (.dialing c) = some c := rfl
    rw [List.countP_append, List.countP_singleton, hpending, if_neg (by simp : ¬(none : Option Text) = some d),
      Nat.add_zero, ← Nat.add_assoc]
    rw [if_congr (decide_eq_true_iff (p := some c = some d)) rfl rfl]
    exact hle
  · dsimp only
    rw [List.mem_append, not_or]
    exact ⟨hs.absent d, by simp⟩

theorem Limited.become {i : Nat} {w w' : Worker} (hw : s.workers[i]? = some w)
    (hpending : w'.pending? = w.pending? ∨ w'.pending? = none) (habsent : ∀ c, w' ≠ .tested c true) :
    Limited (s.become i w') := by
  have hcount : ∀ p : Option Text → Bool, p none = false →
      (s.workers.set i w').countP (fun w => p w.pending?) ≤ s.workers.countP fun w => p w.pending? := by
    intro p hp
    have h := List.countP_set_add hw w' fun w => p w.pending?
    obtain hpending | hpending := hpending
    · rw [hpending] at h
      omega
    · rw [hpending, hp, if_neg Bool.false_ne_true] at h
      omega
  refine ⟨fun k => ?_, fun c => ?_, hs.listed, fun c hmem => ?_⟩
  · have hle := hs.perClass k
    have hcount := hcount (fun o => o.any (cClassOf · = k)) rfl
    exact le_trans (Nat.add_le_add_right (Nat.add_le_add_left hcount _) _) hle
  · have hle := hs.perClient c
    have hcount := hcount (fun o => o = some c) (by simp)
    exact le_trans (Nat.add_le_add_right (Nat.add_le_add_left hcount _) _) hle
  · obtain hmem | hmem := List.mem_or_eq_of_mem_set hmem
    · exact hs.absent c hmem
    · exact habsent c hmem.symm

/-- A client that a thread may come to append is not in the set. -/
theorem Limited.not_mem_set {i : Nat} {w : Worker} {c : Text} (hw : s.workers[i]? = some w)
    (hc : w.pending? = some c) : c ∉ s.set := by
  intro hmem
  have hle := hs.perClient c
  have hpos : 0 < s.workers.countP (·.pending? = some c) :=
    List.countP_pos_iff.2 ⟨w, List.mem_of_getElem? hw, decide_eq_true hc⟩
  rw [if_pos hmem] at hle
  omega

theorem Limited.append {i : Nat} {c : Text} (hw : s.workers[i]? = some (.tested c false)) :
    Limited ((s.appendClient c).become i (.live c)) := by
  have hnew := hs.not_mem_set hw rfl
  refine ⟨fun k => ?_, fun d => ?_, fun d => ?_, fun d hmem => ?_⟩
  · have hle := hs.perClass k
    have hcount := List.countP_set_add hw (.live c) (·.pendingIn k)
    have hlive : Worker.pendingIn k (.live c) = false := rfl
    have htested : Worker.pendingIn k (.tested c false) = decide (cClassOf c = k) := rfl
    rw [hlive, htested, if_neg Bool.false_ne_true] at hcount
    show ((insert c s.set).filter _).card + (s.workers.set i (.live c)).countP _ + (if s.dial.any _ then 1 else 0) ≤ 2
    rw [Finset.filter_insert]
    by_cases hk : cClassOf c = k
    · rw [if_pos hk, Finset.card_insert_of_notMem (by simp [hnew])]
      rw [if_pos (decide_eq_true hk)] at hcount
      omega
    · rw [if_neg hk]
      rw [if_neg (by simpa using hk)] at hcount
      omega
  · have hle := hs.perClient d
    have hcount := List.countP_set_add hw (.live c) (·.pending? = some d)
    have hlive : decide (Worker.pending? (.live c) = some d) = false := rfl
    have htested : Worker.pending? (.tested c false) = some c := rfl
    rw [hlive, htested, if_neg Bool.false_ne_true] at hcount
    show (if d ∈ insert c s.set then 1 else 0) + (s.workers.set i (.live c)).countP _ +
      (if s.dial = some d then 1 else 0) ≤ 1
    by_cases hd : c = d
    · subst hd
      rw [if_pos (Finset.mem_insert_self c s.set)]
      rw [if_neg hnew] at hle
      rw [if_pos (decide_eq_true rfl)] at hcount
      omega
    · have hiff : d ∈ insert c s.set ↔ d ∈ s.set := Finset.mem_insert.trans (or_iff_right (Ne.symm hd))
      rw [if_congr hiff rfl rfl]
      rw [if_neg (by simpa using hd)] at hcount
      omega
  · show (s.pool ++ [c]).count d = if d ∈ insert c s.set then 1 else 0
    rw [List.count_append, hs.listed d, List.count_singleton]
    by_cases hd : c = d
    · subst hd
      simp [hnew]
    · have hd' : ¬d = c := Ne.symm hd
      simp [hd, hd']
  · obtain hmem | hmem := List.mem_or_eq_of_mem_set hmem
    · exact hs.absent d hmem
    · cases hmem

theorem Limited.close {i : Nat} {c : Text} (hw : s.workers[i]? = some (.live c)) :
    Limited ((s.removeClient c).become i .ended) := by
  have hbecome : Limited (s.become i .ended) := hs.become hw (.inr rfl) (by simp)
  rw [State.removeClient]
  split
  · refine ⟨fun k => ?_, fun d => ?_, fun d => ?_, hbecome.absent⟩
    · refine le_trans ?_ (hbecome.perClass k)
      have hcard : ((s.set.erase c).filter (cClassOf · = k)).card ≤ (s.set.filter (cClassOf · = k)).card :=
        Finset.card_le_card (Finset.filter_subset_filter _ (Finset.erase_subset c s.set))
      exact Nat.add_le_add_right (Nat.add_le_add_right hcard _) _
    · refine le_trans ?_ (hbecome.perClient d)
      refine Nat.add_le_add_right (Nat.add_le_add_right ?_ _) _
      show (if d ∈ s.set.erase c then 1 else 0) ≤ if d ∈ s.set then 1 else 0
      split_ifs <;> simp_all
    · show (s.pool.erase c).count d = if d ∈ s.set.erase c then 1 else 0
      rw [List.count_erase, hs.listed d]
      by_cases hd : d = c
      · subst hd
        split_ifs <;> simp_all
      · have hd' : ¬c = d := Ne.symm hd
        simp [hd, hd']
  · exact hbecome

theorem Limited.of_eq (hpool : s'.pool = s.pool) (hset : s'.set = s.set) (hdial : s'.dial = s.dial)
    (hworkers : s'.workers = s.workers) : Limited s' := by
  obtain ⟨h1, h2, h3, h4⟩ := hs
  refine ⟨?_, ?_, ?_, ?_⟩
  · rwa [hset, hworkers, hdial]
  · rwa [hset, hworkers, hdial]
  · rwa [hpool, hset]
  · rwa [hworkers]

theorem step_limited {e : Event}
    (hwhite : ∀ host port now, e = .check host port now → Peers.isWhitelisted cfg.toPeersConfig host = false)
    (halone : alone s e) (h : step cfg s e = some s') : Limited s' := by
  have hmoves := step_moves h
  clear h
  cases hmoves with
  | aside hpool hset hdial hworkers => exact hs.of_eq hpool hset hdial hworkers
  | check hfree hok h =>
    subst h
    exact hs.check (hwhite _ _ _ rfl) hfree hok halone
  | spawn hdial h =>
    subst h
    exact hs.spawn hdial _
  | start h => cases halone
  | fail hw h =>
    subst h
    exact hs.become hw (.inr rfl) (by simp)
  | handshake hw h =>
    subst h
    exact hs.become hw (.inl rfl) (by simp)
  | unnamed hw h =>
    subst h
    exact hs.become hw (.inr rfl) (by simp)
  | @test i c hw h =>
    subst h
    -- the list has the clients of the set, and the client of this thread is not in the set
    have hnot : c ∉ s.pool := by
      rw [← List.count_eq_zero, hs.listed c, if_neg (hs.not_mem_set hw rfl)]
    exact hs.become hw (.inl rfl) (by simp [hnot])
  | found hw h => exact absurd (List.mem_of_getElem? hw) (hs.absent _)
  | append hw h =>
    subst h
    exact hs.append hw
  | close hw h =>
    subst h
    exact hs.close hw
  | leave hw h =>
    subst h
    exact hs.become hw (.inr rfl) (by simp)

theorem run_limited {es : List Event}
    (hwhite : ∀ host port now, .check host port now ∈ es → Peers.isWhitelisted cfg.toPeersConfig host = false)
    (halone : aloneRun cfg s es) (h : run cfg s es = some s') : Limited s' := by
  induction es generalizing s with
  | nil =>
    cases h
    exact hs
  | cons e es ih =>
    obtain ⟨s₁, h₁, h₂⟩ := Option.bind_eq_some_iff.1 h
    rw [aloneRun, Bool.and_eq_true, h₁, Option.all_some] at halone
    have hs₁ := step_limited hs (fun host port now he => hwhite host port now (he ▸ List.mem_cons_self)) halone.1 h₁
    exact ih hs₁ (fun host port now he => hwhite host port now (List.mem_cons_of_mem e he)) halone.2 h₂

end

/-- **Two peers per class C.** Where no asked peer is whitelisted, and the dial loop asks for a peer only while no
thread of its class is still on its way to the list, no class has more than two clients in the list. -/
theorem run_two_per_class {es : List Event}
    (hwhite : ∀ host port now, .check host port now ∈ es → Peers.isWhitelisted cfg.toPeersConfig host = false)
    (halone : aloneRun cfg {} es) (h : run cfg {} es = some s) (k : Text) :
    (s.pool.filter (cClassOf · = k)).length ≤ 2 := by
  have hinit : Limited {} := ⟨by simp, by simp, by simp, by simp⟩
  have hs := run_limited hinit hwhite halone h
  have hnodup : s.pool.Nodup := by
    rw [List.nodup_iff_count_le_one]
    intro c
    rw [hs.listed c]
    split <;> simp
  have hset : s.pool.toFinset = s.set := by
    ext c
    rw [List.mem_toFinset, ← List.count_pos_iff, hs.listed c]
    split <;> simp_all
  have hcard : (s.pool.filter (cClassOf · = k)).length = (s.set.filter (cClassOf · = k)).card := by
    rw [← hset, ← List.toFinset_card_of_nodup (hnodup.filter _), List.toFinset_filter]
    simp
  have hle := hs.perClass k
  omega

end Limit

section Sample

private def settings : Settings where
  whitelist := []
  port := 5658
  nodeIp := "10.0.0.1".toList
  own := []

private def hostA : Text := "2.3.4.5".toList
private def clientA : Text := clientOf hostA 5658

/-- A thread is started, greets its peer and enters it. -/
private def opening (host : Text) (i : Nat) : List Event :=
  [.check host 5658 0, .spawn 0, .handshake i, .test i, .append i]

/-- Two connections after each other to the same peer. -/
theorem run_consistent_sample :
    ∃ s, run settings {} (opening hostA 0 ++ .close 0 :: opening hostA 1) = some s ∧ s.outboundCount = 1 ∧
      Consistent s := by
  have hcount : (run settings {} (opening hostA 0 ++ .close 0 :: opening hostA 1)).map (·.outboundCount) = some 1 := by
    decide +kernel
  obtain ⟨s, hrun, hcount⟩ := Option.map_eq_some_iff.1 hcount
  exact ⟨s, hrun, hcount, (run_consistent (by decide +kernel) hrun).1⟩

/-- Half a minute after a dial that is not finished the loop dials the peer again. -/
private def twice : List Event :=
  [.check hostA 5658 0, .spawn 0, .check hostA 5658 31, .spawn 31, .handshake 0, .handshake 1]

private theorem exists_of_any {o : Option State} {p : State → Prop} [DecidablePred p]
    (h : o.any (fun s => decide (p s)) = true) : ∃ s, o = some s ∧ p s := by
  obtain ⟨s, hs, h⟩ := (Option.any_eq_true _ _).1 h
  exact ⟨s, hs, of_decide_eq_true h⟩

/-- **A list and a set that disagree.** Two threads connect to one peer. When both look before one of them appends,
the peer is twice in the list and once in the set, and after both connections have ended it is in the list for good.
When the second one finds the peer in the list, the end of the first connection takes the peer out of the list, although
the second is served. A thread that ends because its peer is banned leaves the peer in both. -/
theorem run_inconsistent :
    (∃ s, run settings {} (twice ++ [.test 0, .test 1, .append 0, .append 1, .close 0, .close 1]) = some s ∧
      s.workers = [.ended, .ended] ∧ s.pool = [clientA] ∧ s.set = ∅ ∧ s.outboundCount = 1) ∧
    (∃ s, run settings {} (twice ++ [.test 0, .append 0, .test 1, .append 1, .close 0]) = some s ∧
      s.workers = [.ended, .live clientA] ∧ s.pool = [] ∧ s.set = ∅) ∧
    ∃ s, run settings {} (opening hostA 0 ++ [.ban [hostA], .leave 0]) = some s ∧
      s.workers = [.ended] ∧ s.pool = [clientA] ∧ s.set = {clientA} := by
  exact ⟨exists_of_any (by decide +kernel), exists_of_any (by decide +kernel), exists_of_any (by decide +kernel)⟩

private def hostB : Text := "2.3.4.6".toList
private def hostC : Text := "2.3.4.7".toList

/-- Two peers of a class one after the other, and a third that the loop does not dial. -/
theorem run_two_per_class_sample :
    ∃ s, run settings {} (opening hostA 0 ++ opening hostB 1 ++ [.check hostC 5658 0]) = some s ∧ s.dial = none ∧
      s.pool.length = 2 ∧ (s.pool.filter (cClassOf · = cClass hostA)).length ≤ 2 := by
  obtain ⟨s, hrun, hdial, hlen⟩ : ∃ s, run settings {} (opening hostA 0 ++ opening hostB 1 ++ [.check hostC 5658 0]) =
      some s ∧ s.dial = none ∧ s.pool.length = 2 := exists_of_any (by decide +kernel)
  refine ⟨s, hrun, hdial, hlen, run_two_per_class ?_ (by decide +kernel) hrun _⟩
  intro host port now hmem
  simp only [opening, List.cons_append, List.nil_append, List.mem_cons, Event.check.injEq, reduceCtorEq, false_or,
    List.not_mem_nil, or_false] at hmem
  obtain ⟨rfl, -⟩ | ⟨rfl, -⟩ | ⟨rfl, -⟩ := hmem <;> decide +kernel

/-- **Three peers of one class C.** The loop dials three peers before the first of them has been entered. -/
theorem run_three_of_class :
    ∃ s, run settings {} [.check hostA 5658 0, .spawn 0, .check hostB 5658 0, .spawn 0, .check hostC 5658 0, .spawn 0,
        .handshake 0, .handshake 1, .handshake 2, .test 0, .append 0, .test 1, .append 1, .test 2, .append 2] = some s ∧
      s.pool = [clientOf hostA 5658, clientOf hostB 5658, clientOf hostC 5658] ∧
      ∀ c ∈ s.pool, cClassOf c = "2.3.4".toList := by
  exact exists_of_any (by decide +kernel)

end Sample

end Outbound

end Bismuth
