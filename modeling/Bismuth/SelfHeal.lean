import Bismuth.Peers
import Bismuth.Py.Float

/-!
# The difficulty that disagrees with the peers

`chain_ops.py` and the divergence loop of `node.py`: the node compares its difficulty with the median of its
peers', and a divergence that is confirmed in three cycles arms a rollback for the next start. A counter in a
file beside the ledger bounds how often; a reading that is taken for a match resets it.
-/

namespace Bismuth
open Py

namespace DiffHeal

/-! ## Constants -/

def minPeers : Nat := 3
def maxPoll : Nat := 8
def absThreshold : Number := .ofRat (1 / 2)
/-- The double nearest to `0.02`. -/
def relThreshold : Number := toDouble (2 / 100) false
def heightTol : Int := 1
def agreeFrac : Number := .ofRat (3 / 4)
def forkWindow : Int := 1440
def cooldown : Number := .ofRat 3600
def maxPerDay : Nat := 2
def lifetimeMax : Int := 2
def depthCapMult : Int := 3
def nConfirm : Nat := 3

/-! ## What happens in a cycle -/

/-- What a cycle of the loop finds outside: the clock, the node, its peers and the files. -/
structure Cycle where
  now : Number
  /-- `node.last_block`, as the loop, the detector and the heal find it one after the other. -/
  tip : Int
  polledTip : Int
  healTip : Int
  consensus : Option Int
  forkHeight : Option Int
  /-- `float(node.difficulty[0])`, if it is known. -/
  difficulty : Option Number
  /-- The peers whose REST port was found, in the order of the pool, with the difficulty and the height that
  could be read from their answers. -/
  peers : List (Option (Number × Int))
  /-- A number in an answer is too large to convert, which ends the cycle. -/
  raises : Bool
  autoheal : Bool
  guardNow : Number
  armNow : Number
  rollbackDepth : Int
  checkpoint : Int
  /-- What `essentials.rollback_allowed` answers. -/
  allowed : Bool
  /-- `db_lock` was acquired in time. -/
  locked : Bool
  /-- The file `rollback_to` could be written. -/
  triggered : Bool
  /-- The sidecar could be read. -/
  readable : Bool
  /-- The sidecar could be written. -/
  writable : Bool

/-- `_diff_effective_threshold`. -/
def effectiveThreshold (x : Number) : Number := floatMax absThreshold (floatMul (floatAbs x) relThreshold)

namespace Cycle
variable (c : Cycle)

def samples : List Number :=
  (c.peers.take maxPoll).filterMap fun a => a.bind fun (d, h) => if heightTol < |h - c.polledTip| then none else some d

def median : Number :=
  let s := floatSorted c.samples
  let n := s.length
  let mid := n / 2
  if n % 2 = 1 then s[mid]?.getD .nan else floatDivNat (floatAdd (s[mid - 1]?.getD .nan) (s[mid]?.getD .nan)) 2

def distance (x : Number) : Number := floatAbs (floatSub x c.median)

def peersConsistent (x : Number) : Bool :=
  let agree := c.samples.countP fun y =>
    floatLe (floatAbs (floatSub y c.median)) (floatDivNat (effectiveThreshold x) 2)
  floatLe agreeFrac (floatDivNat (.ofRat agree) c.samples.length)

/-- `detect_difficulty_divergence`: whether we diverge, and the number of samples. -/
def detect : Bool × Nat :=
  match c.difficulty with
  | none => (false, 0)
  | some x =>
    let n := c.samples.length
    if n < minPeers then (false, n)
    else (floatLt (effectiveThreshold x) (c.distance x) && c.peersConsistent x, n)

end Cycle

/-! ## The sidecar -/

structure Sidecar where
  lastHealTs : Number := .ofRat 0
  healCount : Int := 0
  heals24h : List Number := []
  lastTarget : Option Int := none
  deriving DecidableEq

/-- `diffheal_state_read`: a file that is missing or unreadable is a fresh state. -/
def stateRead (c : Cycle) (file : Option Sidecar) : Sidecar := if c.readable then file.getD {} else {}

/-- `diffheal_state_write`: best effort. -/
def stateWrite (c : Cycle) (file : Option Sidecar) (state : Sidecar) : Option Sidecar :=
  if c.writable then some state else file

/-- `[t for t in heals_24h if now - t < 86400]`. -/
def window (state : Sidecar) (now : Number) : List Number :=
  state.heals24h.filter fun t => floatLt (floatSub now t) (.ofRat 86400)

/-- `diffheal_guards_ok`. -/
def guardsOk (armed : Bool) (state : Sidecar) (now : Number) : Bool :=
  !armed && !(!state.lastHealTs.isZero && floatLt (floatSub now state.lastHealTs) cooldown) &&
    !decide (lifetimeMax ≤ state.healCount) && decide ((window state now).length < maxPerDay)

/-- `diffheal_note_clean`. -/
def noteClean (c : Cycle) (file : Option Sidecar) : Option Sidecar :=
  let state := stateRead c file
  if state.healCount = 0 ∧ state.heals24h = [] then file
  else stateWrite c file { state with healCount := 0, heals24h := [] }

/-- `diffheal_target`. -/
def target (c : Cycle) (state : Sidecar) : Option Int :=
  let base := if c.rollbackDepth = 0 then 30 else c.rollbackDepth
  let depth := min (base * (state.healCount + 1)) (base * depthCapMult)
  let target := max (c.healTip - depth) c.checkpoint
  if c.healTip ≤ target then none else if c.allowed then some target else none

/-- `diffheal_arm`: the new sidecar, if the heal was armed. Without the lock nothing happens, and a trigger file
that cannot be written raises. -/
def arm (c : Cycle) (file : Option Sidecar) (target : Int) : Option (Option Sidecar) :=
  if c.locked && c.triggered then
    let state := stateRead c file
    some (stateWrite c file {
      lastHealTs := c.armNow, healCount := state.healCount + 1
      heals24h := window state c.armNow ++ [c.armNow], lastTarget := some target })
  else none

/-! ## The loop -/

/-- The variables of the loop, the flags of the node and the sidecar. -/
structure Loop where
  grace : Number
  confirm : Nat := 0
  last : Option Number := none
  lastTip : Int := -1
  armed : Bool := false
  stopping : Bool := false
  sidecar : Option Sidecar := none

def heal (c : Cycle) (s : Loop) : Loop × Bool :=
  let state := stateRead c s.sidecar
  if c.autoheal && guardsOk s.armed state c.guardNow then
    match (target c state).bind (arm c s.sidecar) with
    | some sidecar => ({ s with sidecar, armed := true, stopping := true }, true)
    | none => (s, false)
  else (s, false)

/-- The debounce: consecutive divergences at a tip that does not fall, with a stable median. -/
def confirmations (c : Cycle) (s : Loop) : Nat :=
  let stable : Bool := match s.last, c.difficulty with
    | some m, some x => floatLe (floatAbs (floatSub c.median m)) (effectiveThreshold x)
    | _, _ => true
  if s.lastTip ≤ c.tip ∧ stable then s.confirm + 1 else 1

def diverged (c : Cycle) (s : Loop) : Loop × Bool :=
  let s := { s with confirm := confirmations c s, last := some c.median, lastTip := c.tip }
  if s.confirm < nConfirm then (s, false) else heal c s

/-- One round of `_difficulty_divergence_loop`, and whether it armed a heal. -/
def cycle (c : Cycle) (s : Loop) : Loop × Bool :=
  if s.stopping then (s, false)
  else if floatLt c.now s.grace then (s, false)
  else if c.consensus.any (c.tip < · - 5) then ({ s with confirm := 0 }, false)
  else if c.forkHeight.any fun fh => |c.tip - fh| ≤ forkWindow then ({ s with confirm := 0 }, false)
  else if c.raises then (s, false)
  else if c.detect.1 then diverged c s
  else
    let s := { s with confirm := 0, last := none }
    if minPeers ≤ c.detect.2 then ({ s with sidecar := noteClean c s.sidecar }, false) else (s, false)

/-- A cycle of the loop, or a start of the node, after which the loop judges nothing for an interval. -/
inductive Event where
  | cycle (c : Cycle)
  | restart (now : Number) (interval : Nat)

def Event.apply (s : Loop) : Event → Loop × Bool
  | .cycle c => DiffHeal.cycle c s
  | .restart now interval =>
    ({ grace := floatAdd now (.ofRat interval), sidecar := s.sidecar }, false)

def heals : List Event → Loop → Nat
  | [], _ => 0
  | e :: es, s => (if (e.apply s).2 then 1 else 0) + heals es (e.apply s).1

/-! ## The budget -/

def Loop.count (s : Loop) : Int := (s.sidecar.getD {}).healCount

/-- The local difficulty is within the threshold of the median of enough peers. -/
def Cycle.Matches (c : Cycle) : Prop :=
  ∃ x, c.difficulty = some x ∧ minPeers ≤ c.samples.length ∧ floatLe (c.distance x) (effectiveThreshold x)

/-- With enough samples the difficulties can be compared and the peers agree with each other. -/
def Cycle.Judged (c : Cycle) : Prop :=
  ∀ x, c.difficulty = some x → minPeers ≤ c.samples.length →
    (∀ y ∈ c.samples, y.IsNumber) ∧ (c.distance x).IsNumber ∧ c.peersConsistent x

def Cycle.Kept (c : Cycle) : Prop := c.readable ∧ c.writable

theorem effectiveThreshold_isNumber (x : Number) : (effectiveThreshold x).IsNumber :=
  floatMax_isNumber ⟨by simp [absThreshold, Number.ofRat], by simp [absThreshold, Number.ofRat]⟩

variable {c : Cycle}

/-- A cycle that is judged and matches nothing diverges, unless it has too few samples. -/
theorem Cycle.detect_of_not_matches (hmatch : ¬c.Matches) (hjudged : c.Judged) :
    c.detect.1 = true ∨ c.detect.2 < minPeers := by
  rw [detect]
  split
  · exact .inr (by decide)
  · rename_i x hx
    dsimp only
    split
    · rename_i hn
      exact .inr hn
    · rename_i hn
      obtain ⟨-, hnum, hcons⟩ := hjudged x hx (not_lt.1 hn)
      have hle : floatLe (c.distance x) (effectiveThreshold x) = false := by
        refine Bool.eq_false_iff.2 fun hle => hmatch ⟨x, hx, not_lt.1 hn, hle⟩
      left
      rw [floatLt_of_not_floatLe hnum (effectiveThreshold_isNumber x) hle, hcons]
      rfl

/-- What a round does to the counter: an armed heal is counted, and only below the lifetime maximum. -/
structure Counted (s : Loop) (r : Loop × Bool) : Prop where
  count : r.1.count = s.count + if r.2 then 1 else 0
  lt : r.2 = true → s.count < lifetimeMax

theorem Counted.idle {s t : Loop} (h : t.sidecar = s.sidecar) : Counted s (t, false) :=
  ⟨by simp [Loop.count, h], nofun⟩

theorem stateRead_of_kept (hc : c.Kept) (file : Option Sidecar) : stateRead c file = file.getD {} :=
  if_pos hc.1

theorem stateWrite_of_kept (hc : c.Kept) (file : Option Sidecar) (state : Sidecar) :
    stateWrite c file state = some state :=
  if_pos hc.2

theorem healCount_lt_of_guardsOk {armed : Bool} {state : Sidecar} {now : Number} (h : guardsOk armed state now = true) :
    state.healCount < lifetimeMax := by
  simp only [guardsOk, Bool.and_eq_true, Bool.not_eq_true', decide_eq_false_iff_not, not_le] at h
  exact h.1.2

theorem arm_count (hc : c.Kept) {file sidecar : Option Sidecar} {target : Int}
    (h : arm c file target = some sidecar) : (sidecar.getD {}).healCount = (file.getD {}).healCount + 1 := by
  rw [arm] at h
  split at h
  · cases h
    rw [stateWrite_of_kept hc, stateRead_of_kept hc]
    rfl
  · cases h

theorem heal_counted (hc : c.Kept) (s : Loop) : Counted s (heal c s) := by
  rw [heal, stateRead_of_kept hc]
  split
  · rename_i hguard
    split
    · rename_i sidecar harm
      obtain ⟨target, -, harm⟩ := Option.bind_eq_some_iff.1 harm
      refine ⟨?_, fun _ => healCount_lt_of_guardsOk (Bool.and_eq_true_iff.1 hguard).2⟩
      simpa [Loop.count] using arm_count hc harm
    · exact .idle rfl
  · exact .idle rfl

theorem diverged_counted (hc : c.Kept) (s : Loop) : Counted s (diverged c s) := by
  rw [diverged]
  split
  · exact .idle rfl
  · obtain ⟨hcount, hlt⟩ := heal_counted hc _
    exact ⟨hcount, hlt⟩

/-- Only a cycle that is taken for clean resets the counter, and none is when no cycle matches. -/
theorem cycle_counted (hmatch : ¬c.Matches) (hjudged : c.Judged) (hc : c.Kept) (s : Loop) :
    Counted s (cycle c s) := by
  rw [cycle]
  split_ifs with h1 h2 h3 h4 h5 h6 h7
  · exact .idle rfl
  · exact .idle rfl
  · exact .idle rfl
  · exact .idle rfl
  · exact .idle rfl
  · exact diverged_counted hc s
  · exact absurd h7 (not_le.2 ((Cycle.detect_of_not_matches hmatch hjudged).resolve_left h6))
  · exact .idle rfl

/-- A cycle without a match, with peers that agree and a sidecar that is kept; or a restart. -/
def Event.Unmatched : Event → Prop
  | .cycle c => ¬c.Matches
  | .restart .. => True

def Event.Sound : Event → Prop
  | .cycle c => c.Judged ∧ c.Kept
  | .restart .. => True

theorem Event.apply_counted {e : Event} (hmatch : e.Unmatched) (he : e.Sound) (s : Loop) : Counted s (e.apply s) := by
  cases e with
  | cycle c => exact cycle_counted hmatch he.1 he.2 s
  | restart => exact .idle rfl

/-- A run arms what the counter leaves below the lifetime maximum. -/
theorem heals_le {es : List Event} (hmatch : ∀ e ∈ es, e.Unmatched) (he : ∀ e ∈ es, e.Sound) {s : Loop}
    (hs : s.count ≤ lifetimeMax) : s.count + heals es s ≤ lifetimeMax := by
  induction es generalizing s with
  | nil => simpa [heals] using hs
  | cons e es ih =>
    obtain ⟨hcount, hlt⟩ := e.apply_counted (hmatch e (by simp)) (he e (by simp)) s
    have hrest := @ih (fun e h => hmatch e (by simp [h])) (fun e h => he e (by simp [h])) (e.apply s).1
    rw [heals]
    split
    · rename_i harm
      rw [harm] at hcount
      have hlt := hlt harm
      simp only [if_true] at hcount
      have := hrest (by omega)
      push_cast
      omega
    · rename_i harm
      simp only [harm] at hcount
      have := hrest (by simpa [hcount] using hs)
      push_cast
      simpa [hcount] using this

/-- **The budget of the self-heal.** A run of the loop from a ledger without a sidecar, across restarts, in which
no cycle matches the peers arms no more heals than the lifetime maximum, if in every cycle with enough samples
the difficulties compare and the peers agree with each other, and the sidecar is readable and writable. -/
theorem heals_le_lifetimeMax {es : List Event} {s : Loop} (hs : s.sidecar = none)
    (hmatch : ∀ e ∈ es, e.Unmatched) (he : ∀ e ∈ es, e.Sound) : heals es s ≤ lifetimeMax := by
  have hcount : s.count = 0 := by simp [Loop.count, hs]
  have := heals_le hmatch he (s := s) (by rw [hcount]; decide)
  omega

/-! ## The gate -/

section Gate
variable (cfg : PeersConfig) (s : Peers) (c : Cycle) (state : Sidecar)

def cappedDepth : Int := (if c.rollbackDepth = 0 then 30 else c.rollbackDepth) * depthCapMult

/-- The height that `diffheal_target` asks `rollback_allowed` about. -/
def clampedTarget : Int :=
  max (c.healTip - min ((if c.rollbackDepth = 0 then 30 else c.rollbackDepth) * (state.healCount + 1)) (cappedDepth c))
    c.checkpoint

/-- `diffheal_target` with the answer that `rollback_allowed` gives to it. -/
def gatedTarget : Option Int :=
  target { c with allowed := rollbackAllowed cfg s c.checkpoint (clampedTarget c state) } state

def PolicyMet : Prop :=
  cfg.rollbackConsensusMinPeers ≤ s.consensusSize ∧ (cfg.rollbackConsensusThreshold : ℚ) ≤ s.percentage ∧
    cfg.rollbackConsensusMinReputable ≤ s.reputableCount

/-- The height is never below the checkpoint, so that the answer is always yes. -/
theorem gatedTarget_eq : gatedTarget cfg s c state =
    if c.healTip ≤ clampedTarget c state then none else some (clampedTarget c state) := by
  have hle : c.checkpoint ≤ clampedTarget c state := le_max_right _ _
  have hallowed : rollbackAllowed cfg s c.checkpoint (clampedTarget c state) = true := by
    rw [rollbackAllowed, decide_eq_true hle, Bool.true_or]
  rw [gatedTarget, target, hallowed, if_pos rfl]
  rfl

/-- **The gate of the self-heal.** A target is at or above the checkpoint, below the tip and within the depth. That
the peers satisfy the policy whenever there is a target means that they satisfy it, or that there is nothing to roll
back to: the gate does not ask. -/
theorem gatedTarget_sound_iff :
    (∀ t, gatedTarget cfg s c state = some t →
      c.checkpoint ≤ t ∧ t < c.healTip ∧ c.healTip - t ≤ cappedDepth c ∧ PolicyMet cfg s) ↔
    c.healTip ≤ clampedTarget c state ∨ PolicyMet cfg s := by
  rw [gatedTarget_eq]
  constructor
  · intro h
    by_cases htip : c.healTip ≤ clampedTarget c state
    · exact .inl htip
    · exact .inr (h _ (if_neg htip)).2.2.2
  · intro h t ht
    split at ht
    · cases ht
    · rename_i htip
      cases ht
      have hdepth : c.healTip - cappedDepth c ≤ clampedTarget c state := by
        refine le_trans ?_ (le_max_left _ _)
        exact sub_le_sub_left (min_le_right _ _) _
      exact ⟨le_max_right _ _, not_le.1 htip, by omega, h.resolve_left htip⟩

end Gate

section Sample

/-- A cycle of a node with difficulty `100` at block `5000`, whose peers answer with these difficulties. -/
private def polled (now : Nat) (answers : List Nat) : Cycle where
  now := .ofRat now
  tip := 5000
  polledTip := 5000
  healTip := 5000
  consensus := some 5000
  forkHeight := none
  difficulty := some (.ofRat 100)
  peers := answers.map fun d => some (.ofRat d, 5000)
  raises := false
  autoheal := true
  guardNow := .ofRat now
  armNow := .ofRat now
  rollbackDepth := 30
  checkpoint := 4000
  allowed := true
  locked := true
  triggered := true
  readable := true
  writable := true

/-- Three cycles with agreeing peers, and the restart that follows. -/
private def episode (now : Nat) : List Event :=
  [.cycle (polled now [110, 110, 110]), .cycle (polled (now + 300) [110, 110, 110]),
    .cycle (polled (now + 600) [110, 110, 110]), .restart (.ofRat (now + 700)) 300]

-- The clock is not read by the comparison, so that each of these is a fact about the cycle at `0`.
private theorem not_matches_polled {now : Nat} {l : List Nat}
    (h : floatLe ((polled 0 l).distance (.ofRat 100)) (effectiveThreshold (.ofRat 100)) = false) :
    ¬(polled now l).Matches := by
  rintro ⟨x, hx, -, hle⟩
  cases hx
  exact absurd (hle.symm.trans h) nofun

private theorem not_matches_agreeing (now : Nat) : ¬(polled now [110, 110, 110]).Matches :=
  not_matches_polled (by decide +kernel)

private theorem judged_agreeing (now : Nat) : (polled now [110, 110, 110]).Judged := by
  intro x hx _
  cases hx
  have h : (∀ y ∈ (polled 0 [110, 110, 110]).samples, y.IsNumber) ∧
      ((polled 0 [110, 110, 110]).distance (.ofRat 100)).IsNumber ∧
        (polled 0 [110, 110, 110]).peersConsistent (.ofRat 100) := by
    decide +kernel
  exact h

private theorem kept_polled (now : Nat) (l : List Nat) : (polled now l).Kept := ⟨rfl, rfl⟩

private theorem unmatched_episode {now : Nat} : ∀ e ∈ episode now, e.Unmatched := by
  simp [episode, Event.Unmatched, not_matches_agreeing]

private theorem sound_episode {now : Nat} : ∀ e ∈ episode now, e.Sound := by
  simp [episode, Event.Sound, judged_agreeing, kept_polled]

/-- With agreeing peers the third episode arms nothing. -/
theorem heals_le_lifetimeMax_episodes :
    heals (episode 1000 ++ episode 10000 ++ episode 200000) ⟨.ofRat 0, 0, none, -1, false, false, none⟩ = 2 ∧
      (heals (episode 1000 ++ episode 10000 ++ episode 200000) ⟨.ofRat 0, 0, none, -1, false, false, none⟩ : Int) ≤
        lifetimeMax := by
  refine ⟨by decide +kernel, heals_le_lifetimeMax rfl ?_ ?_⟩
  · intro e he
    simp only [List.mem_append] at he
    obtain (he | he) | he := he <;> exact unmatched_episode e he
  · intro e he
    simp only [List.mem_append] at he
    obtain (he | he) | he := he <;> exact sound_episode e he

/-- A cycle in which the peers disagree with each other, and all of them with us, is taken for clean: it resets
the counter, and a third heal is armed although no cycle matched. -/
theorem heals_beyond_lifetimeMax :
    ∃ (es : List Event) (s : Loop), s.sidecar = none ∧ (∀ e ∈ es, e.Unmatched) ∧ lifetimeMax < heals es s := by
  refine ⟨episode 1000 ++ episode 10000 ++ .cycle (polled 12000 [104, 110, 120]) :: episode 20000,
    ⟨.ofRat 0, 0, none, -1, false, false, none⟩, rfl, ?_, by decide +kernel⟩
  intro e he
  simp only [List.mem_append, List.mem_cons] at he
  obtain (he | he) | rfl | he := he
  · exact unmatched_episode e he
  · exact unmatched_episode e he
  · exact not_matches_polled (by decide +kernel)
  · exact unmatched_episode e he

/-- A node without a single peer is told to roll back thirty blocks. -/
theorem gatedTarget_ungated :
    gatedTarget { whitelist := [] } {} (polled 0 []) {} = some 4970 ∧ (polled 0 []).checkpoint ≤ (polled 0 []).healTip ∧
      ¬PolicyMet { whitelist := [] } {} := by
  refine ⟨by decide +kernel, by decide, fun h => absurd h.1 (by decide)⟩

end Sample

end DiffHeal

end Bismuth
