import Bismuth.Digest.Spend
import Bismuth.Peers
import Bismuth.Resolve.Legacy

/-!
# Checkpoints

`essentials.checkpoint_set` recomputes the rollback checkpoint from the tip after every call of the digester that
returns; both resolutions refuse to remove a block below it. Both halves together make the blocks below a
checkpoint final only as long as no checkpoint is computed from a tip that has fallen back.
-/

namespace Bismuth
open Py Relation

/-! ## The checkpoint -/

/-- `round_down`, whose division is one of floats. -/
def roundDown (number order : Nat) : Int :=
  match toDouble ((number : ℚ) / order) false with
  | .fin q _ => ⌊q⌋ * order
  | _ => 0

/-- The limit of `checkpoint_set`, with the option `rollback_depth`. -/
def checkpointLimit (depth lastBlock : Nat) : Nat := if lastBlock < 1450000 then 1000 else depth

/-- The checkpoint that `checkpoint_set` computes. -/
def checkpointAt (depth lastBlock : Nat) : Int :=
  roundDown lastBlock (checkpointLimit depth lastBlock) - checkpointLimit depth lastBlock

structure Marked (π : Type) where
  node : Node π
  checkpoint : Int

section
variable {σ κ π : Type} (P : Prims) (cfg : Config π) (depth : Nat)

/-- `digest_block` under its lock, and `_apply_blocks_locked`. -/
def Marked.apply (ss : List Submission) (m : Marked π) : Marked π :=
  match digestBlock P cfg ss m.node with
  | (.ok _, n) => ⟨n, checkpointAt depth n.lastBlock⟩
  | (.error _, n) => ⟨n, m.checkpoint⟩

/-- A run meets no other thread, and the policy is that of `checkpoint` without deep recovery. -/
structure Env.Shallow (E : Env σ κ π) (checkpoint : Int) : Prop where
  quiet : ∀ w, (E.others w).node = w.node
  floor : E.checkpoint = checkpoint.toNat
  allowed : ∃ (pcfg : PeersConfig) (peers : World σ π → Peers), pcfg.rollbackConsensus = false ∧
    ∀ w (height : Nat), E.rollbackAllowed w height = Bismuth.rollbackAllowed pcfg (peers w) checkpoint height

inductive Drops (ancestor : Nat) (n : Node π) : Node π → Prop
  | drop : ancestor < n.lastBlock → rollbackChain P cfg (ancestor + 1) n = (.ok (), n₁) →
    rollToLocked P cfg ancestor n₁ = (.ok (), n₂) → Drops ancestor n n₂
  | stay : n.lastBlock ≤ ancestor → Drops ancestor n n

variable (up : List Submission → Marked π → Prop) (E : Env σ κ π)

/-- What a measured run does under the lock, with the checkpoint; `up` holds of every application. -/
inductive Replaces (r : Reorg π) (m : Marked π) : Marked π → Prop
  | adopted : r.adopted = true → backupHigher P cfg (r.ancestor + 1) m.node = (.ok backup, n₁) →
    rollToLocked P cfg r.ancestor n₁ = (.ok (), n₂) → up r.held ⟨n₂, m.checkpoint⟩ →
    Replaces r m (Marked.apply P cfg depth r.held ⟨n₂, m.checkpoint⟩)
  | restored : r.adopted = false → backupHigher P cfg (r.ancestor + 1) m.node = (.ok backup, n₁) →
    rollToLocked P cfg r.ancestor n₁ = (.ok (), n₂) → up r.held ⟨n₂, m.checkpoint⟩ →
    Marked.apply P cfg depth r.held ⟨n₂, m.checkpoint⟩ = m₁ → Drops P cfg r.ancestor m₁.node n₃ →
    blocksFromRows cfg.mode backup = .ok blocks →
    up (blocks.zipIdx.map fun (b, i) => ⟨b, E.now i⟩) ⟨n₃, m₁.checkpoint⟩ →
    Replaces r m (Marked.apply P cfg depth (blocks.zipIdx.map fun (b, i) => ⟨b, E.now i⟩) ⟨n₃, m₁.checkpoint⟩)

end

section
variable {π : Type} (P : Prims) (cfg : Config π) (depth : Nat) (up : List Submission → Marked π → Prop)

/-- A call of the digester, or a request that made the node remove blocks, in either mode. `up` holds of every
application of blocks. -/
inductive CheckpointStep : Marked π → Marked π → Prop
  | digest (ss : List Submission) : up ss m → CheckpointStep m (m.apply P cfg depth ss)
  | legacy {σ κ : Type} {E : Env σ κ π} {ad : Advert κ} {w w' : World σ π} : E.Shallow m.checkpoint →
    w.node = m.node → blocknfLegacy P cfg E ad w = (.ok removed, w') →
    CheckpointStep m ⟨w'.node, m.checkpoint⟩
  | measured {σ κ : Type} [DecidableEq κ] {E : Env σ κ π} {ad : Advert κ} {w w' : World σ π} {r : Reorg π} :
    E.Shallow m.checkpoint → w.node = m.node → blocknfMeasured P cfg E ad w = (.ok r, w') →
    Replaces P cfg depth up E r m m' → m'.node = w'.node → CheckpointStep m m'

/-- The blocks are applied on a tip from which the checkpoint does not fall: a call that returns ends at or above
the multiple of the limit that the checkpoint was computed from, and no call ends below its own tip. -/
structure Upholds (ss : List Submission) (m : Marked π) : Prop where
  checkpoint : ∀ hash n, digestBlock P cfg ss m.node = (.ok hash, n) → m.checkpoint ≤ checkpointAt depth n.lastBlock
  grows : m.node.lastBlock ≤ (digestBlock P cfg ss m.node).2.lastBlock

end

variable {π : Type} {P : Prims} {cfg : Config π} {depth : Nat}

/-! ## Applying blocks -/

def KeepsBelow (height : Int) (n n' : Node π) : Prop :=
  ∀ (j : Nat) body, (j : Int) < height → n.store.blocks.get? j = some body → n'.store.blocks.get? j = some body

namespace Marked

theorem apply_node (ss : List Submission) (m : Marked π) :
    (m.apply P cfg depth ss).node = (digestBlock P cfg ss m.node).2 := by
  rw [apply]
  rcases digestBlock P cfg ss m.node with ⟨e | hash, n⟩
  · rfl
  · rfl

theorem apply_checkpoint (P : Prims) (cfg : Config π) (depth : Nat) (ss : List Submission) (m : Marked π) :
    (m.apply P cfg depth ss).checkpoint = m.checkpoint ∨
      ∃ hash n, digestBlock P cfg ss m.node = (.ok hash, n) ∧
        (m.apply P cfg depth ss).checkpoint = checkpointAt depth n.lastBlock := by
  rw [apply]
  rcases digestBlock P cfg ss m.node with ⟨e | hash, n⟩
  · exact .inl rfl
  · exact .inr ⟨hash, n, rfl, rfl⟩

/-- A state whose tip is in step with the ledger moves to another: the checkpoint does not fall, and the blocks
below it stay. -/
structure Final (m m' : Marked π) : Prop where
  inStep : m'.node.InStep
  checkpoint : m.checkpoint ≤ m'.checkpoint
  blocks : KeepsBelow m.checkpoint m.node m'.node

theorem Final.trans {m m' m'' : Marked π} (h : m.Final m') (h' : m'.Final m'') : m.Final m'' :=
  ⟨h'.inStep, h.checkpoint.trans h'.checkpoint, fun j body hj hbody =>
    h'.blocks j body (hj.trans_le h.checkpoint) (h.blocks j body hj hbody)⟩

theorem Final.apply {m : Marked π} (H : m.node.InStep) (h : Upholds P cfg depth ss m) :
    m.Final (m.apply P cfg depth ss) := by
  refine ⟨?_, ?_, fun j body hj hbody => ?_⟩
  · rw [apply_node]
    exact H.digestAll ss
  · obtain hc | ⟨hash, n, hok, hc⟩ := apply_checkpoint P cfg depth ss m
    · exact hc.ge
    · rw [hc]
      exact h.checkpoint hash n hok
  · have hle := (H.ranged.le_of_get? hbody).2
    rw [apply_node, H.digestAll_keeps ss hle (hle.trans h.grows)]
    exact hbody

theorem Final.back {m : Marked π} {n : Node π} (hback : m.node.BackAt n k) (hk : m.checkpoint ≤ k + 1) :
    m.Final ⟨n, m.checkpoint⟩ := by
  refine ⟨hback.inStep, le_rfl, fun j body hj hbody => ?_⟩
  rw [hback.blocks j (by omega)]
  exact hbody

end Marked

/-! ## The two resolutions -/

namespace Env.Shallow
variable {σ κ : Type} {E : Env σ κ π} {checkpoint : Int}

theorem guarded (hE : E.Shallow checkpoint) : Guarded E fun n n' => n' = n where
  refl _ := rfl
  trans _ _ _ h h' := h'.trans h
  others := hE.quiet

theorem le_of_allowed (hE : E.Shallow checkpoint) {height : Nat} (h : E.rollbackAllowed w height = true) :
    checkpoint ≤ height := by
  obtain ⟨pcfg, peers, hoff, hallowed⟩ := hE.allowed
  rw [hallowed, Bismuth.rollbackAllowed, hoff] at h
  simpa using h

theorem le_of_measured [DecidableEq κ] {ad : Advert κ} {w w' : World σ π} {r : Reorg π}
    (hE : E.Shallow checkpoint) (t : RunOf P cfg E ad w r w') : checkpoint ≤ r.ancestor + 1 := by
  obtain ⟨-, w₁, w₂, -, hclass⟩ := measure_stages t.measure_eq
  obtain hle | hallowed := reorgOk_true (classify_reorg hclass).2
  · rw [hE.floor] at hle
    omega
  · exact_mod_cast hE.le_of_allowed hallowed

end Env.Shallow

theorem Marked.Final.legacy {σ κ : Type} {E : Env σ κ π} {ad : Advert κ} {w w' : World σ π} {m : Marked π}
    (H : m.node.InStep) (hE : E.Shallow m.checkpoint) (hw : w.node = m.node)
    (h : blocknfLegacy P cfg E ad w = (.ok removed, w')) : m.Final ⟨w'.node, m.checkpoint⟩ := by
  obtain ⟨k, w₁, hw₁, htip, hallowed, hroll⟩ := blocknfLegacy_ok h
  have hnode : w₁.node = m.node := by rw [hw₁, hE.quiet, hE.quiet, hw]
  rw [hnode] at htip hroll
  obtain rfl : m.node.lastBlock = k := Option.some.inj (H.ranged.tip_eq.symm.trans htip)
  obtain ⟨j, hj, hback⟩ := H.legacyRoll hroll
  have hle := hE.le_of_allowed hallowed
  exact .back hback (by omega)

/-- The node after a branch was dropped is back at the ancestor, which it had not left before. -/
theorem Drops.final {m : Marked π} {n : Node π} (h : Drops P cfg k m.node n) (H : m.node.InStep) (h1 : 1 ≤ k)
    (hk : m.checkpoint ≤ k + 1) : m.Final ⟨n, m.checkpoint⟩ := by
  cases h with
  | drop hlt hchain hroll => exact .back (.restore H.ranged h1 hlt.le hchain hroll) hk
  | stay => exact ⟨H, le_rfl, fun _ _ _ hbody => hbody⟩

section
variable {σ κ : Type} {E : Env σ κ π} {w w' : World σ π}

theorem restoreBranch_ok {backup : List TypedRow}
    (h : restoreBranch P cfg E k w.node.lastBlock backup w = (.ok u, w')) :
    ∃ n blocks, Drops P cfg k w.node n ∧ blocksFromRows cfg.mode backup = .ok blocks ∧
      w'.node = (digestBlock P cfg (blocks.zipIdx.map fun (b, i) => ⟨b, E.now i⟩) n).2 := by
  rw [restoreBranch] at h
  obtain ⟨_, w₁, hdrop, h⟩ := Run.bind_eq_ok.1 h
  obtain ⟨blocks, w₂, hlocked, h⟩ := Run.bind_eq_ok.1 h
  obtain ⟨n, hlift, rfl⟩ := locked_eq_ok.1 hlocked
  obtain ⟨hblocks, rfl⟩ := Run.lift_eq_ok.1 hlift
  obtain rfl := Run.modify_eq_ok.1 h
  refine ⟨w₁.node, blocks, ?_, hblocks, rfl⟩
  rw [dropBranch] at hdrop
  split at hdrop
  · rename_i hlt
    obtain ⟨_, w₃, hfirst, hsecond⟩ := Run.bind_eq_ok.1 hdrop
    obtain ⟨n₁, hchain, rfl⟩ := locked_eq_ok.1 hfirst
    obtain ⟨n₂, hroll, rfl⟩ := locked_eq_ok.1 hsecond
    exact .drop hlt hchain hroll
  · rename_i hlt
    cases hdrop
    exact .stay (not_lt.1 hlt)

/-- What happens under the lock: the branch is adopted if what it reaches beats the tip that was read, and
otherwise ours is restored. -/
theorem replaceBranch_ok (h : replaceBranch P cfg E tip k tie held w = (.ok adopted, w')) :
    ∃ backup n₁ n₂, backupHigher P cfg (k + 1) w.node = (.ok backup, n₁) ∧
      rollToLocked P cfg k n₁ = (.ok (), n₂) ∧
      (adopted = true ∧ w'.node = (digestBlock P cfg held n₂).2 ∨
        adopted = false ∧ ¬(tip < (digestBlock P cfg held n₂).2.lastBlock ∨
          tie = true ∧ (digestBlock P cfg held n₂).2.lastBlock = tip ∧
            k < (digestBlock P cfg held n₂).2.lastBlock) ∧
        ∃ n₃ blocks, Drops P cfg k (digestBlock P cfg held n₂).2 n₃ ∧
          blocksFromRows cfg.mode backup = .ok blocks ∧
          w'.node = (digestBlock P cfg (blocks.zipIdx.map fun (b, i) => ⟨b, E.now i⟩) n₃).2) := by
  rw [replaceBranch] at h
  obtain ⟨backup, w₁, hback, h⟩ := Run.bind_eq_ok.1 h
  obtain ⟨_, w₂, hroll, h⟩ := Run.bind_eq_ok.1 h
  obtain ⟨n₁, hb, rfl⟩ := locked_eq_ok.1 hback
  obtain ⟨n₂, hr, rfl⟩ := locked_eq_ok.1 hroll
  obtain ⟨_, w₃, hm, h⟩ := Run.bind_eq_ok.1 h
  obtain rfl := Run.modify_eq_ok.1 hm
  obtain ⟨_, w₄, hg, h⟩ := Run.bind_eq_ok.1 h
  obtain ⟨rfl, rfl⟩ := Run.get_eq_ok.1 hg
  refine ⟨backup, n₁, n₂, hb, hr, ?_⟩
  split at h
  · cases h
    exact .inl ⟨rfl, rfl⟩
  · rename_i hbeats
    obtain ⟨_, w₅, hrestore, h⟩ := Run.bind_eq_ok.1 h
    cases h
    exact .inr ⟨rfl, hbeats, restoreBranch_ok hrestore⟩

variable [DecidableEq κ] {ad : Advert κ} {r : Reorg π}

theorem CheckpointStep.of_measured {m : Marked π} (hE : E.Shallow m.checkpoint) (hw : w.node = m.node)
    (h : blocknfMeasured P cfg E ad w = (.ok r, w')) :
    ∃ m', m'.node = w'.node ∧ CheckpointStep P cfg depth (fun _ _ => True) m m' := by
  obtain ⟨t⟩ := blocknfMeasured_ok h
  have hbefore : r.before = m.node := (t.guarded_before hE.guarded).trans hw
  have hreplace := t.replace_eq
  obtain ⟨backup, n₁, n₂, hb, hr, ⟨hadopted, hnode⟩ | ⟨hadopted, -, n₃, blocks, hdrop, hblocks, hnode⟩⟩ :=
    replaceBranch_ok hreplace
  · rw [← t.before_eq, hbefore] at hb
    refine ⟨_, ?_, .measured hE hw h (.adopted hadopted hb hr trivial) ?_⟩
    · rw [Marked.apply_node, hnode]
    · rw [Marked.apply_node, hnode]
  · rw [← t.before_eq, hbefore] at hb
    have hheld : (Marked.apply P cfg depth r.held ⟨n₂, m.checkpoint⟩).node = _ := Marked.apply_node ..
    rw [← hheld] at hdrop
    refine ⟨_, ?_, .measured hE hw h (.restored hadopted hb hr trivial rfl hdrop hblocks trivial) ?_⟩
    · rw [Marked.apply_node, hnode]
    · rw [Marked.apply_node, hnode]

theorem RunOf.held_rejected (t : RunOf P cfg E ad w r w') (hadopted : r.adopted = false)
    (hb : backupHigher P cfg (r.ancestor + 1) r.before = (.ok backup, n₁))
    (hr : rollToLocked P cfg r.ancestor n₁ = (.ok (), n₂)) (blockHash : Text) (n : Node π) :
    digestBlock P cfg r.held n₂ ≠ (.ok blockHash, n) := by
  intro hok
  have hreplace := t.replace_eq
  obtain ⟨backup', n₁', n₂', hb', hr', ⟨hadopted', -⟩ | ⟨-, hbeats, -⟩⟩ := replaceBranch_ok hreplace
  · rw [hadopted] at hadopted'
    cases hadopted'
  · rw [← t.before_eq, hb] at hb'
    cases hb'
    rw [hr] at hr'
    cases hr'
    obtain ⟨_, _, _, _, _, _, rfl⟩ := rollToLocked_ok hr
    have hlast := digestBlock_ok_lastBlock hok
    rw [hok] at hbeats
    apply hbeats
    have hlonger := t.longer
    have hlt := t.ancestor_lt
    simp only [decide_eq_true_eq] at hlast ⊢
    omega

/-- What a measured run does under the lock, if every application upholds the checkpoint. -/
theorem Replaces.final {m m' : Marked π} (h : Replaces P cfg depth (Upholds P cfg depth) E r m m')
    (t : RunOf P cfg E ad w r w') (H : m.node.InStep) (hbefore : r.before = m.node)
    (htip : r.ancestor ≤ m.node.lastBlock) (hc : m.checkpoint ≤ r.ancestor + 1) : m.Final m' := by
  cases h with
  | adopted _ hb hr hup =>
    have hback := Marked.Final.back (m := m) (.backup H.ranged t.ancestor_pos htip hb hr) hc
    exact hback.trans (.apply hback.inStep hup)
  | @restored backup n₁ n₂ m₁ n₃ blocks hadopted hb hr hup hm₁ hdrop _ hup' =>
    have hback := Marked.Final.back (m := m) (.backup H.ranged t.ancestor_pos htip hb hr) hc
    have happly := hback.trans (.apply hback.inStep hup)
    have hsame : m₁.checkpoint = m.checkpoint := by
      rw [← hm₁]
      obtain hsame | ⟨blockHash, n, hok, -⟩ :=
        Marked.apply_checkpoint P cfg depth r.held ⟨n₂, m.checkpoint⟩
      · exact hsame
      · exact absurd hok (t.held_rejected hadopted (hbefore ▸ hb) hr blockHash n)
    rw [hm₁] at happly
    have hdropped := happly.trans (hdrop.final happly.inStep t.ancestor_pos (by omega))
    exact hdropped.trans (.apply hdropped.inStep hup')

theorem RunOf.tip_eq {n : Node π} (t : RunOf P cfg E ad w r w') (hE : E.Shallow c) (hw : w.node = n)
    (H : n.InStep) : r.tip = n.lastBlock := by
  obtain ⟨-, n', hn', hmax⟩ := gates_ok hE.guarded t.gates_eq
  have htip := blockMaxRam_height hmax
  rw [show n' = _ from hn', hw, H.ranged.tip_eq] at htip
  exact (Option.some.inj htip).symm

end

/-! ## Runs -/

/-- A step that upholds the checkpoint does not lower it, and removes no block below it. -/
theorem CheckpointStep.final {m m' : Marked π} (h : CheckpointStep P cfg depth (Upholds P cfg depth) m m')
    (H : m.node.InStep) : m.Final m' := by
  cases h with
  | digest ss hup => exact .apply H hup
  | legacy hE hw hrun => exact .legacy H hE hw hrun
  | measured hE hw hrun hrep _ =>
    obtain ⟨t⟩ := blocknfMeasured_ok hrun
    have hbefore := (t.guarded_before hE.guarded).trans hw
    have htip := t.tip_eq hE hw H
    have hlt := t.ancestor_lt
    exact hrep.final t H hbefore (by omega) (hE.le_of_measured t)

theorem Marked.Final.steps {m m' : Marked π} (H : m.node.InStep)
    (h : ReflTransGen (CheckpointStep P cfg depth (Upholds P cfg depth)) m m') : m.Final m' := by
  induction h with
  | refl => exact ⟨H, le_rfl, fun _ _ _ hbody => hbody⟩
  | tail _ hstep ih => exact ih.trans (hstep.final ih.inStep)

/-- A node that meets nobody, with a checkpoint and without deep recovery. -/
def shallowEnv (checkpoint : Int) : Env Unit Unit Unit where
  others w := w
  dbLocked _ := false
  forkLocked _ := false
  filtered _ := false
  lastBlockOld _ := false
  opinion _ := none
  cached _ _ := none
  checkpoint := checkpoint.toNat
  rollbackAllowed _ height :=
    rollbackAllowed { whitelist := [], rollbackConsensus := false } {} checkpoint height
  donors _ _ := []
  corroborators _ _ := []
  alive _ s := (false, s)
  knows _ _ _ s := (none, s)
  hashAt _ _ s := (none, s)
  blocksAfter _ _ _ s := (none, s)
  inBudget s := (true, s)
  now _ _ := .ofRat 0

theorem shallowEnv_shallow (checkpoint : Int) : (shallowEnv checkpoint).Shallow checkpoint where
  quiet _ := rfl
  floor := rfl
  allowed := ⟨_, fun _ => {}, rfl, fun _ _ => rfl⟩

def freshMarked : Marked Unit := ⟨freshNode .decimal none, checkpointAt 30 genesisHeight⟩

theorem freshMarked_digest : checkpointAt 30 2 = checkpointAt 30 genesisHeight ∧
    (digestBlock .toy (regnet .decimal) [minedBlock] (freshNode .decimal none)).2.lastBlock = 2 := by
  decide +kernel

theorem freshMarked_upholds : Upholds .toy (regnet .decimal) 30 [minedBlock] freshMarked := by
  obtain ⟨hsame, hlast⟩ := freshMarked_digest
  refine ⟨fun blockHash n hok => ?_, ?_⟩
  · rw [show freshMarked.node = freshNode .decimal none from rfl] at hok
    rw [hok] at hlast
    rw [show n.lastBlock = 2 from hlast, hsame]
    exact le_rfl
  · rw [show freshMarked.node = freshNode .decimal none from rfl, hlast]
    decide

def lateRow (k : Nat) : Row := sampleRow (1450018 + k) [UInt8.ofNat (k + 1)] (100 * (k + 1)) 500000000

def lateStore : Except Err Store := do
  let st ← commitBlock .toy .decimal {} 1450018 (hex [1]) [lateRow 0] (some (.int 16)) none
  let st ← commitBlock .toy .decimal st 1450019 (hex [2]) [lateRow 1] (some (.int 16)) none
  commitBlock .toy .decimal st 1450020 (hex [3]) [lateRow 2] (some (.int 16)) none

theorem lateStore_tip : (do return (← lateStore).tip : Except Err (Option Nat)) = .ok (some 1450020) := by
  decide +kernel

theorem lateRow_new (k : Nat) (hk : k < 3) :
    NewBlock .decimal (· = ['k']) (1450018 + k) [UInt8.ofNat (k + 1)] [lateRow k] := by
  refine ⟨by simp, fun r hr => ?_, fun r hr => ?_⟩
  · rw [List.mem_singleton.1 hr]
    exact sampleRow_stored (by norm_num; omega) (by norm_num)
  · rw [List.mem_singleton.1 hr]
    rfl

theorem late_history (h : lateStore = .ok st) :
    ∃ l : Ledger, l.store = st ∧ ReflTransGen (Step .toy .decimal (· = ['k']) none) ∅ l := by
  obtain ⟨st₁, h₁, h⟩ := Except.bind_eq_ok.1 h
  obtain ⟨st₂, h₂, h₃⟩ := Except.bind_eq_ok.1 h
  exact ⟨_, rfl, .tail (.tail (.single (.commit _ (lateRow_new 0 (by decide)) (by simp) h₁))
    (.commit _ (lateRow_new 1 (by decide)) (by simp) h₂)) (.commit _ (lateRow_new 2 (by decide)) (by simp) h₃)⟩

def lateNode (store : Store) : Node Unit :=
  { freshNode .decimal none with
    store, lastBlock := 1450020, lastBlockHash := hex [3], forkCaughtUp := true }

/-- A peer does not have the tip with the hash `blockHash`. -/
def dropTip (blockHash : Text) (w : World Unit Unit) : Except Stop (List TypedRow) × World Unit Unit :=
  blocknfLegacy .toy (regnet .decimal) (shallowEnv (checkpointAt 30 1450020)) ⟨(), blockHash, none, false⟩ w

def fallBack (w : World Unit Unit) : Marked Unit :=
  Marked.apply .toy (regnet .decimal) 30 [minedBlock]
    ⟨(dropTip (hex [2]) (dropTip (hex [3]) w).2).2.node, checkpointAt 30 1450020⟩

theorem fallBack_eq : (do
    let w : World Unit Unit := ⟨(), lateNode (← lateStore)⟩
    return ((dropTip (hex [3]) w).1.toBool, (dropTip (hex [2]) (dropTip (hex [3]) w).2).1.toBool,
      (fallBack w).checkpoint) : Except Err (Bool × Bool × Int)) = .ok (true, true, 1449960) := by
  decide +kernel

theorem dropTip_step {blockHash : Text} {w : World Unit Unit} (h : (dropTip blockHash w).1.toBool = true) :
    CheckpointStep .toy (regnet .decimal) 30 (fun _ _ => True) ⟨w.node, checkpointAt 30 1450020⟩
      ⟨(dropTip blockHash w).2.node, checkpointAt 30 1450020⟩ := by
  rcases hrun : dropTip blockHash w with ⟨e | removed, w'⟩
  · rw [hrun] at h
    cases h
  · exact .legacy (shallowEnv_shallow _) rfl hrun

end Bismuth
