import Bismuth.Resolve.Trace

/-!
# What an adopted branch is worth

The tip is read, the peer is measured and its branch is fetched without the database lock; the branch
replaces ours under it. What the run knew of our chain when it decided is what it replaces only if no other
thread moved the tip in between, and what it knew of the branch is what it adopts only if the peer served
the block whose hash it had reported.
-/

namespace Bismuth
open Py Relation

section
variable {σ κ π : Type} {P : Prims} {cfg : Config π} {E : Env σ κ π} {w w' : World σ π}
variable {r : Reorg π}

def OthersDigest (P : Prims) (cfg : Config π) (E : Env σ κ π) : Prop :=
  ∀ w, ∃ batches : List (List Submission),
    (E.others w).node = batches.foldl (fun n ss => (digestBlock P cfg ss n).2) w.node

theorem Node.InStep.digestBatches {n : Node π} (H : n.InStep) (batches : List (List Submission)) :
    (batches.foldl (fun n ss => (digestBlock P cfg ss n).2) n).InStep := by
  induction batches generalizing n with
  | nil => exact H
  | cons ss batches ih => exact ih (H.digestAll ss)

theorem OthersDigest.guarded (h : OthersDigest P cfg E) :
    Guarded E fun n n' => n.InStep → n'.InStep where
  refl _ := id
  trans _ _ _ h1 h2 := h2 ∘ h1
  others w H := by
    obtain ⟨batches, hw⟩ := h w
    rw [hw]
    exact H.digestBatches batches

/-- The other threads leave the ledger alone. -/
def OthersQuiet (E : Env σ κ π) : Prop := ∀ w, (E.others w).node.store = w.node.store

theorem OthersQuiet.guarded (h : OthersQuiet E) : Guarded E fun n n' => n'.store = n.store where
  refl _ := rfl
  trans _ _ _ h1 h2 := h2.trans h1
  others := h

/-! ## The height -/

/-- If the tip has not moved since it was read, then a branch that is adopted is no shorter than ours. -/
theorem reorg_not_shorter [DecidableEq κ] {ad : Advert κ} (hothers : OthersDigest P cfg E)
    (hw : w.node.InStep) (h : blocknfMeasured P cfg E ad w = (.ok r, w')) (hadopted : r.adopted = true)
    (hsame : r.before.lastBlock = r.tip) :
    ∃ t t', r.before.store.tip = some t ∧ w'.node.store.tip = some t' ∧ t ≤ t' := by
  obtain ⟨run⟩ := blocknfMeasured_ok h
  have hbefore : r.before.InStep := run.guarded_before hothers.guarded hw
  obtain ⟨n, -, -, hafter, hbeats⟩ := run.adopted hadopted (hsame ▸ hbefore.ranged)
  refine ⟨r.tip, w'.node.lastBlock, hsame ▸ hbefore.ranged.tip_eq, hafter.ranged.tip_eq, ?_⟩
  rcases hbeats with hlt | ⟨-, heq⟩
  · exact hlt.le
  · exact heq.ge

/-! ## Ties -/

/-- Without other threads, a branch of our height is only adopted if the hash that the peer reported for its
first block beats ours: so it does if that is the block it served. -/
theorem reorg_obeys_tie [DecidableEq κ] {ad : Advert κ} (hothers : OthersQuiet E)
    (hw : w.node.store.Ranged t) (h : blocknfMeasured P cfg E ad w = (.ok r, w'))
    (hadopted : r.adopted = true) (hheight : w'.node.store.tip = r.before.store.tip)
    (hserved : ∀ reported, r.reported = some reported →
      w'.node.store.ourHashAt (r.ancestor + 1) = reported) :
    ∃ ours theirs, r.before.store.blockHash (r.ancestor + 1 : Nat) = .ok (some ours) ∧
      w'.node.store.blockHash (r.ancestor + 1 : Nat) = .ok (some theirs) ∧
      tieWinner (some ours) (some theirs) = .theirs ∧ theirs < ours := by
  obtain ⟨run⟩ := blocknfMeasured_ok h
  have hbefore : r.before.store = w.node.store := run.guarded_before hothers.guarded
  obtain ⟨-, n₀, hread, htip⟩ := gates_ok hothers.guarded run.gates_eq
  have htip : w.node.store.tip = some r.tip := hread ▸ blockMaxRam_height htip
  obtain rfl : t = r.tip := Option.some.inj (hw.tip_eq.symm.trans htip)
  obtain ⟨n, -, -, hafter, hbeats⟩ := run.adopted hadopted (hbefore ▸ hw)
  have htie : run.peerHeight = r.tip := by
    rw [hbefore, htip, hafter.ranged.tip_eq, Option.some.injEq] at hheight
    rcases hbeats with hlt | ⟨htie, -⟩
    · omega
    · exact htie
  obtain ⟨reported, n₁, hreported, hsame, -, hwin⟩ := settleTie_ok hothers.guarded htie run.tie_eq
  rw [hsame, run.guarded_measured hothers.guarded, ← hbefore, ← hserved reported hreported] at hwin
  obtain ⟨ours, theirs, hours, htheirs, hlt⟩ := tieWinner_eq_theirs hwin
  refine ⟨ours, theirs, heldHash_eq_some hours, heldHash_eq_some htheirs, ?_, hlt⟩
  rw [hours, htheirs] at hwin
  exact hwin

end

/-! ## A peer and a thread by script -/

/-- A peer that knows our blocks up to height one, reports `reports` and serves `serves`, while another
thread digests `meanwhile` right after our tip was read. -/
def scripted (reports : Option Text) (serves meanwhile : List Submission) : Env Nat Unit Unit where
  others w := {
    env := w.env + 1
    node := if w.env = 2 then (digestBlock .toy (regnet .decimal) meanwhile w.node).2 else w.node }
  dbLocked _ := false
  forkLocked _ := false
  filtered _ := false
  lastBlockOld _ := false
  opinion _ := none
  cached _ _ := none
  checkpoint := 0
  rollbackAllowed _ _ := true
  donors _ _ := [()]
  corroborators _ _ := []
  alive _ s := (true, s)
  knows _ height _ s := (some (height ≤ 1), s)
  hashAt _ _ s := (reports, s)
  blocksAfter _ _ _ s := (some (serves.map some), s)
  inBudget s := (true, s)
  now _ _ := .ofRat 3000000000

theorem scripted_digests (reports : Option Text) (serves meanwhile : List Submission) :
    OthersDigest .toy (regnet .decimal) (scripted reports serves meanwhile) := by
  intro w
  by_cases h : w.env = 2
  · exact ⟨[meanwhile], by simp [scripted, h]⟩
  · exact ⟨[], by simp [scripted, h]⟩

theorem scripted_quiet (reports : Option Text) (serves : List Submission) :
    OthersQuiet (scripted reports serves []) := by
  intro w
  by_cases h : w.env = 2
  · simp only [scripted, h, if_true]
    rfl
  · simp [scripted, h]

def aliceBlock (timestamp signature : Text) : Submission := smallBlock [aliceMines timestamp signature]

def ourBlock : Submission := aliceBlock "1500000000.00".toList ['A', 'A', 'A', 'A']
def theirBlock : Submission := aliceBlock "1500000001.00".toList ['A', 'A', 'A', 'B']

def ourNext : List Submission :=
  [aliceBlock "1500000100.00".toList ['A', 'A', 'A', 'C'],
    aliceBlock "1500000200.00".toList ['A', 'A', 'A', 'D']]
def theirNext : Submission := aliceBlock "1500000101.00".toList ['A', 'A', 'A', 'E']

def tipNode (s : Submission) : Node Unit := nodeAfter .decimal none [s]

theorem tipNode_reach (timestamp signature : Text) :
    Reach .toy (regnet .decimal) smallKeys (fun _ _ => True) (tipNode (aliceBlock timestamp signature)) := by
  refine nodeAfter_reach .decimal rfl fun s hs => ?_
  rw [List.mem_singleton.1 hs]
  exact smallBlock_keys (by simp [aliceMines, smallTx, smallKeys]) (by simp [aliceMines, smallTx])

/-- The peer does not have our tip and says that it is at height `peerHeight`. -/
def resolveTip (E : Env Nat Unit Unit) (n : Node Unit) (peerHeight : Nat) :
    Except Stop (Reorg Unit) × World Nat Unit :=
  blocknfMeasured .toy (regnet .decimal) E ⟨(), n.lastBlockHash, some peerHeight, false⟩ ⟨0, n⟩

/-- What a run on height one shows: what it decided, the tips before and after, and the hashes at height
two before, after and as the peer reported it. -/
structure Outcome where
  adopted : Bool
  tip : Nat
  ancestor : Nat
  lastBlock : Nat
  tips : Option Nat × Option Nat
  ours : Option Text
  theirs : Option Text
  reported : Option (Option Text)
  deriving DecidableEq

def outcome (r : Reorg Unit) (w : World Nat Unit) : Outcome where
  adopted := r.adopted
  tip := r.tip
  ancestor := r.ancestor
  lastBlock := r.before.lastBlock
  tips := (r.before.store.tip, w.node.store.tip)
  ours := r.before.store.ourHashAt 2
  theirs := w.node.store.ourHashAt 2
  reported := r.reported

def outcomeOf (x : Except Stop (Reorg Unit) × World Nat Unit) : Option Outcome :=
  match x.1 with
  | .ok r => some (outcome r x.2)
  | .error _ => none

theorem outcomeOf_eq_some (h : outcomeOf x = some o) : ∃ r w, x = (.ok r, w) ∧ outcome r w = o := by
  obtain ⟨_ | r, w⟩ := x
  · cases h
  · exact ⟨r, w, rfl, Option.some.inj h⟩

def ourHash : Text := "b07743dc0f0215f0989036d7d3c09e41cda5dba99923d1f910e0a42c".toList
def theirHash : Text := "bea5e0ec87a90ad9aca2d1bc6cd22f8463c9bf52e1c9096cd38ac72e".toList

/-! ## Heights by script -/

theorem quiet_outcome :
    outcomeOf (resolveTip (scripted none [theirBlock, theirNext] []) (tipNode ourBlock) 3) =
      some ⟨true, 2, 1, 2, (some 2, some 3), some ourHash, some theirHash, none⟩ := by
  decide +kernel

theorem raced_outcome :
    outcomeOf (resolveTip (scripted none [theirBlock, theirNext] ourNext) (tipNode ourBlock) 3) =
      some ⟨true, 2, 1, 4, (some 4, some 3), some ourHash, some theirHash, none⟩ := by
  decide +kernel

/-- A branch of two blocks replaces our one. -/
theorem reorg_not_shorter_sample : ∃ (w w' : World Nat Unit) (r : Reorg Unit),
    w.node = tipNode ourBlock ∧ r.adopted = true ∧ r.before.lastBlock = r.tip ∧
    ∃ t t', r.before.store.tip = some t ∧ w'.node.store.tip = some t' ∧ t ≤ t' := by
  obtain ⟨r, w', hrun, ho⟩ := outcomeOf_eq_some quiet_outcome
  have hadopted : r.adopted = true := congrArg Outcome.adopted ho
  have hsame : r.before.lastBlock = r.tip :=
    (congrArg Outcome.lastBlock ho).trans (congrArg Outcome.tip ho).symm
  exact ⟨⟨0, tipNode ourBlock⟩, w', r, rfl, hadopted, hsame,
    reorg_not_shorter (scripted_digests _ _ _) (tipNode_reach _ _).inStep hrun hadopted hsame⟩

/-- Two blocks that are digested while the peer is measured are lost to a branch that only beats the tip
before them. -/
theorem reorg_shortens : ∃ (E : Env Nat Unit Unit) (ad : Advert Unit) (w w' : World Nat Unit)
    (r : Reorg Unit), OthersDigest .toy (regnet .decimal) E ∧
    Reach .toy (regnet .decimal) smallKeys (fun _ _ => True) w.node ∧ w.node.InStep ∧
    blocknfMeasured .toy (regnet .decimal) E ad w = (.ok r, w') ∧ r.adopted = true ∧
    r.before.store.tip = some 4 ∧ w'.node.store.tip = some 3 := by
  obtain ⟨r, w', hrun, ho⟩ := outcomeOf_eq_some raced_outcome
  have hreach : Reach .toy (regnet .decimal) smallKeys (fun _ _ => True) (tipNode ourBlock) :=
    tipNode_reach _ _
  exact ⟨_, _, _, w', r, scripted_digests _ _ _, hreach, hreach.inStep, hrun,
    congrArg Outcome.adopted ho, congrArg (·.tips.1) ho, congrArg (·.tips.2) ho⟩

/-! ## Ties by script -/

theorem honest_outcome :
    outcomeOf (resolveTip (scripted (some ourHash) [ourBlock] []) (tipNode theirBlock) 2) =
      some ⟨true, 2, 1, 2, (some 2, some 2), some theirHash, some ourHash, some (some ourHash)⟩ := by
  decide +kernel

theorem lying_outcome :
    outcomeOf (resolveTip (scripted (some ['0']) [theirBlock] []) (tipNode ourBlock) 2) =
      some ⟨true, 2, 1, 2, (some 2, some 2), some ourHash, some theirHash, some (some ['0'])⟩ := by
  decide +kernel

/-- The block with the smaller hash replaces the other. -/
theorem reorg_obeys_tie_sample : ∃ (w w' : World Nat Unit) (r : Reorg Unit),
    w.node = tipNode theirBlock ∧ r.adopted = true ∧ w'.node.store.tip = r.before.store.tip ∧
    ∃ ours theirs, r.before.store.blockHash (r.ancestor + 1 : Nat) = .ok (some ours) ∧
      w'.node.store.blockHash (r.ancestor + 1 : Nat) = .ok (some theirs) ∧
      tieWinner (some ours) (some theirs) = .theirs ∧ theirs < ours := by
  obtain ⟨r, w', hrun, ho⟩ := outcomeOf_eq_some honest_outcome
  have hadopted : r.adopted = true := congrArg Outcome.adopted ho
  have hheight : w'.node.store.tip = r.before.store.tip :=
    (congrArg (·.tips.2) ho).trans (congrArg (·.tips.1) ho).symm
  refine ⟨⟨0, tipNode theirBlock⟩, w', r, rfl, hadopted, hheight,
    reorg_obeys_tie (scripted_quiet _ _) (tipNode_reach _ _).inStep.ranged hrun hadopted hheight ?_⟩
  intro reported h
  have hafter : w'.node.store.ourHashAt (r.ancestor + 1) = some ourHash := by
    rw [show r.ancestor = 1 from congrArg Outcome.ancestor ho]
    exact congrArg Outcome.theirs ho
  have hreported : r.reported = some (some ourHash) := congrArg Outcome.reported ho
  exact hafter.trans (Option.some.inj (hreported.symm.trans h))

/-- Our block is replaced by one whose hash is larger. -/
theorem reorg_breaks_tie : ∃ (E : Env Nat Unit Unit) (ad : Advert Unit) (w w' : World Nat Unit)
    (r : Reorg Unit) (ours theirs : Text), OthersQuiet E ∧
    Reach .toy (regnet .decimal) smallKeys (fun _ _ => True) w.node ∧
    blocknfMeasured .toy (regnet .decimal) E ad w = (.ok r, w') ∧ r.adopted = true ∧
    w'.node.store.tip = r.before.store.tip ∧
    r.before.store.blockHash (r.ancestor + 1 : Nat) = .ok (some ours) ∧
    w'.node.store.blockHash (r.ancestor + 1 : Nat) = .ok (some theirs) ∧
    tieWinner (some ours) (some theirs) = .ours ∧ ours < theirs := by
  obtain ⟨r, w', hrun, ho⟩ := outcomeOf_eq_some lying_outcome
  have ha : r.ancestor = 1 := congrArg Outcome.ancestor ho
  refine ⟨_, _, ⟨0, tipNode ourBlock⟩, w', r, ourHash, theirHash, scripted_quiet _ _,
    tipNode_reach _ _, hrun, congrArg Outcome.adopted ho,
    (congrArg (·.tips.2) ho).trans (congrArg (·.tips.1) ho).symm, ?_, ?_, by decide +kernel,
    by decide +kernel⟩
  · rw [ha]
    exact heldHash_eq_some (congrArg Outcome.ours ho)
  · rw [ha]
    exact heldHash_eq_some (congrArg Outcome.theirs ho)

end Bismuth
