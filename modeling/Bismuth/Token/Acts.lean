import Bismuth.Token.Answers
import Bismuth.Token.Names

/-!
# The acts on the ledger and on the names

What the plugin does to the store, on the two abstract levels: the acts about tokens change the ledger and the
acts about aliases the names, and neither changes the other.
-/

namespace Bismuth
open Py

/-- The store after `aliases_rollback`, which leaves it as it is when it raises. -/
def TokenIndex.namesRolledBack (ti : TokenIndex) (height : Nat) : TokenIndex :=
  match ti.aliasesRollback height with
  | .ok ti' => ti'
  | .error _ => ti

/-- `_rollback_plugin_stores`. -/
def TokensAliases.onRollback (height : Nat) (ti : TokenIndex) : TokenIndex :=
  (ti.rolledBack height).namesRolledBack height

def TokenLedger.spendable (l : TokenLedger) (token sender : Text) (height : Nat) : Int :=
  l.total (Movement.hits token sender Movement.recipient) (· < height) -
    l.total (Movement.hits token sender Movement.address) (· ≤ height)

def TokenLedger.act (l : TokenLedger) : Act → TokenLedger
  | .issue height token issuer txid supply => l.step (.registerIssue height token issuer txid supply)
  | .transfer t => l.step (t.call (l.spendable t.token t.sender t.height))
  | .name _ => l

def Names.act (m : Names) : Act → Names
  | .name c => m.step c
  | _ => m

/-- The names that the act asks the store about hold no NUL. -/
def Act.Asks : Act → Prop
  | .transfer t => NulFree t.token ∧ NulFree t.sender
  | _ => True

/-! ## One act -/

theorem TokenCall.apply_frame (c : TokenCall) (ti : TokenIndex) :
    (c.apply ti).aliasFwd = ti.aliasFwd ∧ (c.apply ti).ajournal = ti.ajournal ∧
      (c.apply ti).aliasAnchor = ti.aliasAnchor := by
  rw [apply]
  split
  · rename_i b ti' hrun
    cases b with
    | false =>
      rw [run_false hrun]
      exact ⟨rfl, rfl, rfl⟩
    | true =>
      obtain ⟨op, -, -, rfl⟩ := run_true_iff.1 hrun
      exact ⟨rfl, rfl, rfl⟩
  · exact ⟨rfl, rfl, rfl⟩

theorem AliasCall.apply_frame (c : AliasCall) {ti : TokenIndex} {m : Names} (H : HoldsNames ti m)
    (hs : ti.seq + 1 < 2 ^ 64) : c.apply ti = { ti with
      seq := (c.apply ti).seq, aliasAnchor := (c.apply ti).aliasAnchor
      aliasFwd := (c.apply ti).aliasFwd, aliasRev := (c.apply ti).aliasRev
      ajournal := (c.apply ti).ajournal } ∧
    ti.seq ≤ (c.apply ti).seq ∧ (c.apply ti).seq ≤ ti.seq + 1 := by
  cases hop : c.op? m with
  | some op =>
    rw [apply_of_op H hs hop]
    exact ⟨rfl, Nat.le_succ _, le_rfl⟩
  | none =>
    obtain ⟨anchor, -, -, heq⟩ := apply_of_op_none H hop
    rw [heq]
    exact ⟨rfl, le_rfl, Nat.le_succ _⟩

theorem HoldsNames.step {c : AliasCall} {ti : TokenIndex} {m : Names} (H : HoldsNames ti m)
    (hs : ti.seq + 1 < 2 ^ 64) : HoldsNames (c.apply ti) (m.step c) := by
  cases hop : c.op? m with
  | none =>
    obtain ⟨anchor, -, -, heq⟩ := AliasCall.apply_of_op_none H hop
    rw [heq, Names.step_of_op_none hop]
    exact ⟨H.fwd, H.height⟩
  | some op =>
    obtain ⟨hfits, hw⟩ := AliasCall.op?_eq_some.1 hop
    obtain ⟨hname, -⟩ := AliasCall.name_of_wants hw
    rw [AliasCall.apply_of_op H hs hop, Names.step_of_op hop]
    constructor
    · rw [← hname]
      exact get?_aliasRecorded H.fwd c.height op _
    · intro name owner h hm
      by_cases hn : name = c.name
      · subst hn
        rw [Function.update_self] at hm
        rw [AliasOp.height_of_holder hm]
        exact (hfits.of_wants hw).1
      · rw [Function.update_of_ne hn] at hm
        exact H.height name owner h hm

theorem Refines.congr {ti ti' : TokenIndex} {live : List LiveOp} (H : Refines ti live)
    (h : ti' = { ti with
      seq := ti'.seq, aliasAnchor := ti'.aliasAnchor, aliasFwd := ti'.aliasFwd, aliasRev := ti'.aliasRev
      ajournal := ti'.ajournal }) (hs : ti.seq ≤ ti'.seq) (hlt : ti'.seq < 2 ^ 64) : Refines ti' live := by
  rw [h]
  exact ⟨H.journal, H.cred, H.deb, H.seen, H.tokreg, H.addrtok, H.tokset, H.fits,
    fun e he => (H.seq_le e he).trans hs, hlt⟩

structure Tracks (ti : TokenIndex) (l : TokenLedger) (m : Names) : Prop where
  follows : Follows ti l
  names : HoldsNames ti m

namespace Tracks
variable {ti : TokenIndex} {l : TokenLedger} {m : Names}

theorem empty : Tracks {} [] (fun _ => none) where
  follows := .empty
  names := ⟨fun _ => rfl, fun _ _ _ h => by cases h⟩

theorem call (H : Tracks ti l m) (hs : ti.seq + 1 < 2 ^ 64) (c : TokenCall) :
    Tracks (c.apply ti) (l.step c) m ∧ (c.apply ti).seq ≤ ti.seq + 1 := by
  obtain ⟨hstep, hseq⟩ := H.follows.step hs c
  refine ⟨⟨hstep, ?_, H.names.height⟩, hseq⟩
  rw [(c.apply_frame ti).1]
  exact H.names.fwd

/-- An act does to the store what it does to the ledger and to the names. -/
theorem act {a : Act} (H : Tracks ti l m) (hs : ti.seq + 1 < 2 ^ 64) (ha : a.Asks) :
    Tracks (a.apply ti) (l.act a) (m.act a) ∧ (a.apply ti).seq ≤ ti.seq + 1 := by
  cases a with
  | issue height token issuer txid supply => exact H.call hs _
  | transfer t =>
    have hspend : ti.tokenCredit t.token t.sender t.height - ti.tokenDebit t.token t.sender t.height =
        l.spendable t.token t.sender t.height := by
      rw [TokenLedger.spendable, ← H.follows.sumCred ha.1 ha.2, ← H.follows.sumDeb ha.1 ha.2]
      rfl
    show Tracks (t.apply ti) _ _ ∧ (t.apply ti).seq ≤ _
    rw [TransferAct.apply, hspend]
    exact H.call hs _
  | name c =>
    obtain ⟨hframe, hle, hseq⟩ := c.apply_frame H.names hs
    obtain ⟨live, Hlive, hl⟩ := H.follows
    exact ⟨⟨⟨live, Hlive.congr hframe hle (by show (c.apply ti).seq < _; omega), hl⟩, H.names.step hs⟩, hseq⟩

theorem applyAll (H : Tracks ti l m) (acts : List Act) (hs : ti.seq + acts.length < 2 ^ 64)
    (ha : ∀ a ∈ acts, a.Asks) :
    Tracks (Act.applyAll acts ti) (acts.foldl TokenLedger.act l) (acts.foldl Names.act m) := by
  induction acts generalizing ti l m with
  | nil => exact H
  | cons a acts ih =>
    rw [List.length_cons] at hs
    obtain ⟨hact, hseq⟩ := H.act (by omega) (ha a (by simp))
    exact ih hact (by omega) fun a ha' => ha a (by simp [ha'])

end Tracks

end Bismuth
