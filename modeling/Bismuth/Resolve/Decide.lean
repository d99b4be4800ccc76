import Bismuth.Lib.Run
import Bismuth.Reject
import Mathlib

/-!
# Fork resolution: the decisions

The pure part of `fork_resolution.py`. A probe may find no answer, which is no evidence of anything; the
functions here take the probes as computations, so that anything may happen between two of them.
-/

namespace Bismuth
open Py

inductive Verdict where
  | behind
  | synced
  | reorg
  | deadFork
  | unknown
  | tieWin
  deriving DecidableEq

def linearProbes : Nat := 6
def maxProbeDepth : Nat := 720
def fetchCapBlocks : Nat := 1000
def minAnswersDeep : Nat := 2

/-! ## Ties -/

inductive Side where
  | ours
  | theirs
  deriving DecidableEq

/-- `tie_winner`: a hash that is missing, empty or equal never wins against ours. -/
def tieWinner : Option Text → Option Text → Side
  | some ours, some theirs =>
    if ours = [] ∨ theirs = [] ∨ ours = theirs ∨ ours < theirs then .ours else .theirs
  | _, _ => .ours

theorem tieWinner_eq_theirs (h : tieWinner x y = .theirs) :
    ∃ ours theirs, x = some ours ∧ y = some theirs ∧ theirs < ours := by
  cases x with
  | none => cases h
  | some ours =>
    cases y with
    | none => cases h
    | some theirs =>
      rw [tieWinner] at h
      split at h
      · cases h
      · rename_i hne
        simp only [not_or] at hne
        exact ⟨ours, theirs, rfl, rfl, lt_of_le_of_ne (not_lt.1 hne.2.2.2) (Ne.symm hne.2.2.1)⟩

/-! ## The common ancestor -/

section
variable {ε W : Type} (agrees : Int → Run ε W (Option Bool)) (floor : Int)

/-- The first loop of `find_common_ancestor`, which walks down from a height that disagrees: its answer,
or the height it has come to. -/
def linearWalk : Nat → Int → Run ε W (Option Int ⊕ Int)
  | 0, hi => return .inr hi
  | k + 1, hi =>
    if hi - 1 < floor then return .inl (some (floor - 1))
    else do
      match ← agrees (hi - 1) with
      | none => return .inl none
      | some true => return .inl (some (hi - 1))
      | some false => linearWalk k (hi - 1)

/-- The second loop, between a height that agrees and one that does not. Each round brings them closer, so
that their distance bounds the rounds. -/
def bisect : Nat → Int → Int → Run ε W (Option Int)
  | 0, lo, _ => return some lo
  | fuel + 1, lo, hi =>
    if 1 < hi - lo then do
      match ← agrees ((lo + hi) / 2) with
      | none => return none
      | some true => bisect fuel ((lo + hi) / 2) hi
      | some false => bisect fuel lo ((lo + hi) / 2)
    else return some lo

/-- `find_common_ancestor`: none for a probe without an answer, `floor - 1` for a divergence below it. -/
def findCommonAncestor (tip : Int) (linear : Nat) : Run ε W (Option Int) := do
  match ← agrees tip with
  | none => return none
  | some true => return some tip
  | some false =>
    match ← linearWalk agrees floor linear tip with
    | .inl ancestor => return ancestor
    | .inr hi =>
      if hi ≤ floor then return some (floor - 1)
      else
        match ← agrees floor with
        | none => return none
        | some false => return some (floor - 1)
        | some true => bisect agrees (hi - floor).toNat floor hi

end

end Bismuth
