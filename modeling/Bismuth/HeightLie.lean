import Bismuth.Peers

/-!
# Peers that claim too great a height

`consensus_add` means to penalise a peer whose height is far above that of the majority. The share it tests is that
of the height the peer itself reports: when this exceeds a half, the reported height is the consensus.
-/

namespace List
variable [DecidableEq α]

/-- Two values have their places in a list apart from each other. -/
theorem count_add_count_le {a b : α} (hab : a ≠ b) (l : List α) : l.count a + l.count b ≤ l.length := by
  induction l with
  | nil => simp
  | cons c l ih =>
    rw [count_cons, count_cons, length_cons]
    by_cases ha : c = a
    · have hb : c ≠ b := fun hb => hab (ha.symm.trans hb)
      simp only [beq_iff_eq, ha, if_true, if_neg (ha ▸ hb)]
      omega
    · simp only [beq_iff_eq, if_neg ha]
      split <;> omega

end List

namespace Bismuth
open Py

/-! ## The most common value -/

/-- The fold of `mostCommon` after the values `vs`. -/
private theorem mostCommon_fold (all vs : List Int) (best : Option Int) (hbest : best = none → vs ≠ []) :
    ∃ b, vs.foldl (fun best v => match best with
      | none => some v
      | some b => if all.count b < all.count v then some v else best) best = some b ∧
      (∀ v ∈ vs, all.count v ≤ all.count b) ∧ ∀ b' ∈ best, all.count b' ≤ all.count b := by
  induction vs generalizing best with
  | nil =>
    cases best with
    | none => exact absurd rfl (hbest rfl)
    | some b => exact ⟨b, rfl, by simp, by simp⟩
  | cons v vs ih =>
    rw [List.foldl_cons]
    cases best with
    | none =>
      obtain ⟨b, hb, hvs, hv⟩ := ih (some v) (by simp)
      refine ⟨b, hb, ?_, by simp⟩
      intro w hw
      obtain rfl | hw := List.mem_cons.1 hw
      · exact hv w rfl
      · exact hvs w hw
    | some b₀ =>
      by_cases hlt : all.count b₀ < all.count v
      · obtain ⟨b, hb, hvs, hv⟩ := ih (some v) (by simp)
        refine ⟨b, by simpa only [if_pos hlt] using hb, ?_, ?_⟩
        · intro w hw
          obtain rfl | hw := List.mem_cons.1 hw
          · exact hv w rfl
          · exact hvs w hw
        · intro b' hb'
          obtain rfl := Option.some.inj hb'
          exact hlt.le.trans (hv v rfl)
      · obtain ⟨b, hb, hvs, hv⟩ := ih (some b₀) (by simp)
        refine ⟨b, by simpa only [if_neg hlt] using hb, ?_, hv⟩
        intro w hw
        obtain rfl | hw := List.mem_cons.1 hw
        · exact (not_lt.1 hlt).trans (hv b₀ rfl)
        · exact hvs w hw

theorem count_le_mostCommon {vs : List Int} (h : mostCommon vs = some c) (hv : v ∈ vs) :
    vs.count v ≤ vs.count c := by
  obtain ⟨b, hb, hvs, -⟩ := mostCommon_fold vs vs none fun _ => List.ne_nil_of_mem hv
  obtain rfl : b = c := Option.some.inj (hb.symm.trans h)
  exact hvs v hv

theorem mostCommon_of_majority {vs : List Int} (h : mostCommon vs = some c) (hv : vs.length < 2 * vs.count v) :
    v = c := by
  by_contra hne
  have hmem : v ∈ vs := List.count_pos_iff.1 (by omega)
  have hle := count_le_mostCommon h hmem
  have hadd := List.count_add_count_le hne vs
  omega

/-! ## The share -/

theorem lt_of_fifty_lt_percentageIn {votes voters : Nat} (h : 50 < percentageIn votes voters) :
    voters < 2 * votes := by
  by_contra hle
  have hhalf : (votes : ℚ) / voters ≤ 1 / 2 := by
    rcases Nat.eq_zero_or_pos voters with rfl | hpos
    · norm_num
    · rw [div_le_div_iff₀ (by exact_mod_cast hpos) (by norm_num)]
      have : 2 * votes ≤ voters := not_lt.1 hle
      have : (2 : ℚ) * votes ≤ voters := by exact_mod_cast this
      linarith
  -- a half and fifty are floats, which no rounding crosses
  have h1 : binary64.round ((votes : ℚ) / voters) ≤ 1 / 2 := by
    have hfix : binary64.round (1 / 2 : ℚ) = 1 / 2 := by decide +kernel
    exact (binary64.round_mono hhalf).trans_eq hfix
  have h2 : percentageIn votes voters ≤ 50 := by
    have hfix : binary64.round (50 : ℚ) = 50 := by decide +kernel
    exact (binary64.round_mono (by linarith)).trans_eq hfix
  exact absurd h (not_lt.2 h2)

/-! ## The penalty -/

namespace Peers
variable (cfg : PeersConfig) (s : Peers)

/-- A report that `consensus_add` records, more than thirty above the height that more than half of more than ten
peers then hold, of a peer that is not whitelisted. -/
structure HeightLie (ip : Text) (height lastBlock : Int) : Prop where
  records : s.records ip height lastBlock = true
  notWhitelisted : isWhitelisted cfg ip = false
  size : 10 < (s.tallied ip height).opinion.size
  above : ∃ c ∈ (s.tallied ip height).consensus,
    (s.tallied ip height).opinion.size < 2 * (s.tallied ip height).votes c ∧ c + 30 < height

/-- The branch of the penalty is never taken. -/
theorem consensusAdd_eq_tallied (ip : Text) (height lastBlock : Int) : s.consensusAdd cfg ip height lastBlock =
    if s.records ip height lastBlock then s.tallied ip height else s := by
  rw [consensusAdd]
  split
  · refine if_neg ?_
    rintro ⟨⟨c, hc, habove⟩, hshare, -⟩
    have hmaj : (s.opinion.set ip height).values.length < 2 * (s.opinion.set ip height).values.count height := by
      rw [Dict.values, List.length_map]
      exact lt_of_fifty_lt_percentageIn hshare
    have : height = c := mostCommon_of_majority hc hmaj
    omega
  · rfl

theorem reputationOf_consensusAdd (ip : Text) (height lastBlock : Int) (peer : Text) :
    (s.consensusAdd cfg ip height lastBlock).reputationOf peer = s.reputationOf peer := by
  rw [consensusAdd_eq_tallied]
  split <;> rfl

/-- Only a reputation at its lower bound is what the penalty makes of it. -/
theorem clampScore_penalty_eq_iff (r : Int) : clampScore r (-penaltyHeightLie) = r ↔ r = repMin := by
  simp only [clampScore, penaltyHeightLie, repMin, repMax]
  omega

/-- A peer that claims too great a height has the reputation after the penalty if and only if the penalty could not
lower it. -/
theorem consensusAdd_penalizes_iff (ip : Text) (height lastBlock : Int) :
    (s.HeightLie cfg ip height lastBlock →
      (s.consensusAdd cfg ip height lastBlock).reputationOf ip =
        clampScore (s.reputationOf ip) (-penaltyHeightLie)) ↔
      (s.HeightLie cfg ip height lastBlock → s.reputationOf ip = repMin) := by
  refine forall_congr' fun _ => ?_
  rw [reputationOf_consensusAdd, eq_comm, clampScore_penalty_eq_iff]

end Peers

def honestPeers : Dict Text Int :=
  (List.range 10).foldl (fun d i => d.set (natText i) 100) ∅

/-- The eleventh peer claims ten times that height and keeps its reputation. -/
theorem consensusAdd_spares_liar :
    let s : Peers := { opinion := honestPeers }
    s.HeightLie ⟨[], 30, true, 75, 3, 1⟩ ['q'] 1000 100 ∧
      (s.consensusAdd ⟨[], 30, true, 75, 3, 1⟩ ['q'] 1000 100).reputationOf ['q'] = 0 ∧
      Peers.clampScore (s.reputationOf ['q']) (-Peers.penaltyHeightLie) = -20 := by
  refine ⟨⟨by decide +kernel, by decide +kernel, by decide +kernel, 100, by decide +kernel, by decide +kernel, by decide⟩,
    by decide +kernel, by decide +kernel⟩

end Bismuth
