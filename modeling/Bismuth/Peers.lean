import Bismuth.Lib.Dict
import Bismuth.Py.Number

/-!
# Peers

`peers_consensus.py`, `peers_reputation.py` and the parts of `peers_access.py` they call: what the node
remembers of its peers, and `essentials.rollback_allowed`, which reads it. `consensus_percentage` is a float
that is never infinite and kept as its value.
-/

namespace Bismuth
open Py

structure PeersConfig where
  whitelist : List Text
  banThreshold : Nat := 30
  rollbackConsensus : Bool := true
  rollbackConsensusThreshold : Int := 75
  rollbackConsensusMinPeers : Int := 3
  rollbackConsensusMinReputable : Int := 1

structure Peers where
  /-- `peer_opinion_dict`. -/
  opinion : Dict Text Int := ∅
  consensus : Option Int := none
  /-- `consensus_percentage`. -/
  percentage : ℚ := 0
  reputation : Dict Text Int := ∅
  banlist : List Text := []
  warningCounts : Dict Text Nat := ∅

/-! ## Votes -/

/-- `percentage_in`, from the number of votes and the number of voters. -/
def percentageIn (votes voters : Nat) : ℚ := binary64.round (binary64.round (votes / voters) * 100)

/-- `most_common_dict`: of the values that come most often the first. -/
def mostCommon (vs : List Int) : Option Int :=
  vs.foldl (fun best v => match best with
    | none => some v
    | some b => if vs.count b < vs.count v then some v else best) none

namespace Peers
variable (cfg : PeersConfig) (s : Peers)

def consensusSize : Nat := s.opinion.size

/-- How many of the peers in the table report a height. -/
def votes (height : Int) : Nat := s.opinion.values.count height

/-! ## Reputation -/

def repMin : Int := -100
def repMax : Int := 100
def repBanBelow : Int := -50
def penaltyInvalidBlock : Nat := 40
def penaltyHeightLie : Nat := 20
def rewardValidBlock : Nat := 5

def clampScore (current delta : Int) : Int := max repMin (min repMax (current + delta))

/-- `reputation`. -/
def reputationOf (ip : Text) : Int := (s.reputation.get? ip).getD 0

def isWhitelisted (ip : Text) : Bool := cfg.whitelist.contains ip || ip = "127.0.0.1".toList

def isBanned (ip : Text) : Bool := s.banlist.contains ip

def penalize (ip : Text) (points : Nat) : Peers :=
  if isWhitelisted cfg ip then s
  else
    let score := clampScore (s.reputationOf ip) (-points)
    { s with
      reputation := s.reputation.set ip score
      banlist := if score ≤ repBanBelow ∧ ip ∉ s.banlist then s.banlist ++ [ip] else s.banlist }

def reward (ip : Text) (points : Nat) : Peers :=
  if isWhitelisted cfg ip then s
  else { s with reputation := s.reputation.set ip (clampScore (s.reputationOf ip) points) }

def warning (ip : Text) (count : Nat) : Peers :=
  if cfg.whitelist.contains ip then s
  else
    let current := (s.warningCounts.get? ip).getD 0 + count
    { s with
      warningCounts := s.warningCounts.set ip current
      banlist := if cfg.banThreshold ≤ current ∧ ip ∉ s.banlist then s.banlist ++ [ip] else s.banlist }

def reputableCount : Nat := s.reputation.values.countP (0 < ·)

/-! ## Opinions -/

/-- Whether `consensus_add` takes the report. -/
def records (ip : Text) (height lastBlock : Int) : Bool :=
  (s.opinion.get? ip).isSome || lastBlock - 720 ≤ height

/-- The tallies that `consensus_add` makes after it has written the report. -/
def tallied (ip : Text) (height : Int) : Peers :=
  let opinion := s.opinion.set ip height
  { s with
    opinion
    consensus := mostCommon opinion.values
    percentage := percentageIn (opinion.values.count height) opinion.size }

def consensusAdd (ip : Text) (height lastBlock : Int) : Peers :=
  if s.records ip height lastBlock then
    let s := s.tallied ip height
    if (∃ c ∈ s.consensus, c + 30 < height) ∧ 50 < s.percentage ∧ 10 < s.opinion.size then
      (s.penalize cfg ip penaltyHeightLie).warning cfg ip 10
    else s
  else s

def consensusRemove (ip : Text) : Peers := { s with opinion := s.opinion.erase ip }

/-! ## Blocks -/

/-- How a digest ends: `benign` are the errors that are not held against the peer. -/
inductive DigestOutcome where
  | accepted
  | rejected (benign : Bool) (hddBlock : Int)

/-- What `digest_block` does to the peers: one that is banned is turned away. -/
def afterDigest (ip : Text) : DigestOutcome → Peers
  | .accepted => if s.isBanned ip then s else s.reward cfg ip rewardValidBlock
  | .rejected benign hddBlock =>
    if s.isBanned ip then s
    else
      let synced := s.consensus.any fun c => c - 5 ≤ hddBlock
      (if synced && !benign then s.penalize cfg ip penaltyInvalidBlock else s).warning cfg ip 2

/-- What `_apply_blocks_locked` does to them. -/
def afterApply (ip : Text) (accepted : Bool) : Peers :=
  if accepted then s.reward cfg ip rewardValidBlock else s.warning cfg ip 2

end Peers

def rollbackAllowed (cfg : PeersConfig) (s : Peers) (checkpoint target : Int) : Bool :=
  checkpoint ≤ target ||
    (cfg.rollbackConsensus && cfg.rollbackConsensusMinPeers ≤ s.consensusSize &&
      (cfg.rollbackConsensusThreshold : ℚ) ≤ s.percentage &&
      cfg.rollbackConsensusMinReputable ≤ s.reputableCount)

/-! ## Runs -/

inductive PeerEvent where
  | report (ip : Text) (height lastBlock : Int)
  | remove (ip : Text)
  | reward (ip : Text) (points : Nat)
  | penalize (ip : Text) (points : Nat)
  /-- A block that a peer or the local miner delivers. -/
  | digest (ip : Text) (outcome : Peers.DigestOutcome)
  /-- A branch that is adopted or a backup that is restored. -/
  | apply (ip : Text) (accepted : Bool)

namespace Peers
variable (cfg : PeersConfig)

def step (s : Peers) : PeerEvent → Peers
  | .report ip height lastBlock => s.consensusAdd cfg ip height lastBlock
  | .remove ip => s.consensusRemove ip
  | .reward ip points => s.reward cfg ip points
  | .penalize ip points => s.penalize cfg ip points
  | .digest ip outcome => s.afterDigest cfg ip outcome
  | .apply ip accepted => s.afterApply cfg ip accepted

def run (es : List PeerEvent) : Peers := es.foldl (step cfg) {}

/-! ## What the percentage stands for -/

/-- A share that reaches a whole percentage as a float reaches it as a fraction. -/
theorem le_of_le_percentageIn {votes voters : Nat} {t : Int} (hle : votes ≤ voters) (hlt : voters < 2 ^ 40)
    (h : (t : ℚ) ≤ percentageIn votes voters) : t * voters ≤ 100 * votes := by
  rcases Nat.eq_zero_or_pos voters with rfl | hpos
  · simp at hle
    simp [hle]
  have hvoters : (0 : ℚ) < voters := by exact_mod_cast hpos
  have hx0 : (0 : ℚ) ≤ votes / voters := by positivity
  have hx1 : (votes : ℚ) / voters ≤ 1 := by
    rw [div_le_one hvoters]
    exact_mod_cast hle
  have hbase : ((binary64.base : ℕ) : ℚ) = 2 := rfl
  -- each rounding adds less than the last place of a number in its range
  have hround : ∀ {x : ℚ} {k : ℤ}, x ≠ 0 → |x| < 2 ^ (k + 53) → -1074 ≤ k → binary64.round x ≤ x + 2 ^ k / 2 := by
    intro x k h0 hx hk
    have hulp := binary64.ulpExp_le h0 (by rw [hbase]; exact hx) hk
    have herr := (abs_le.1 (binary64.abs_round_sub_le x)).2
    rw [hbase] at herr
    have hpow : (2 : ℚ) ^ binary64.ulpExp x ≤ 2 ^ k := zpow_le_zpow_right₀ (by norm_num) hulp
    linarith
  have hy : binary64.round (votes / voters) ≤ votes / voters + 2 ^ (-52 : ℤ) / 2 := by
    rcases eq_or_ne ((votes : ℚ) / voters) 0 with h0 | h0
    · rw [h0, binary64.round_zero]
      positivity
    · refine hround h0 ?_ (by norm_num)
      rw [abs_of_nonneg hx0]
      exact lt_of_le_of_lt hx1 (by norm_num)
  have hy0 : 0 ≤ binary64.round (votes / voters) := binary64.round_nonneg hx0
  have hz : percentageIn votes voters ≤ binary64.round (votes / voters) * 100 + 2 ^ (-46 : ℤ) / 2 := by
    rw [percentageIn]
    rcases eq_or_ne (binary64.round (votes / voters) * 100) 0 with h0 | h0
    · rw [h0, binary64.round_zero]
      positivity
    · refine hround h0 ?_ (by norm_num)
      rw [abs_of_nonneg (by positivity)]
      have : (2 : ℚ) ^ (-52 : ℤ) / 2 < 1 / 10 := by norm_num
      norm_num
      linarith
  have hsum : (t : ℚ) ≤ 100 * (votes / voters) + 1 / 2 ^ 41 := by
    have : (2 : ℚ) ^ (-52 : ℤ) / 2 * 100 + 2 ^ (-46 : ℤ) / 2 ≤ 1 / 2 ^ 41 := by norm_num
    linarith
  have hmul : (t : ℚ) * voters < 100 * votes + 1 := by
    have hbound : (voters : ℚ) * (1 / 2 ^ 41) < 1 := by
      have : (voters : ℚ) < 2 ^ 40 := by exact_mod_cast hlt
      norm_num
      linarith
    calc (t : ℚ) * voters ≤ (100 * (votes / voters) + 1 / 2 ^ 41) * voters := by gcongr
      _ = 100 * votes + voters * (1 / 2 ^ 41) := by field_simp
      _ < 100 * votes + 1 := by linarith
  have hint : t * voters < 100 * votes + 1 := by exact_mod_cast hmul
  omega

def Current (s : Peers) : Prop :=
  s.opinion.size = 0 ∨ ∃ height, s.percentage = percentageIn (s.votes height) s.opinion.size

variable {cfg} {s s' : Peers}

theorem Current.congr (h : s.Current) (hopinion : s'.opinion = s.opinion) (hp : s'.percentage = s.percentage) :
    s'.Current := by
  simp only [Current, votes, hopinion, hp]
  exact h

theorem penalize_frame (cfg : PeersConfig) (s : Peers) (ip : Text) (points : Nat) : (s.penalize cfg ip points).opinion = s.opinion ∧
    (s.penalize cfg ip points).percentage = s.percentage := by
  rw [penalize]
  split
  · exact ⟨rfl, rfl⟩
  · exact ⟨rfl, rfl⟩

theorem reward_frame (s : Peers) (ip : Text) (points : Nat) : (s.reward cfg ip points).opinion = s.opinion ∧
    (s.reward cfg ip points).percentage = s.percentage := by
  rw [reward]
  split
  · exact ⟨rfl, rfl⟩
  · exact ⟨rfl, rfl⟩

theorem warning_frame (cfg : PeersConfig) (s : Peers) (ip : Text) (count : Nat) : (s.warning cfg ip count).opinion = s.opinion ∧
    (s.warning cfg ip count).percentage = s.percentage := by
  rw [warning]
  split
  · exact ⟨rfl, rfl⟩
  · exact ⟨rfl, rfl⟩

theorem afterDigest_frame (s : Peers) (ip : Text) (o : DigestOutcome) :
    (s.afterDigest cfg ip o).opinion = s.opinion ∧ (s.afterDigest cfg ip o).percentage = s.percentage := by
  cases o with
  | accepted =>
    rw [afterDigest]
    split
    · exact ⟨rfl, rfl⟩
    · exact s.reward_frame ip _
  | rejected benign hddBlock =>
    simp only [afterDigest]
    split
    · exact ⟨rfl, rfl⟩
    · rw [(warning_frame _ _ ip 2).1, (warning_frame _ _ ip 2).2]
      split
      · exact penalize_frame _ s ip _
      · exact ⟨rfl, rfl⟩

theorem afterApply_frame (s : Peers) (ip : Text) (accepted : Bool) :
    (s.afterApply cfg ip accepted).opinion = s.opinion ∧
      (s.afterApply cfg ip accepted).percentage = s.percentage := by
  rw [afterApply]
  split
  · exact s.reward_frame ip _
  · exact warning_frame _ s ip _

/-- A report that is taken makes the percentage that of its height. -/
theorem current_consensusAdd (s : Peers) (h : s.records ip height lastBlock = true) :
    (s.consensusAdd cfg ip height lastBlock).Current := by
  have htally : (s.tallied ip height).Current := .inr ⟨height, rfl⟩
  simp only [consensusAdd, h, if_true]
  split
  · obtain ⟨ho, hp⟩ := warning_frame cfg ((s.tallied ip height).penalize cfg ip penaltyHeightLie) ip 10
    obtain ⟨ho', hp'⟩ := penalize_frame cfg (s.tallied ip height) ip penaltyHeightLie
    exact htally.congr (ho.trans ho') (hp.trans hp')
  · exact htally

/-- Every event but the removal of a peer keeps it current. -/
theorem Current.step (h : s.Current) (e : PeerEvent) (he : ∀ ip, e ≠ .remove ip) : (s.step cfg e).Current := by
  cases e with
  | report ip height lastBlock =>
    cases hr : s.records ip height lastBlock with
    | true => exact current_consensusAdd s hr
    | false =>
      show (s.consensusAdd cfg ip height lastBlock).Current
      simp only [consensusAdd, hr]
      exact h
  | remove ip => exact absurd rfl (he ip)
  | reward ip points => exact h.congr (s.reward_frame ip points).1 (s.reward_frame ip points).2
  | penalize ip points => exact h.congr (penalize_frame _ s ip points).1 (penalize_frame _ s ip points).2
  | digest ip o => exact h.congr (s.afterDigest_frame ip o).1 (s.afterDigest_frame ip o).2
  | apply ip accepted => exact h.congr (s.afterApply_frame ip accepted).1 (s.afterApply_frame ip accepted).2

variable (cfg) in
inductive Recounted : List PeerEvent → Prop
  | start : Recounted []
  | report (es : List PeerEvent) : (run cfg es).records ip height lastBlock = true →
    Recounted (es ++ [.report ip height lastBlock])
  | keep : Recounted es → (∀ ip, e ≠ .remove ip) → Recounted (es ++ [e])

theorem run_concat (es : List PeerEvent) (e : PeerEvent) : run cfg (es ++ [e]) = (run cfg es).step cfg e := by
  rw [run, List.foldl_append]
  rfl

theorem Recounted.of_forall (h : ∀ e ∈ es, ∀ ip, e ≠ .remove ip) : Recounted cfg es := by
  induction es using List.reverseRecOn with
  | nil => exact .start
  | append_singleton es e ih => exact .keep (ih fun e he => h e (by simp [he])) (h e (by simp))

theorem Recounted.current (h : Recounted cfg es) : (run cfg es).Current := by
  induction h with
  | start => exact .inl rfl
  | report es hr =>
    rw [run_concat]
    exact current_consensusAdd _ hr
  | keep _ he ih =>
    rw [run_concat]
    exact ih.step _ he

def reputableVoters (s : Peers) : Nat := s.opinion.keys.countP fun ip => 0 < s.reputationOf ip

theorem reputableCount_le (h : ∀ ip, 0 < s.reputationOf ip → ip ∈ s.opinion.keys) :
    s.reputableCount ≤ s.reputableVoters := by
  refine Dict.countP_le s.reputation s.opinion fun ip score hget hscore => ?_
  have hpos : 0 < s.reputationOf ip := by
    rw [reputationOf, hget]
    exact of_decide_eq_true hscore
  exact ⟨h ip hpos, decide_eq_true hpos⟩

theorem votes_le_size (s : Peers) (height : Int) : s.votes height ≤ s.opinion.size := by
  have hlen : s.opinion.values.length = s.opinion.size := List.length_map _
  exact hlen ▸ List.count_le_length

end Peers

/-- In every run in which a height was reported since the last removal and all peers of positive reputation are
in the table, a deep rollback is only allowed with the votes and the reputation it asks for. -/
theorem rollbackAllowed_backed (cfg : PeersConfig) {es : List PeerEvent} (hes : Peers.Recounted cfg es)
    (hin : ∀ ip, 0 < (Peers.run cfg es).reputationOf ip → ip ∈ (Peers.run cfg es).opinion.keys)
    (hsize : (Peers.run cfg es).opinion.size < 2 ^ 40) {checkpoint target : Int} (hdeep : target < checkpoint)
    (h : rollbackAllowed cfg (Peers.run cfg es) checkpoint target = true) :
    (∃ height, cfg.rollbackConsensusThreshold * (Peers.run cfg es).opinion.size ≤
      100 * (Peers.run cfg es).votes height) ∧
    cfg.rollbackConsensusMinReputable ≤ (Peers.run cfg es).reputableVoters := by
  rw [rollbackAllowed, decide_eq_false (not_le.2 hdeep), Bool.false_or] at h
  simp only [Bool.and_eq_true, decide_eq_true_eq] at h
  obtain ⟨⟨-, hpercent⟩, hreputable⟩ := h
  have hcount := Peers.reputableCount_le hin
  refine ⟨?_, by omega⟩
  rcases hes.current with hempty | ⟨height, hheight⟩
  · exact ⟨0, by rw [hempty]; simp⟩
  · rw [hheight] at hpercent
    exact ⟨height, Peers.le_of_le_percentageIn (Peers.votes_le_size _ height) hsize hpercent⟩

/-! ## Two runs -/

/-- Three peers at one height, the last of which has delivered a block, and one far below. -/
def agreeingPeers : List PeerEvent :=
  [.report ['q'] 5 10, .report ['p', '1'] 100 10, .report ['p', '2'] 100 10, .report ['p', '3'] 100 10,
    .digest ['p', '3'] .accepted]

theorem agreeingPeers_recounted (cfg : PeersConfig) : Peers.Recounted cfg agreeingPeers := by
  apply Peers.Recounted.of_forall
  rintro _ he ip rfl
  simp [agreeingPeers] at he

theorem agreeingPeers_allowed :
    rollbackAllowed ⟨[], 30, true, 75, 3, 1⟩ (Peers.run ⟨[], 30, true, 75, 3, 1⟩ agreeingPeers) 60 50 = true ∧
    (Peers.run ⟨[], 30, true, 75, 3, 1⟩ agreeingPeers).opinion.size = 4 ∧
    (Peers.run ⟨[], 30, true, 75, 3, 1⟩ agreeingPeers).reputation.keys = [['p', '3']] ∧
    ['p', '3'] ∈ (Peers.run ⟨[], 30, true, 75, 3, 1⟩ agreeingPeers).opinion.keys := by decide +kernel

theorem rollbackAllowed_backed_sample :
    rollbackAllowed ⟨[], 30, true, 75, 3, 1⟩ (Peers.run ⟨[], 30, true, 75, 3, 1⟩ agreeingPeers) 60 50 = true ∧
    (∃ height, 75 * ((Peers.run ⟨[], 30, true, 75, 3, 1⟩ agreeingPeers).opinion.size : Int) ≤
      100 * (Peers.run ⟨[], 30, true, 75, 3, 1⟩ agreeingPeers).votes height) ∧
    1 ≤ ((Peers.run ⟨[], 30, true, 75, 3, 1⟩ agreeingPeers).reputableVoters : Int) := by
  obtain ⟨hallowed, hsize, hkeys, hmem⟩ := agreeingPeers_allowed
  refine ⟨hallowed, rollbackAllowed_backed _ (agreeingPeers_recounted _) (fun ip hip => ?_)
    (by rw [hsize]; decide) (by decide) hallowed⟩
  rw [Peers.reputationOf] at hip
  cases hget : (Peers.run ⟨[], 30, true, 75, 3, 1⟩ agreeingPeers).reputation.get? ip with
  | none => rw [hget] at hip; cases hip
  | some score =>
    have hip' : ip ∈ (Peers.run ⟨[], 30, true, 75, 3, 1⟩ agreeingPeers).reputation.keys :=
      List.mem_map.2 ⟨_, Dict.mem_entries.2 hget, rfl⟩
    rw [hkeys] at hip'
    rw [List.mem_singleton.1 hip']
    exact hmem

/-- The peers of the first run without one that agrees, the only block being one that the node mined itself. -/
def staleTally : List PeerEvent :=
  [.report ['q'] 5 10, .report ['p', '1'] 100 10, .report ['p', '2'] 100 10, .report ['p', '3'] 100 10,
    .digest "miner".toList .accepted, .remove ['p', '1']]

theorem staleTally_state :
    rollbackAllowed ⟨[], 30, true, 75, 3, 1⟩ (Peers.run ⟨[], 30, true, 75, 3, 1⟩ staleTally) 60 50 = true ∧
    (Peers.run ⟨[], 30, true, 75, 3, 1⟩ staleTally).opinion.values = [5, 100, 100] ∧
    (Peers.run ⟨[], 30, true, 75, 3, 1⟩ staleTally).opinion.size = 3 ∧
    (Peers.run ⟨[], 30, true, 75, 3, 1⟩ staleTally).reputableVoters = 0 := by decide +kernel

/-- After a removal the percentage is still that of the table before it, and the node's own blocks give a
reputation to a name that is no peer. -/
theorem rollbackAllowed_stale :
    rollbackAllowed ⟨[], 30, true, 75, 3, 1⟩ (Peers.run ⟨[], 30, true, 75, 3, 1⟩ staleTally) 60 50 = true ∧
    (∀ height, 100 * ((Peers.run ⟨[], 30, true, 75, 3, 1⟩ staleTally).votes height : Int) <
      75 * (Peers.run ⟨[], 30, true, 75, 3, 1⟩ staleTally).opinion.size) ∧
    (Peers.run ⟨[], 30, true, 75, 3, 1⟩ staleTally).reputableVoters = 0 := by
  obtain ⟨hallowed, hvalues, hsize, hvoters⟩ := staleTally_state
  refine ⟨hallowed, fun height => ?_, hvoters⟩
  have hvotes : (Peers.run ⟨[], 30, true, 75, 3, 1⟩ staleTally).votes height ≤ 2 := by
    rw [Peers.votes, hvalues]
    by_cases h5 : (5 : Int) = height
    · subst h5
      decide
    · rw [List.count_cons_of_ne h5]
      exact List.count_le_length
  rw [hsize]
  omega

end Bismuth
