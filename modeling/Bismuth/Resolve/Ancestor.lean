import Bismuth.Py.Value
import Bismuth.Resolve.Decide
import Mathlib

/-!
# The search for the common ancestor

What the search found is backed by the answers it got, whatever the peer answers: the ancestor is a height
that the peer knows with one above it that it does not. The answers of one search stand in a log.
-/

namespace Bismuth
open Py

/-! ## One answer -/

/-- What the link returns for `block_height_from_hash`. -/
inductive Reply where
  /-- The link is down, or the peer said nothing. -/
  | fail
  | null
  | value (v : Val)
  /-- A JSON value that is no number and no text. -/
  | other

/-- `PeerLink.knows`. An infinite number is the one reply on which it raises. -/
def linkKnows (height : Int) : Reply → Except (Exc ρ) (Option Bool)
  | .fail | .other => .ok none
  | .null => .ok (some false)
  | .value v =>
    if v.eq (.str []) || v.eq (.str ['N', 'o', 'n', 'e']) then .ok (some false)
    else
      match v.toInt with
      | .ok n => .ok (some (n = height))
      | .error .valueError => .ok none
      | .error e => .error e

/-! ## The answers of a search -/

/-- The heights that were probed, each with its answer. -/
abbrev ProbeLog := List (Int × Option Bool)

section
variable {ε W : Type} {agrees : Int → Run ε W (Option Bool)} {floor : Int}

/-- The probes of `log` were made in this order and lead from one state of the outside to another. -/
inductive Probed (agrees : Int → Run ε W (Option Bool)) : ProbeLog → W → W → Prop
  | nil : Probed agrees [] w w
  | cons : agrees h w = (.ok a, w₁) → Probed agrees log w₁ w₂ → Probed agrees ((h, a) :: log) w w₂

theorem Probed.append (h : Probed agrees log w w₁) (h' : Probed agrees log' w₁ w₂) :
    Probed agrees (log ++ log') w w₂ := by
  induction h with
  | nil => exact h'
  | cons ha _ ih => exact .cons ha (ih h')

/-- A height that disagrees: the one that the stage started from, or one that was probed in it. -/
def Refuted (hi : Int) (log : ProbeLog) (h : Int) : Prop := h = hi ∨ (h, some false) ∈ log

def Confirmed (lo : Int) (log : ProbeLog) (h : Int) : Prop := h = lo ∨ (h, some true) ∈ log

inductive Walked (floor hi : Int) : Option Int ⊕ Int → ProbeLog → Prop
  | unknown : (∃ e ∈ log, e.2 = none) → Walked floor hi (.inl none) log
  | found : floor ≤ a → a < hi → (a, some true) ∈ log → Refuted hi log (a + 1) →
    (∀ e ∈ log, e.2 ≠ none) → Walked floor hi (.inl (some a)) log
  | below : Refuted hi log floor → (∀ e ∈ log, e.2 = some false) →
    Walked floor hi (.inl (some (floor - 1))) log
  | on : floor ≤ hi' → hi' ≤ hi → Refuted hi log hi' → (∀ e ∈ log, e.2 = some false) →
    Walked floor hi (.inr hi') log

theorem Walked.cons (h : Walked floor (hi - 1) x log) :
    Walked floor hi x ((hi - 1, some false) :: log) := by
  have hrefuted : ∀ {k}, Refuted (hi - 1) log k → Refuted hi ((hi - 1, some false) :: log) k := by
    rintro k (rfl | hk)
    · exact .inr List.mem_cons_self
    · exact .inr (List.mem_cons_of_mem _ hk)
  cases h with
  | unknown he =>
    obtain ⟨e, he, hnone⟩ := he
    exact .unknown ⟨e, List.mem_cons_of_mem _ he, hnone⟩
  | found hfloor hlt ha hr hall =>
    exact .found hfloor (by omega) (List.mem_cons_of_mem _ ha) (hrefuted hr)
      (List.forall_mem_cons.2 ⟨nofun, hall⟩)
  | below hr hall => exact .below (hrefuted hr) (List.forall_mem_cons.2 ⟨rfl, hall⟩)
  | on hfloor hle hr hall =>
    exact .on hfloor (by omega) (hrefuted hr) (List.forall_mem_cons.2 ⟨rfl, hall⟩)

theorem linearWalk_walked (hfloor : floor ≤ hi) (h : linearWalk agrees floor k hi w = (.ok x, w')) :
    ∃ log, Probed agrees log w w' ∧ log.length ≤ k ∧ (∀ e ∈ log, floor ≤ e.1 ∧ e.1 < hi) ∧
      Walked floor hi x log := by
  induction k generalizing hi w with
  | zero =>
    cases h
    exact ⟨[], .nil, le_rfl, nofun, .on hfloor le_rfl (.inl rfl) nofun⟩
  | succ k ih =>
    rw [linearWalk] at h
    split at h
    · cases h
      exact ⟨[], .nil, Nat.zero_le _, nofun, .below (.inl (by omega)) nofun⟩
    · obtain ⟨b, w₁, hb, h⟩ := Run.bind_eq_ok.1 h
      match b, h with
      | none, h =>
        cases h
        refine ⟨[(hi - 1, none)], .cons hb .nil, by simp, ?_, .unknown ⟨_, List.mem_cons_self, rfl⟩⟩
        simp only [List.mem_singleton, forall_eq]
        omega
      | some true, h =>
        cases h
        refine ⟨[(hi - 1, some true)], .cons hb .nil, by simp, ?_,
          .found (by omega) (by omega) List.mem_cons_self (.inl (by omega)) ?_⟩
        · simp only [List.mem_singleton, forall_eq]
          omega
        · simp
      | some false, h =>
        obtain ⟨log, hlog, hlen, hrange, hwalked⟩ := ih (by omega) h
        refine ⟨_, .cons hb hlog, by rw [List.length_cons]; omega, ?_, hwalked.cons⟩
        refine List.forall_mem_cons.2 ⟨by dsimp only; omega, fun e he => ?_⟩
        have := hrange e he
        omega

inductive Bisected (lo hi : Int) : Option Int → ProbeLog → Prop
  | unknown : (∃ e ∈ log, e.2 = none) → Bisected lo hi none log
  | found : lo ≤ a → a < hi → Confirmed lo log a → Refuted hi log (a + 1) → (∀ e ∈ log, e.2 ≠ none) →
    Bisected lo hi (some a) log

theorem Bisected.cons_true (hmid : lo < mid) (h : Bisected mid hi x log) :
    Bisected lo hi x ((mid, some true) :: log) := by
  cases h with
  | unknown he =>
    obtain ⟨e, he, hnone⟩ := he
    exact .unknown ⟨e, List.mem_cons_of_mem _ he, hnone⟩
  | found hlo hhi hc hr hall =>
    refine .found (by omega) hhi ?_ (hr.imp_right (List.mem_cons_of_mem _))
      (List.forall_mem_cons.2 ⟨nofun, hall⟩)
    rcases hc with rfl | hc
    · exact .inr List.mem_cons_self
    · exact .inr (List.mem_cons_of_mem _ hc)

theorem Bisected.cons_false (hmid : mid < hi) (h : Bisected lo mid x log) :
    Bisected lo hi x ((mid, some false) :: log) := by
  cases h with
  | unknown he =>
    obtain ⟨e, he, hnone⟩ := he
    exact .unknown ⟨e, List.mem_cons_of_mem _ he, hnone⟩
  | found hlo hhi hc hr hall =>
    refine .found hlo (by omega) (hc.imp_right (List.mem_cons_of_mem _)) ?_
      (List.forall_mem_cons.2 ⟨nofun, hall⟩)
    rcases hr with hr | hr
    · rw [hr]
      exact .inr List.mem_cons_self
    · exact .inr (List.mem_cons_of_mem _ hr)

theorem clog_half (h : 2 ≤ n) (hm : m ≤ (n + 1) / 2) : Nat.clog 2 m + 1 ≤ Nat.clog 2 n := by
  rw [Nat.clog_of_two_le (by decide) h]
  have := Nat.clog_mono_right 2 (show m ≤ (n + 2 - 1) / 2 by omega)
  omega

theorem bisect_bisected (hlt : lo < hi) (hfuel : (hi - lo).toNat ≤ fuel)
    (h : bisect agrees fuel lo hi w = (.ok x, w')) :
    ∃ log, Probed agrees log w w' ∧ log.length ≤ Nat.clog 2 (hi - lo).toNat ∧
      (∀ e ∈ log, lo < e.1 ∧ e.1 < hi) ∧ Bisected lo hi x log := by
  induction fuel generalizing lo hi w with
  | zero => omega
  | succ fuel ih =>
    rw [bisect] at h
    split at h
    · rename_i hgap
      obtain ⟨b, w₁, hb, h⟩ := Run.bind_eq_ok.1 h
      have hhalf : ∀ {d : Int}, d.toNat ≤ ((hi - lo).toNat + 1) / 2 →
          Nat.clog 2 d.toNat + 1 ≤ Nat.clog 2 (hi - lo).toNat := clog_half (by omega)
      match b, h with
      | none, h =>
        cases h
        refine ⟨[((lo + hi) / 2, none)], .cons hb .nil, ?_, ?_, .unknown ⟨_, List.mem_cons_self, rfl⟩⟩
        · have := @hhalf 0 (by omega)
          rw [List.length_singleton]
          omega
        · simp only [List.mem_singleton, forall_eq]
          omega
      | some true, h =>
        obtain ⟨log, hlog, hlen, hrange, hbis⟩ := ih (by omega) (by omega) h
        refine ⟨_, .cons hb hlog, ?_, ?_, hbis.cons_true (by omega)⟩
        · have := @hhalf (hi - (lo + hi) / 2) (by omega)
          rw [List.length_cons]
          omega
        · refine List.forall_mem_cons.2 ⟨by dsimp only; omega, fun e he => ?_⟩
          have := hrange e he
          omega
      | some false, h =>
        obtain ⟨log, hlog, hlen, hrange, hbis⟩ := ih (by omega) (by omega) h
        refine ⟨_, .cons hb hlog, ?_, ?_, hbis.cons_false (by omega)⟩
        · have := @hhalf ((lo + hi) / 2 - lo) (by omega)
          rw [List.length_cons]
          omega
        · refine List.forall_mem_cons.2 ⟨by dsimp only; omega, fun e he => ?_⟩
          have := hrange e he
          omega
    · cases h
      exact ⟨[], .nil, Nat.zero_le _, nofun, .found le_rfl hlt (.inl rfl) (.inl (by omega)) nofun⟩

/-! ## The whole search -/

structure Evidence (floor tip : Int) (r : Option Int) (log : ProbeLog) : Prop where
  none_iff : r = none ↔ ∃ e ∈ log, e.2 = none
  atTip : r = some tip → (tip, some true) ∈ log
  between : ∀ a, r = some a → floor ≤ a → a < tip → (a, some true) ∈ log ∧ (a + 1, some false) ∈ log
  below : r = some (floor - 1) → (floor, some false) ∈ log ∧ ∀ e ∈ log, e.2 = some false
  range : ∀ a, r = some a → floor - 1 ≤ a ∧ a ≤ tip
  probed : ∀ e ∈ log, floor ≤ e.1 ∧ e.1 ≤ tip

namespace Evidence
variable {tip a : Int} {log : ProbeLog}

theorem unknown (hrange : ∀ e ∈ log, floor ≤ e.1 ∧ e.1 ≤ tip) (h : ∃ e ∈ log, e.2 = none) :
    Evidence floor tip none log :=
  ⟨iff_of_true rfl h, nofun, nofun, nofun, nofun, hrange⟩

theorem disagree (hfloor : floor ≤ tip) (hrange : ∀ e ∈ log, floor ≤ e.1 ∧ e.1 ≤ tip)
    (hmem : (floor, some false) ∈ log) (hall : ∀ e ∈ log, e.2 = some false) :
    Evidence floor tip (some (floor - 1)) log where
  none_iff := by
    refine iff_of_false nofun ?_
    rintro ⟨e, he, hnone⟩
    rw [hall e he] at hnone
    cases hnone
  atTip h := by
    have := Option.some.inj h
    omega
  between a h h1 _ := by
    have := Option.some.inj h
    omega
  below _ := ⟨hmem, hall⟩
  range a h := by
    have := Option.some.inj h
    omega
  probed := hrange

theorem between_of (hfloor : floor ≤ a) (htip : a < tip) (hrange : ∀ e ∈ log, floor ≤ e.1 ∧ e.1 ≤ tip)
    (hall : ∀ e ∈ log, e.2 ≠ none) (htrue : (a, some true) ∈ log) (hfalse : (a + 1, some false) ∈ log) :
    Evidence floor tip (some a) log where
  none_iff := by
    refine iff_of_false nofun ?_
    rintro ⟨e, he, hnone⟩
    exact hall e he hnone
  atTip h := by
    have := Option.some.inj h
    omega
  between a' h _ _ := by
    cases h
    exact ⟨htrue, hfalse⟩
  below h := by
    have := Option.some.inj h
    omega
  range a' h := by
    have := Option.some.inj h
    omega
  probed := hrange

/-- The search above the floor, after the walk from the tip down to `hi` met only disagreement. -/
theorem of_bisected (hrange : ∀ e ∈ log, floor ≤ e.1 ∧ e.1 ≤ tip) (hall : ∀ e ∈ log, e.2 = some false)
    (hr : (hi, some false) ∈ log) (hle : hi ≤ tip) (hfloor : floor ≤ tip) (h : Bisected floor hi x log')
    (hrange' : ∀ e ∈ log', floor < e.1 ∧ e.1 < hi) :
    Evidence floor tip x (log ++ (floor, some true) :: log') := by
  have hsub : ∀ {e}, e ∈ log' → e ∈ log ++ (floor, some true) :: log' := fun he =>
    List.mem_append_right _ (List.mem_cons_of_mem _ he)
  have hin : ∀ e ∈ log ++ (floor, some true) :: log', floor ≤ e.1 ∧ e.1 ≤ tip := by
    refine List.forall_mem_append.2 ⟨hrange, List.forall_mem_cons.2 ⟨⟨le_rfl, hfloor⟩, fun e he => ?_⟩⟩
    have := hrange' e he
    omega
  cases h with
  | unknown he =>
    obtain ⟨e, he, hnone⟩ := he
    exact .unknown hin ⟨e, hsub he, hnone⟩
  | found hlo hhi hc hr' hall' =>
    refine .between_of hlo (by omega) hin ?_ ?_ ?_
    · refine List.forall_mem_append.2 ⟨fun e he => ?_, List.forall_mem_cons.2 ⟨nofun, hall'⟩⟩
      rw [hall e he]
      nofun
    · rcases hc with rfl | hc
      · exact List.mem_append_right _ List.mem_cons_self
      · exact hsub hc
    · rcases hr' with hr' | hr'
      · rw [hr']
        exact List.mem_append_left _ hr
      · exact hsub hr'

end Evidence

theorem findCommonAncestor_evidence {tip : Int} (hfloor : floor ≤ tip)
    (h : findCommonAncestor agrees floor tip linear w = (.ok r, w')) :
    ∃ log, Probed agrees log w w' ∧ log.length ≤ linear + 2 + Nat.clog 2 (tip - floor).toNat ∧
      Evidence floor tip r log := by
  rw [findCommonAncestor] at h
  obtain ⟨b, w₁, hb, h⟩ := Run.bind_eq_ok.1 h
  have htop : ∀ a, ∀ e ∈ [((tip, a) : Int × Option Bool)], floor ≤ e.1 ∧ e.1 ≤ tip := by
    intro a e he
    rw [List.mem_singleton.1 he]
    exact ⟨hfloor, le_rfl⟩
  match b, h with
  | none, h =>
    cases h
    exact ⟨[(tip, none)], .cons hb .nil, by simp only [List.length_singleton]; omega,
      .unknown (htop _) ⟨_, List.mem_cons_self, rfl⟩⟩
  | some true, h =>
    cases h
    refine ⟨[(tip, some true)], .cons hb .nil, by simp only [List.length_singleton]; omega, ?_⟩
    exact {
      none_iff := by simp
      atTip := fun _ => List.mem_cons_self
      between := fun a h _ hlt => absurd (Option.some.inj h) (by omega)
      below := fun h => absurd (Option.some.inj h) (by omega)
      range := fun a h => by have := Option.some.inj h; omega
      probed := htop _ }
  | some false, h =>
    obtain ⟨x, w₂, hx, h⟩ := Run.bind_eq_ok.1 h
    obtain ⟨log, hlog, hlen, hrange, hwalked⟩ := linearWalk_walked hfloor hx
    have hprobed : Probed agrees ((tip, some false) :: log) w w₂ := .cons hb hlog
    have hrange' : ∀ e ∈ (tip, some false) :: log, floor ≤ e.1 ∧ e.1 ≤ tip := by
      refine List.forall_mem_cons.2 ⟨⟨hfloor, le_rfl⟩, fun e he => ?_⟩
      have := hrange e he
      omega
    have hrefuted : ∀ {k}, Refuted tip log k → (k, some false) ∈ (tip, some false) :: log := by
      rintro k (rfl | hk)
      · exact List.mem_cons_self
      · exact List.mem_cons_of_mem _ hk
    cases hwalked with
    | unknown he =>
      cases h
      obtain ⟨e, he, hnone⟩ := he
      exact ⟨_, hprobed, by rw [List.length_cons]; omega,
        .unknown hrange' ⟨e, List.mem_cons_of_mem _ he, hnone⟩⟩
    | found hle hlt htrue hr hall =>
      cases h
      exact ⟨_, hprobed, by rw [List.length_cons]; omega, .between_of hle hlt hrange'
        (List.forall_mem_cons.2 ⟨nofun, hall⟩) (List.mem_cons_of_mem _ htrue) (hrefuted hr)⟩
    | below hr hall =>
      cases h
      exact ⟨_, hprobed, by rw [List.length_cons]; omega,
        .disagree hfloor hrange' (hrefuted hr) (List.forall_mem_cons.2 ⟨rfl, hall⟩)⟩
    | @on hi _ hhi hle hr hall =>
      dsimp only at h
      split at h
      · rename_i hend
        obtain rfl : hi = floor := by omega
        cases h
        exact ⟨_, hprobed, by rw [List.length_cons]; omega,
          .disagree hfloor hrange' (hrefuted hr) (List.forall_mem_cons.2 ⟨rfl, hall⟩)⟩
      · rename_i hgap
        obtain ⟨b, w₃, hb', h⟩ := Run.bind_eq_ok.1 h
        have hprobed' : ∀ {log' w''}, Probed agrees log' w₃ w'' →
            Probed agrees ((tip, some false) :: log ++ (floor, b) :: log') w w'' := fun h' =>
          hprobed.append (.cons hb' h')
        have hall' : ∀ e ∈ (tip, some false) :: log, e.2 = some false := List.forall_mem_cons.2 ⟨rfl, hall⟩
        have hlast : (floor, b) ∈ (tip, some false) :: log ++ [(floor, b)] :=
          List.mem_append_right _ List.mem_cons_self
        have hrange'' : ∀ e ∈ (tip, some false) :: log ++ [(floor, b)], floor ≤ e.1 ∧ e.1 ≤ tip :=
          List.forall_mem_append.2 ⟨hrange', List.forall_mem_cons.2 ⟨⟨le_rfl, hfloor⟩, nofun⟩⟩
        match b, h with
        | none, h =>
          cases h
          refine ⟨_, hprobed' .nil, ?_, .unknown hrange'' ⟨_, hlast, rfl⟩⟩
          simp only [List.length_cons, List.length_append, List.length_nil]
          omega
        | some false, h =>
          cases h
          refine ⟨_, hprobed' .nil, ?_, .disagree hfloor hrange'' hlast ?_⟩
          · simp only [List.length_cons, List.length_append, List.length_nil]
            omega
          · exact List.forall_mem_append.2 ⟨hall', List.forall_mem_cons.2 ⟨rfl, nofun⟩⟩
        | some true, h =>
          obtain ⟨log', hlog', hlen', hin, hbis⟩ := bisect_bisected (by omega) le_rfl h
          refine ⟨_, hprobed' hlog', ?_, .of_bisected hrange' hall' (hrefuted hr) hle hfloor hbis hin⟩
          have := Nat.clog_mono_right 2 (show (hi - floor).toNat ≤ (tip - floor).toNat by omega)
          simp only [List.length_cons, List.length_append]
          omega

end

/-! ## Probing with our hashes -/

section
variable {W : Type} (ourHashAt : Int → Option Text) (knows : Int → Text → Run Empty W (Option Bool))

/-- `agrees`: without a hash of ours there is no answer. -/
def probe (h : Int) : Run Empty W (Option Bool) :=
  match ourHashAt h with
  | none => return none
  | some hash => if hash = [] then return none else knows h hash

def Shared (theirHashAt : Int → Option Text) (h : Int) : Prop := theirHashAt h = ourHashAt h

variable {ourHashAt knows}

theorem exists_ok (x : Run Empty W α) (w : W) : ∃ a w', x w = (.ok a, w') := by
  rcases h : x w with ⟨e | a, w'⟩
  · exact e.elim
  · exact ⟨a, w', rfl⟩

theorem Probed.shared {theirHashAt : Int → Option Text} (h : Probed (probe ourHashAt knows) log w w')
    (hours : ∀ k, floor ≤ k → k ≤ tip → ∃ hash, hash ≠ [] ∧ ourHashAt k = some hash)
    (hknows : ∀ k hash w, floor ≤ k → k ≤ tip →
      (knows k hash w).1 = .ok (some (decide (theirHashAt k = some hash))))
    (hrange : ∀ e ∈ log, floor ≤ e.1 ∧ e.1 ≤ tip) :
    ∀ e ∈ log, ∃ b, e.2 = some b ∧ (b = true ↔ Shared ourHashAt theirHashAt e.1) := by
  induction h with
  | nil => nofun
  | @cons k w a w₁ log w₂ ha _ ih =>
    obtain ⟨hk, hrange⟩ := List.forall_mem_cons.1 hrange
    refine List.forall_mem_cons.2 ⟨?_, ih hrange⟩
    obtain ⟨hash, hne, hash_eq⟩ := hours k hk.1 hk.2
    have hanswer := hknows k hash w hk.1 hk.2
    simp only [probe, hash_eq, if_neg hne] at ha
    rw [ha] at hanswer
    refine ⟨_, Except.ok.inj hanswer, ?_⟩
    rw [Shared, hash_eq, decide_eq_true_iff]

/-- The search ends, after few probes, with a result that the answers bear out. If they are those of a
chain that shares a first part with ours, it is the last height of that part. -/
theorem findCommonAncestor_exact {floor tip : Int} (hfloor : floor ≤ tip) (linear : Nat) (w : W) :
    ∃ r log w', findCommonAncestor (probe ourHashAt knows) floor tip linear w = (.ok r, w') ∧
      Probed (probe ourHashAt knows) log w w' ∧
      log.length ≤ linear + 2 + Nat.clog 2 (tip - floor).toNat ∧ Evidence floor tip r log ∧
      ∀ theirHashAt : Int → Option Text,
        (∀ k, floor ≤ k → k ≤ tip → ∃ hash, hash ≠ [] ∧ ourHashAt k = some hash) →
        (∀ k hash w, floor ≤ k → k ≤ tip →
          (knows k hash w).1 = .ok (some (decide (theirHashAt k = some hash)))) →
        (∀ j k, floor ≤ j → j ≤ k → k ≤ tip → Shared ourHashAt theirHashAt k →
          Shared ourHashAt theirHashAt j) →
        (∃ a, r = some a ∧
          IsGreatest {k | floor ≤ k ∧ k ≤ tip ∧ Shared ourHashAt theirHashAt k} a) ∨
        r = some (floor - 1) ∧ ∀ k, floor ≤ k → k ≤ tip → ¬Shared ourHashAt theirHashAt k := by
  obtain ⟨r, w', h⟩ := exists_ok (findCommonAncestor (probe ourHashAt knows) floor tip linear) w
  obtain ⟨log, hlog, hlen, hev⟩ := findCommonAncestor_evidence hfloor h
  refine ⟨r, log, w', h, hlog, hlen, hev, ?_⟩
  intro theirHashAt hours hknows hagree
  have hshared := hlog.shared hours hknows hev.probed
  have hyes : ∀ {k}, (k, some true) ∈ log → Shared ourHashAt theirHashAt k := fun hk => by
    obtain ⟨b, hb, hiff⟩ := hshared _ hk
    exact hiff.1 (Option.some.inj hb).symm
  have hno : ∀ {k}, (k, some false) ∈ log → ¬Shared ourHashAt theirHashAt k := fun hk hs => by
    obtain ⟨b, hb, hiff⟩ := hshared _ hk
    cases (Option.some.inj hb).trans (hiff.2 hs)
  cases r with
  | none =>
    obtain ⟨e, he, hnone⟩ := hev.none_iff.1 rfl
    obtain ⟨b, hb, -⟩ := hshared e he
    rw [hnone] at hb
    cases hb
  | some a =>
    have ha := hev.range a rfl
    by_cases hbelow : a < floor
    · obtain rfl : a = floor - 1 := by omega
      refine .inr ⟨rfl, fun k hk htip hs => ?_⟩
      exact hno (hev.below rfl).1 (hagree floor k le_rfl hk htip hs)
    · refine .inl ⟨a, rfl, ?_⟩
      by_cases htip : a = tip
      · subst htip
        exact ⟨⟨hfloor, le_rfl, hyes (hev.atTip rfl)⟩, fun k hk => hk.2.1⟩
      · obtain ⟨htrue, hfalse⟩ := hev.between a rfl (by omega) (by omega)
        refine ⟨⟨by omega, ha.2, hyes htrue⟩, fun k hk => ?_⟩
        by_contra hlt
        exact hno hfalse (hagree (a + 1) k (by omega) (by omega) hk.2.1 hk.2.2)

end

section Sample

private def sampleOurs (_ : Int) : Option Text := some ['a']

private def sampleTheirs (k : Int) : Option Text := some (if k ≤ 5 then ['a'] else ['b'])

private def sampleKnows (k : Int) (hash : Text) : Run Empty Unit (Option Bool) := fun w =>
  (.ok (some (decide (sampleTheirs k = some hash))), w)

theorem findCommonAncestor_exact_sample :
    findCommonAncestor (probe sampleOurs sampleKnows) 1 20 6 () = (.ok (some 5), ()) ∧
      IsGreatest {k : Int | 1 ≤ k ∧ k ≤ 20 ∧ Shared sampleOurs sampleTheirs k} 5 := by
  have hrun : findCommonAncestor (probe sampleOurs sampleKnows) 1 20 6 () = (.ok (some 5), ()) := by
    decide +kernel
  refine ⟨hrun, ?_⟩
  have hshared : ∀ k, Shared sampleOurs sampleTheirs k ↔ k ≤ 5 := by
    intro k
    simp only [Shared, sampleOurs, sampleTheirs]
    split <;> simp_all
  obtain ⟨r, log, w', h, -, -, -, hexact⟩ :=
    @findCommonAncestor_exact Unit sampleOurs sampleKnows 1 20 (by decide) 6 ()
  rw [hrun] at h
  cases h
  obtain ⟨a, ha, hgreatest⟩ | ⟨hr, -⟩ := hexact sampleTheirs (fun k _ _ => ⟨['a'], by simp, rfl⟩)
    (fun _ _ _ _ _ => rfl) (fun j k _ hjk _ hk => (hshared j).2 (hjk.trans ((hshared k).1 hk)))
  · cases ha
    exact hgreatest
  · cases hr

end Sample

end Bismuth
