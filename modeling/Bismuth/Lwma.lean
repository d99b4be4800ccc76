import Bismuth.Lib.Lists
import Mathlib

/-!
# The retarget after the fork

`difficulty_lwma.lwma_next_difficulty` over an ordered field: the average of the last solve times, each of them
clamped and weighted by how recent it is, moves the difficulty by the logarithm of how far it is from the target, a
bounded step at a time. The logarithm to the base two is a parameter, of which no more is used than that it is
monotone and zero at one.
-/

namespace Bismuth

/-- The keyword arguments of `lwma_next_difficulty`. -/
structure LwmaParams (K : Type u) where
  target : K
  window : Nat
  maxStep : K
  clamp : K
  minDiff : K

section
variable {K : Type u} [Field K] [LinearOrder K]

def LwmaParams.defaults : LwmaParams K := ⟨60, 60, 1, 6, 50⟩

/-- `l[-n:]`. -/
def lastEntries (n : Nat) (l : List α) : List α := if n = 0 then l else l.drop (l.length - n)

def clampSolvetime (hi t : K) : K := if t < 1 then 1 else if hi < t then hi else t

/-- The loop over the solve times, from the weight `i` on: the weighted sum and the sum of the weights. -/
def lwmaLoop (hi : K) : Nat → List K → K × K → K × K
  | _, [], acc => acc
  | i, t :: st, (num, den) => lwmaLoop hi (i + 1) st (num + clampSolvetime hi t * i, den + i)

def avgSolvetime (hi : K) (st : List K) : K :=
  let (num, den) := lwmaLoop hi 1 st (0, 0)
  num / den

/-- The adjustment within `± maxStep`. -/
def boundStep (maxStep adjustment : K) : K :=
  if maxStep < adjustment then maxStep else if adjustment < -maxStep then -maxStep else adjustment

/-- `lwma_next_difficulty`, `log2` being the quotient of the two logarithms. -/
def lwmaNextDifficulty (log2 : K → K) (p : LwmaParams K) (solvetimes : List K) (prevDiff : K) : K :=
  let st := lastEntries p.window solvetimes
  if st.isEmpty then prevDiff
  else
    let adjustment := boundStep p.maxStep (2 * log2 (p.target / avgSolvetime (p.clamp * p.target) st))
    let result := prevDiff + adjustment
    if p.minDiff < result then result else p.minDiff

structure LwmaParams.Valid (p : LwmaParams K) : Prop where
  target : 0 < p.target
  window : 0 < p.window
  maxStep : 0 < p.maxStep
  clamp : 1 ≤ p.clamp
  clampHi : 1 ≤ p.clamp * p.target

/-! ## The window -/

theorem lastEntries_append {n : Nat} {l : List α} (hn : 0 < n) (h : n ≤ l.length) (older : List α) :
    lastEntries n (older ++ l) = lastEntries n l := by
  rw [lastEntries, lastEntries, if_neg hn.ne', if_neg hn.ne', List.length_append, Nat.add_sub_assoc h,
    ← List.drop_drop, List.drop_left]

theorem lastEntries_ne_nil {n : Nat} {l : List α} (hn : 0 < n) (h : l ≠ []) : lastEntries n l ≠ [] := by
  have := List.length_pos_iff.2 h
  rw [lastEntries, if_neg hn.ne', ← List.length_pos_iff, List.length_drop]
  omega

theorem forall₂_lastEntries {R : α → β → Prop} {l : List α} {l' : List β} (h : List.Forall₂ R l l') (n : Nat) :
    List.Forall₂ R (lastEntries n l) (lastEntries n l') := by
  rw [lastEntries, lastEntries, h.length_eq]
  split
  · exact h
  · exact List.forall₂_drop _ h

/-! ## The average -/

theorem one_le_clampSolvetime {hi : K} (hhi : 1 ≤ hi) (t : K) : 1 ≤ clampSolvetime hi t := by
  rw [clampSolvetime]
  split
  · exact le_rfl
  · split
    · exact hhi
    · exact not_lt.1 ‹_›

theorem clampSolvetime_mono {hi : K} (hhi : 1 ≤ hi) {t t' : K} (h : t ≤ t') :
    clampSolvetime hi t ≤ clampSolvetime hi t' := by
  rw [clampSolvetime]
  split
  · exact one_le_clampSolvetime hhi t'
  · rename_i ht
    rw [clampSolvetime, if_neg fun ht' => ht (h.trans_lt ht')]
    split
    · rw [if_pos (lt_of_lt_of_le ‹_› h)]
    · split
      · exact not_lt.1 ‹_›
      · exact h

theorem clampSolvetime_of_mem {hi t : K} (h1 : 1 ≤ t) (h : t ≤ hi) : clampSolvetime hi t = t := by
  rw [clampSolvetime, if_neg (not_lt.2 h1), if_neg (not_lt.2 h)]

theorem lwmaLoop_const {hi c : K} {st : List K} (h : ∀ t ∈ st, clampSolvetime hi t = c) (i : Nat) {num den : K}
    (hnum : num = c * den) : (lwmaLoop hi i st (num, den)).1 = c * (lwmaLoop hi i st (num, den)).2 := by
  induction st generalizing i num den with
  | nil => exact hnum
  | cons t st ih =>
    refine ih (fun t ht => h t (by simp [ht])) (i + 1) ?_
    rw [h t (by simp), hnum, mul_add]

theorem avgSolvetime_eq (hi : K) (st : List K) :
    avgSolvetime hi st = (lwmaLoop hi 1 st (0, 0)).1 / (lwmaLoop hi 1 st (0, 0)).2 := rfl

omit [Field K] in
theorem floor_eq_max (minDiff result : K) : (if minDiff < result then result else minDiff) = max minDiff result := by
  split
  · rw [max_eq_right (le_of_lt ‹_›)]
  · rw [max_eq_left (not_lt.1 ‹_›)]

theorem lwmaNextDifficulty_eq {log2 : K → K} {p : LwmaParams K} (hp : p.Valid) {l : List K} (h : l ≠ []) (prev : K) :
    lwmaNextDifficulty log2 p l prev = max p.minDiff (prev + boundStep p.maxStep
      (2 * log2 (p.target / avgSolvetime (p.clamp * p.target) (lastEntries p.window l)))) := by
  have hne := lastEntries_ne_nil hp.window h
  rw [lwmaNextDifficulty, if_neg (by simpa using hne), floor_eq_max]

end

section
variable {K : Type u} [Field K] [LinearOrder K] [IsStrictOrderedRing K]

theorem LwmaParams.defaults_valid : (defaults : LwmaParams K).Valid := by
  constructor <;> norm_num [defaults]

variable {hi : K}

/-- The weights do not depend on the solve times, and a sum of greater ones is greater. -/
theorem lwmaLoop_mono (hhi : 1 ≤ hi) {st st' : List K} (h : List.Forall₂ (· ≤ ·) st st') (i : Nat)
    {num num' : K} (hnum : num ≤ num') (den : K) :
    (lwmaLoop hi i st (num, den)).1 ≤ (lwmaLoop hi i st' (num', den)).1 ∧
      (lwmaLoop hi i st (num, den)).2 = (lwmaLoop hi i st' (num', den)).2 := by
  induction h generalizing i num num' den with
  | nil => exact ⟨hnum, rfl⟩
  | cons ht _ ih =>
    refine ih (i + 1) ?_ (den + i)
    have hc := mul_le_mul_of_nonneg_right (clampSolvetime_mono hhi ht) (Nat.cast_nonneg (α := K) i)
    exact add_le_add hnum hc

/-- Solve times of at least one have a sum of at least the weights. -/
theorem lwmaLoop_ge (hhi : 1 ≤ hi) (st : List K) (i : Nat) {num den : K} (h : den ≤ num) :
    den ≤ (lwmaLoop hi i st (num, den)).2 ∧ (lwmaLoop hi i st (num, den)).2 ≤ (lwmaLoop hi i st (num, den)).1 := by
  induction st generalizing i num den with
  | nil => exact ⟨le_rfl, h⟩
  | cons t st ih =>
    have hi0 : (0 : K) ≤ i := Nat.cast_nonneg i
    have hterm : (i : K) ≤ clampSolvetime hi t * i := le_mul_of_one_le_left hi0 (one_le_clampSolvetime hhi t)
    obtain ⟨hden, hnum⟩ := ih (i + 1) (add_le_add h hterm)
    exact ⟨(le_add_of_nonneg_right hi0).trans hden, hnum⟩

theorem one_le_weights (hhi : 1 ≤ hi) {st : List K} (h : st ≠ []) : 1 ≤ (lwmaLoop hi 1 st (0, 0)).2 := by
  cases st with
  | nil => exact absurd rfl h
  | cons t st =>
    have hterm : (0 : K) + (1 : Nat) ≤ 0 + clampSolvetime hi t * (1 : Nat) := by
      simpa using one_le_clampSolvetime hhi t
    have hle := (lwmaLoop_ge hhi st 2 hterm).1
    simpa [lwmaLoop] using hle

theorem one_le_avgSolvetime (hhi : 1 ≤ hi) {st : List K} (h : st ≠ []) : 1 ≤ avgSolvetime hi st := by
  have hpos := one_le_weights hhi h
  rw [avgSolvetime_eq, one_le_div (by linarith)]
  exact (lwmaLoop_ge hhi st 1 le_rfl).2

theorem avgSolvetime_mono (hhi : 1 ≤ hi) {st st' : List K} (h : List.Forall₂ (· ≤ ·) st st')
    (hne : st ≠ []) : avgSolvetime hi st ≤ avgSolvetime hi st' := by
  have hpos := one_le_weights hhi hne
  obtain ⟨hnum, hden⟩ := lwmaLoop_mono hhi h 1 (le_refl (0 : K)) 0
  rw [avgSolvetime_eq, avgSolvetime_eq, ← hden]
  exact div_le_div_of_nonneg_right hnum (by linarith)

theorem avgSolvetime_const {hi c : K} (hhi : 1 ≤ hi) {st : List K} (h : ∀ t ∈ st, clampSolvetime hi t = c)
    (hne : st ≠ []) : avgSolvetime hi st = c := by
  have hpos := one_le_weights hhi hne
  rw [avgSolvetime_eq, lwmaLoop_const h 1 (by simp), mul_div_cancel_right₀ _ (by linarith)]

/-! ## The step -/

theorem abs_boundStep_le {maxStep : K} (h : 0 < maxStep) (a : K) : |boundStep maxStep a| ≤ maxStep := by
  rw [abs_le, boundStep]
  split
  · constructor <;> linarith
  · split
    · constructor <;> linarith
    · exact ⟨not_lt.1 ‹_›, not_lt.1 ‹_›⟩

theorem boundStep_mono {maxStep a b : K} (h : 0 < maxStep) (hab : a ≤ b) :
    boundStep maxStep a ≤ boundStep maxStep b := by
  have hb := abs_le.1 (abs_boundStep_le h b)
  by_cases ha : a < -maxStep
  · rw [boundStep, if_neg (by linarith), if_pos ha]
    exact hb.1
  · by_cases hb' : maxStep < b
    · rw [show boundStep maxStep b = maxStep from if_pos hb']
      exact (abs_le.1 (abs_boundStep_le h a)).2
    · rw [boundStep, if_neg (by linarith), if_neg ha, boundStep, if_neg hb', if_neg (by linarith)]
      exact hab

theorem boundStep_zero {maxStep : K} (h : 0 < maxStep) : boundStep maxStep 0 = 0 := by
  rw [boundStep, if_neg (not_lt.2 h.le), if_neg (by linarith)]

theorem lwmaNextDifficulty_antitone {log2 : K → K} (hlog : MonotoneOn log2 (Set.Ioi 0)) {p : LwmaParams K}
    (hp : p.Valid) {l l' : List K} (hl : List.Forall₂ (· ≤ ·) l l') (hne : l ≠ []) (prev : K) :
    lwmaNextDifficulty log2 p l' prev ≤ lwmaNextDifficulty log2 p l prev := by
  have hne' : l' ≠ [] := by
    intro h
    rw [h, List.forall₂_nil_right_iff] at hl
    exact hne hl
  rw [lwmaNextDifficulty_eq hp hne, lwmaNextDifficulty_eq hp hne']
  have havg := avgSolvetime_mono hp.clampHi (forall₂_lastEntries hl p.window) (lastEntries_ne_nil hp.window hne)
  have h1 := one_le_avgSolvetime hp.clampHi (lastEntries_ne_nil hp.window hne)
  have h1' := one_le_avgSolvetime hp.clampHi (lastEntries_ne_nil hp.window hne')
  have hratio := hlog (Set.mem_Ioi.2 (div_pos hp.target (by linarith))) (Set.mem_Ioi.2 (div_pos hp.target (by linarith)))
    (div_le_div_of_nonneg_left hp.target.le (by linarith) havg)
  exact max_le_max le_rfl (add_le_add_right (boundStep_mono hp.maxStep (by linarith)) prev)

/-- The next difficulty is at least the minimum and at most a step away, it does not rise when a solve time does,
solve times before the window do not count, and at the target it stays. -/
theorem lwmaNextDifficulty_sound {log2 : K → K} (hlog : MonotoneOn log2 (Set.Ioi 0)) (hone : log2 1 = 0)
    {p : LwmaParams K} (hp : p.Valid) {l : List K} (hne : l ≠ []) {prev : K} (hprev : p.minDiff ≤ prev) :
    p.minDiff ≤ lwmaNextDifficulty log2 p l prev ∧
    |lwmaNextDifficulty log2 p l prev - prev| ≤ p.maxStep ∧
    (∀ i t t', l[i]? = some t → t ≤ t' →
      lwmaNextDifficulty log2 p (l.set i t') prev ≤ lwmaNextDifficulty log2 p l prev) ∧
    (∀ older, p.window ≤ l.length →
      lwmaNextDifficulty log2 p (older ++ l) prev = lwmaNextDifficulty log2 p l prev) ∧
    ((∀ t ∈ lastEntries p.window l, t = p.target) → 1 ≤ p.target → lwmaNextDifficulty log2 p l prev = prev) := by
  refine ⟨?_, ?_, ?_, ?_, ?_⟩
  · rw [lwmaNextDifficulty_eq hp hne]
    exact le_max_left _ _
  · rw [lwmaNextDifficulty_eq hp hne]
    have hstep := abs_le.1 (abs_boundStep_le hp.maxStep
      (2 * log2 (p.target / avgSolvetime (p.clamp * p.target) (lastEntries p.window l))))
    rw [abs_sub_le_iff]
    constructor
    · have := max_le (hprev.trans (le_add_of_nonneg_right hp.maxStep.le)) (add_le_add_right hstep.2 prev)
      linarith
    · have := le_max_right p.minDiff (prev + boundStep p.maxStep
        (2 * log2 (p.target / avgSolvetime (p.clamp * p.target) (lastEntries p.window l))))
      linarith [hstep.1]
  · intro i t t' ht hle
    refine lwmaNextDifficulty_antitone hlog hp ?_ hne prev
    rw [List.forall₂_iff_get]
    refine ⟨by simp, fun j hj hj' => ?_⟩
    rw [List.get_eq_getElem, List.get_eq_getElem, List.getElem_set]
    split
    · rename_i hij
      subst hij
      rw [List.getElem?_eq_getElem hj] at ht
      exact (Option.some.inj ht).trans_le hle
    · exact le_rfl
  · intro older hlen
    rw [lwmaNextDifficulty, lwmaNextDifficulty, lastEntries_append hp.window hlen]
  · intro hall htarget
    have hclamp : ∀ t ∈ lastEntries p.window l, clampSolvetime (p.clamp * p.target) t = p.target := by
      intro t ht
      rw [hall t ht]
      exact clampSolvetime_of_mem htarget (le_mul_of_one_le_left hp.target.le hp.clamp)
    rw [lwmaNextDifficulty_eq hp hne, avgSolvetime_const hp.clampHi hclamp (lastEntries_ne_nil hp.window hne),
      div_self hp.target.ne', hone, mul_zero, boundStep_zero hp.maxStep, add_zero, max_eq_right hprev]

end

/-- Two blocks at the target, with a function that is monotone and zero at one. -/
theorem lwmaNextDifficulty_sound_sample :
    lwmaNextDifficulty (fun x : ℚ => x - 1) .defaults [60, 60] 100 = 100 ∧
    lwmaNextDifficulty (fun x : ℚ => x - 1) .defaults [60, 90] 100 ≤
      lwmaNextDifficulty (fun x : ℚ => x - 1) .defaults [60, 60] 100 := by
  have hlog : MonotoneOn (fun x : ℚ => x - 1) (Set.Ioi 0) := by
    intro x _ y _ h
    exact sub_le_sub_right h 1
  obtain ⟨-, -, hgrow, -, hfix⟩ := lwmaNextDifficulty_sound hlog (by norm_num) LwmaParams.defaults_valid
    (l := [60, 60]) (by simp)
    (show (LwmaParams.defaults : LwmaParams ℚ).minDiff ≤ 100 by norm_num [LwmaParams.defaults])
  refine ⟨hfix ?_ (by norm_num [LwmaParams.defaults]), hgrow 1 60 90 rfl (by norm_num)⟩
  intro t ht
  simpa [lastEntries, LwmaParams.defaults] using ht

end Bismuth
