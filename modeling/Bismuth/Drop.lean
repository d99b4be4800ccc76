import Bismuth.Difficulty
import Bismuth.Lib.Places

/-!
# The difficulty of a late block

`check_block` lowers the difficulty of a block that comes long after its parent, `difficulty` reports the same drop
by the clock. Both are stated here over exact decimals, where no operation but the explicit rounding rounds; below
the bounds of the decimal context the check computes exactly that.
-/

namespace Bismuth
open Py

namespace Exact

def quantizeTen (q : ℚ) : ℚ := q.places 10

def quantizeTwo (q : ℚ) : ℚ := q.places 2

/-- `int(q)`. -/
def truncate (q : ℚ) : ℤ := if q < 0 then ⌈q⌉ else ⌊q⌋

/-! ## The check -/

/-- `diff_dropped` in `check_block`. -/
def droppedDifficulty (diff received qReceived qLast : ℚ) : ℚ :=
  let elapsed := qReceived - qLast
  let dropped := quantizeTen diff + quantizeTen 1 - quantizeTen (elapsed / 180)
  let dropped := if qLast + 2 * 180 < received then
      quantizeTen diff - quantizeTen 1 - quantizeTen (10 * (elapsed - 2 * 180) / 180)
    else dropped
  if dropped < 50 then 50 else dropped

/-- `check_block`, for a nonce that reaches `real`. -/
def checkBlock (real : Nat) (diff received qReceived qLast : ℚ) : Except Err ℚ :=
  if truncate diff ≤ real then .ok diff
  else if qLast + 180 < received then
    if truncate (droppedDifficulty diff received qReceived qLast) ≤ real then .ok diff
    else .error (.raised .lowReadjustedDifficulty)
  else .error (.raised .lowDifficulty)

/-! ## The report -/

/-- The first two values of `difficulty` from the retargeted one, and the readings of the clock. -/
def reportedDifficulty (difficulty : ℚ) (clock : Nat → ℚ) (last : ℚ) : ℚ × ℚ :=
  let dropped :=
    if last + 2 * 180 < clock 0 then
      quantizeTen difficulty - quantizeTen 1 -
        quantizeTen (10 * (quantizeTwo (clock 1) - quantizeTwo last - 2 * 180) / 180)
    else if last + 180 < clock 1 then
      quantizeTen difficulty + quantizeTen 1 - quantizeTen ((quantizeTwo (clock 2) - quantizeTwo last) / 180)
    else difficulty
  let difficulty := if difficulty < 50 then 50 else difficulty
  let dropped := if dropped < 50 then 50 else dropped
  (difficulty.places 10, dropped.places 10)

/-! ## The drop by the elapsed time -/

/-- The drop that both of them make more than 180 seconds after the parent, without its lower bound. -/
def drop (diff elapsed : ℚ) : ℚ :=
  if 360 < elapsed then quantizeTen diff - 1 - quantizeTen (10 * (elapsed - 360) / 180)
  else quantizeTen diff + 1 - quantizeTen (elapsed / 180)

def needed (diff elapsed : ℚ) : ℚ := if 180 < elapsed then max 50 (drop diff elapsed) else diff

theorem floor_eq_max (q : ℚ) : (if q < 50 then 50 else q) = max 50 q := by
  split
  · rw [max_eq_left (le_of_lt ‹_›)]
  · rw [max_eq_right (not_lt.1 ‹_›)]

theorem drop_quantizeTen (diff elapsed : ℚ) : drop (quantizeTen diff) elapsed = drop diff elapsed := by
  simp only [drop, quantizeTen, Rat.places_places]

theorem places_drop (diff elapsed : ℚ) : (drop diff elapsed).places 10 = drop diff elapsed := by
  rw [drop]
  split
  · have h := Rat.places_add_sub (k := 10) diff (10 * (elapsed - 360) / 180) (-1)
    rwa [Int.cast_neg, Int.cast_one, ← sub_eq_add_neg] at h
  · have h := Rat.places_add_sub (k := 10) diff (elapsed / 180) 1
    rwa [Int.cast_one] at h

theorem drop_mono {diff diff' : ℚ} (h : diff ≤ diff') (elapsed : ℚ) : drop diff elapsed ≤ drop diff' elapsed := by
  have hten : quantizeTen diff ≤ quantizeTen diff' := Rat.places_mono h
  simp only [drop]
  split <;> linarith

/-- The longer it takes the deeper is the drop, also where its slope changes. -/
theorem drop_antitone (diff : ℚ) {t t' : ℚ} (h : t ≤ t') : drop diff t' ≤ drop diff t := by
  simp only [drop]
  by_cases ht' : 360 < t'
  · by_cases ht : 360 < t
    · have hmono : quantizeTen (10 * (t - 360) / 180) ≤ quantizeTen (10 * (t' - 360) / 180) :=
        Rat.places_mono (by linarith)
      rw [if_pos ht', if_pos ht]
      linarith
    · have hlow : (2 : ℚ) ≥ quantizeTen (t / 180) := by
        have := Rat.places_mono (k := 10) (show t / 180 ≤ 2 by linarith)
        rwa [Rat.places_ofNat] at this
      have hzero : (0 : ℚ) ≤ quantizeTen (10 * (t' - 360) / 180) := by
        have := Rat.places_mono (k := 10) (show 0 ≤ 10 * (t' - 360) / 180 by linarith)
        rwa [Rat.places_zero] at this
      rw [if_pos ht', if_neg ht]
      linarith
  · have hmono : quantizeTen (t / 180) ≤ quantizeTen (t' / 180) := Rat.places_mono (by linarith)
    rw [if_neg ht', if_neg (by linarith)]
    linarith

/-- A hundredth of a second after the drop begins it is already more than the rounding of the difficulty. -/
theorem drop_lt (diff : ℚ) {t : ℚ} (h : 180 + 1 / 100 ≤ t) : drop diff t < diff := by
  refine (drop_antitone diff h).trans_lt ?_
  have hround := (abs_le.1 (Rat.abs_places_sub_le (k := 10) diff)).2
  have hstep : (1 + 1 / 20000 : ℚ) ≤ quantizeTen ((180 + 1 / 100) / 180) := by
    have := Rat.places_mono (k := 10) (show ((10000500000 : ℤ) : ℚ) / 10 ^ 10 ≤ (180 + 1 / 100) / 180 by norm_num)
    rw [Rat.places_div] at this
    refine le_trans ?_ this
    norm_num
  rw [drop, if_neg (by norm_num), quantizeTen]
  norm_num at hround ⊢
  linarith

theorem truncate_of_nonneg {q : ℚ} (h : 0 ≤ q) : truncate q = ⌊q⌋ := if_neg (not_lt.2 h)

/-! ## What both of them ask for -/

section
variable {diff : ℚ} {t parent : ℤ}

theorem sub_hundredths : (t : ℚ) / 100 - parent / 100 = (t - parent : ℤ) / 100 := by
  push_cast
  rw [sub_div]

/-- Timestamps with two decimals that are more than `q` seconds apart. -/
theorem lt_hundredths (q : ℚ) : (parent : ℚ) / 100 + q < (t : ℚ) / 100 ↔ q < (t - parent : ℤ) / 100 := by
  rw [← sub_hundredths, lt_sub_iff_add_lt']

theorem lt_drop_time (h : (180 : ℚ) < (t - parent : ℤ) / 100) : (180 + 1 / 100 : ℚ) ≤ (t - parent : ℤ) / 100 := by
  rw [lt_div_iff₀ (by norm_num)] at h
  have h' : 180 * 100 < t - parent := by exact_mod_cast h
  rw [le_div_iff₀ (by norm_num)]
  have : ((180 * 100 + 1 : ℤ) : ℚ) ≤ (t - parent : ℤ) := by exact_mod_cast h'
  push_cast at this ⊢
  linarith

theorem droppedDifficulty_eq : droppedDifficulty diff (t / 100) (t / 100) (parent / 100) =
    max 50 (drop diff ((t - parent : ℤ) / 100)) := by
  have htwo : (2 * 180 : ℚ) = 360 := by norm_num
  simp only [droppedDifficulty, floor_eq_max, sub_hundredths, htwo, lt_hundredths, drop, quantizeTen, Rat.places_one]

/-- The difficulty that is asked for is never above the required one. -/
theorem needed_le (hdiff : 50 ≤ diff) : needed diff ((t - parent : ℤ) / 100) ≤ diff := by
  rw [needed]
  split
  · exact max_le hdiff (drop_lt diff (lt_drop_time ‹_›)).le
  · exact le_rfl

theorem fifty_le_needed (hdiff : 50 ≤ diff) (elapsed : ℚ) : 50 ≤ needed diff elapsed := by
  rw [needed]
  split
  · exact le_max_left _ _
  · exact hdiff

theorem checkBlock_eq_ok (hdiff : 50 ≤ diff) {w : Nat} :
    (∃ v, checkBlock w diff (t / 100) (t / 100) (parent / 100) = .ok v) ↔
      ⌊needed diff ((t - parent : ℤ) / 100)⌋ ≤ w := by
  have hneeded := fifty_le_needed hdiff ((t - parent : ℤ) / 100)
  have hle : ⌊needed diff ((t - parent : ℤ) / 100)⌋ ≤ ⌊diff⌋ := Int.floor_le_floor (needed_le hdiff)
  simp only [checkBlock, lt_hundredths]
  rw [truncate_of_nonneg (by linarith)]
  by_cases h : ⌊diff⌋ ≤ (w : ℤ)
  · rw [if_pos h]
    exact iff_of_true ⟨diff, rfl⟩ (hle.trans h)
  · rw [if_neg h]
    by_cases ht : (180 : ℚ) < (t - parent : ℤ) / 100
    · rw [if_pos ht, droppedDifficulty_eq, needed, if_pos ht,
        truncate_of_nonneg (le_trans (by norm_num) (le_max_left _ _))]
      split
      · exact iff_of_true ⟨diff, rfl⟩ ‹_›
      · exact iff_of_false (by simp) ‹_›
    · rw [if_neg ht, needed, if_neg ht]
      exact iff_of_false (by simp) h

theorem needed_antitone (hdiff : 50 ≤ diff) {t' : ℤ} (h : t ≤ t') :
    needed diff ((t' - parent : ℤ) / 100) ≤ needed diff ((t - parent : ℤ) / 100) := by
  have hle : ((t - parent : ℤ) : ℚ) / 100 ≤ (t' - parent : ℤ) / 100 := by
    have : ((t - parent : ℤ) : ℚ) ≤ (t' - parent : ℤ) := by exact_mod_cast sub_le_sub_right h parent
    linarith
  by_cases ht : (180 : ℚ) < (t - parent : ℤ) / 100
  · rw [needed, if_pos (ht.trans_le hle), needed, if_pos ht]
    exact max_le_max le_rfl (drop_antitone diff hle)
  · rw [needed.eq_def diff ((t - parent : ℤ) / 100), if_neg ht]
    exact needed_le hdiff

theorem quantizeTwo_hundredths (n : ℤ) : quantizeTwo (n / 100) = n / 100 := by
  have h := Rat.places_div (k := 2) n
  norm_num at h
  exact h

theorem reportedDifficulty_eq (d : ℚ) (now last : ℤ) : reportedDifficulty d (fun _ => now / 100) (last / 100) =
    ((max 50 d).places 10,
      (max 50 (if (180 : ℚ) < (now - last : ℤ) / 100 then drop d ((now - last : ℤ) / 100) else d)).places 10) := by
  have htwo : (2 * 180 : ℚ) = 360 := by norm_num
  simp only [reportedDifficulty, floor_eq_max, quantizeTwo_hundredths, sub_hundredths, htwo, lt_hundredths, drop,
    quantizeTen, Rat.places_one]
  by_cases h360 : (360 : ℚ) < (now - last : ℤ) / 100
  · rw [if_pos h360, if_pos h360, if_pos (by linarith)]
  · rw [if_neg h360, if_neg h360]

/-- The drop that `difficulty` reports with a first value is the one that is asked for with this value. -/
theorem reportedDifficulty_needed {d : ℚ} {now last : ℤ}
    (h : (reportedDifficulty d (fun _ => now / 100) (last / 100)).1 = diff) :
    (reportedDifficulty d (fun _ => now / 100) (last / 100)).2 = needed diff ((now - last : ℤ) / 100) := by
  rw [reportedDifficulty_eq] at h ⊢
  have h : (max 50 d).places 10 = diff := h
  change (max 50 (if (180 : ℚ) < (now - last : ℤ) / 100 then _ else d)).places 10 = _
  by_cases hlate : (180 : ℚ) < (now - last : ℤ) / 100
  · rw [if_pos hlate, needed, if_pos hlate]
    rcases le_total 50 d with hd | hd
    · rw [max_eq_right hd] at h
      have hmax := Monotone.map_max (f := Rat.places 10) (fun _ _ => Rat.places_mono) (a := 50)
        (b := drop d ((now - last : ℤ) / 100))
      rw [← h, hmax, Rat.places_ofNat, places_drop]
      exact congrArg (max 50) (drop_quantizeTen d _).symm
    · -- a difficulty below the floor is reported as the floor, and so is every drop of it
      rw [max_eq_left hd, Rat.places_ofNat] at h
      subst h
      have hfloor := (drop_lt 50 (lt_drop_time hlate)).le
      rw [max_eq_left ((drop_mono hd _).trans hfloor), max_eq_left hfloor, Rat.places_ofNat]
  · rw [if_neg hlate, needed, if_neg hlate, h]

/-- For a block with a parent at any time there is a least work that is accepted. It does not rise with the
timestamp, it is at most the integer part of the required difficulty and at least 50, and it is the integer part of
the dropped difficulty that is reported when as much time has passed. -/
theorem checkBlock_drop_sound {diff : ℚ} (hdiff : 50 ≤ diff) (parent : ℤ) :
    ∃ least : ℤ → ℕ,
      (∀ t : ℤ, IsLeast {w | ∃ v, checkBlock w diff (t / 100) (t / 100) (parent / 100) = .ok v} (least t)) ∧
      Antitone least ∧ (∀ t, (least t : ℤ) ≤ truncate diff ∧ 50 ≤ least t) ∧
      ∀ t now last : ℤ, now - last = t - parent → ∀ d,
        (reportedDifficulty d (fun _ => now / 100) (last / 100)).1 = diff →
        (least t : ℤ) = truncate (reportedDifficulty d (fun _ => now / 100) (last / 100)).2 := by
  have hfifty (t : ℤ) : (50 : ℤ) ≤ ⌊needed diff ((t - parent : ℤ) / 100)⌋ :=
    Int.le_floor.2 (by exact_mod_cast fifty_le_needed hdiff _)
  have hcast (t : ℤ) : (⌊needed diff ((t - parent : ℤ) / 100)⌋.toNat : ℤ) = ⌊needed diff ((t - parent : ℤ) / 100)⌋ :=
    Int.toNat_of_nonneg ((by norm_num : (0 : ℤ) ≤ 50).trans (hfifty t))
  refine ⟨fun t => ⌊needed diff ((t - parent : ℤ) / 100)⌋.toNat, ?_, ?_, ?_, ?_⟩
  · intro t
    constructor
    · exact (checkBlock_eq_ok hdiff).2 (hcast t).ge
    · intro w hw
      exact Int.toNat_le.2 ((checkBlock_eq_ok hdiff).1 hw)
  · intro t t' h
    exact Int.toNat_le_toNat (Int.floor_le_floor (needed_antitone hdiff h))
  · intro t
    refine ⟨?_, (Int.le_toNat (le_trans (by norm_num) (hfifty t))).2 (hfifty t)⟩
    rw [hcast, truncate_of_nonneg (by linarith)]
    exact Int.floor_le_floor (needed_le hdiff)
  · intro t now last helapsed d hd
    rw [hcast, reportedDifficulty_needed hd, helapsed,
      truncate_of_nonneg (le_trans (by norm_num) (fifty_le_needed hdiff _))]

/-- A difficulty of a hundred, from 400 seconds after the parent on. -/
theorem checkBlock_drop_sound_sample : ∃ least : ℕ,
    IsLeast {w | ∃ v, checkBlock w 100 ((40000 : ℤ) / 100) ((40000 : ℤ) / 100) ((0 : ℤ) / 100) = .ok v} least ∧
      50 ≤ least ∧ least ≤ 100 := by
  obtain ⟨least, hleast, -, hbounds, -⟩ := checkBlock_drop_sound (show (50 : ℚ) ≤ 100 by norm_num) 0
  refine ⟨least 40000, hleast 40000, (hbounds 40000).2, ?_⟩
  have h := (hbounds 40000).1
  rw [truncate_of_nonneg (by norm_num)] at h
  have hfloor : ⌊(100 : ℚ)⌋ = 100 := by norm_num
  omega

end

end Exact

/-! ## In the decimal context -/

theorem add_ofRat (p q : ℚ) (z z' : Bool) : add (.fin p z) (.fin q z') = (rounded (p + q) : Except Err Number) := rfl

theorem sub_ofRat (p q : ℚ) (z z' : Bool) : sub (.fin p z) (.fin q z') = (rounded (p - q) : Except Err Number) := by
  rw [sub_eq_add_neg]
  rfl

theorem mul_ofRat (p q : ℚ) (z z' : Bool) : mul (.fin p z) (.fin q z') = (rounded (p * q) : Except Err Number) := rfl

theorem lt_ofRat (p q : ℚ) (z z' : Bool) : lt (.fin p z) (.fin q z') = (.ok (decide (p < q)) : Except Err Bool) := rfl

theorem log_ten_lt_of_lt {q : ℚ} (h : |q| < 10 ^ 40) : Int.log 10 |q| < 1000000 := by
  rcases eq_or_ne q 0 with rfl | h0
  · simp
  · have : Int.log 10 |q| < 40 := (Int.lt_zpow_iff_log_lt (by decide) (abs_pos.2 h0)).1 (by exact_mod_cast h)
    omega

variable {n : ℤ}

/-- A decimal with at most ten places and 28 digits is not rounded. -/
theorem rounded_div (hn : |n| < 10 ^ 28) {k : Nat} (hk : k ≤ 10) :
    (rounded (n / 10 ^ k) : Except Err Number) = .ok (.ofRat (n / 10 ^ k)) := by
  have hround : context28.round (n / 10 ^ k) = n / 10 ^ k := by
    have h := context28.round_eq_self (m := n) (k := -k) (by simpa [context28] using hn)
      (by simp only [context28]; omega)
    rwa [show ((context28.base : ℕ) : ℚ) = 10 by norm_num [context28], zpow_neg, zpow_natCast, ← div_eq_mul_inv] at h
  have habs : |(n / 10 ^ k : ℚ)| < 10 ^ 40 := by
    have hn' : |(n : ℚ)| < 10 ^ 28 := by exact_mod_cast hn
    rw [abs_div, abs_of_pos (Rat.ten_pow_pos k)]
    exact (div_le_self (abs_nonneg _) (one_le_pow₀ (by norm_num))).trans_lt (hn'.trans (by norm_num))
  simp only [rounded, hround]
  rw [if_neg (not_le.2 (log_ten_lt_of_lt habs))]

theorem abs_halfEven_lt {q : ℚ} (h : |q| < 10 ^ 17) : |Rat.halfEven (q * 10 ^ 10)| < 2 * 10 ^ 27 := by
  have herr := Rat.abs_halfEven_sub_le (q * 10 ^ 10)
  have hlt : |(Rat.halfEven (q * 10 ^ 10) : ℚ)| < 2 * 10 ^ 27 := by
    calc |(Rat.halfEven (q * 10 ^ 10) : ℚ)| = |(Rat.halfEven (q * 10 ^ 10) - q * 10 ^ 10) + q * 10 ^ 10| := by
          rw [sub_add_cancel]
      _ ≤ 1 / 2 + |q| * 10 ^ 10 := by
          refine (abs_add_le _ _).trans (add_le_add herr ?_)
          rw [abs_mul, abs_of_pos (Rat.ten_pow_pos 10)]
      _ < 2 * 10 ^ 27 := by linarith
  exact_mod_cast hlt

theorem rounded_places {a b : ℚ} (ha : |a| < 10 ^ 17) (hb : |b| < 10 ^ 17) (hn : |n| ≤ 1) :
    (rounded (a.places 10 + n - b.places 10) : Except Err Number) =
      .ok (.ofRat (a.places 10 + n - b.places 10)) := by
  have ha := abs_lt.1 (abs_halfEven_lt ha)
  have hb := abs_lt.1 (abs_halfEven_lt hb)
  have hn := abs_le.1 hn
  rw [Rat.places_add_sub_eq]
  exact rounded_div (by rw [abs_lt]; constructor <;> omega) le_rfl

theorem quantizeTen_fin {q : ℚ} (h : |q| < 10 ^ 17) (z : Bool) :
    ∃ z', quantizeTen (.fin q z) = .ok (.fin (q.places 10) z') := by
  rw [quantizeTen]
  by_cases hq : q = 0
  · rw [if_pos (by simpa [Number.isZero] using hq), hq]
    exact ⟨false, by rw [Rat.places_zero]; rfl⟩
  · rw [if_neg (by simpa [Number.isZero] using hq)]
    refine ⟨isNeg q z, ?_⟩
    simp only [quantize]
    rw [if_neg (not_le.2 ((abs_halfEven_lt h).trans (by norm_num)))]
    rfl

/-- The quotient of a time by 180 is rounded twice, to 28 digits and to ten decimals: the first rounding does not
move it over the middle of two decimals, since it is a ninth of an integer of their units. -/
theorem quantizeTen_rounded {q : ℚ} (hq : q * 10 ^ 10 * 9 = n) (h : |q| < 10 ^ 16) :
    ∃ z, (rounded q >>= quantizeTen) = .ok (.fin (q.places 10) z) := by
  have hnear : |context28.round q - q| ≤ 10 ^ (-12 : ℤ) / 2 := by
    rcases eq_or_ne q 0 with rfl | h0
    · rw [FloatFormat.round_zero]
      norm_num
    · have hexp : context28.ulpExp q ≤ -12 := context28.ulpExp_le h0 (by simpa [context28] using h) (by decide)
      refine (context28.abs_round_sub_le q).trans ?_
      have hpow : (10 : ℚ) ^ context28.ulpExp q ≤ 10 ^ (-12 : ℤ) := zpow_le_zpow_right₀ (by norm_num) hexp
      rw [show ((context28.base : ℕ) : ℚ) = 10 by norm_num [context28]]
      exact div_le_div_of_nonneg_right hpow (by norm_num)
  have hlt : |context28.round q| < 10 ^ 17 := by
    obtain ⟨hlow, hhigh⟩ := abs_lt.1 h
    obtain ⟨hnear, hnear'⟩ := abs_le.1 hnear
    norm_num at hnear hnear'
    rw [abs_lt]
    constructor <;> linarith
  have heven : Rat.halfEven (context28.round q * 10 ^ 10) = Rat.halfEven (q * 10 ^ 10) := by
    refine Rat.halfEven_eq_of_near (b := 4) (n := n) (by rw [← hq]; norm_num) ?_
    rw [← sub_mul, abs_mul, abs_of_pos (Rat.ten_pow_pos 10)]
    norm_num at hnear ⊢
    linarith
  obtain ⟨z, hz⟩ := quantizeTen_fin hlt false
  refine ⟨z, ?_⟩
  rw [rounded, if_neg (not_le.2 (log_ten_lt_of_lt (hlt.trans (by norm_num)))), Except.ok_bind, Number.ofRat, hz, Rat.places, heven,
    Rat.places]

theorem rounded_hundredths (hn : |n| < 10 ^ 19) :
    (rounded (n / 100) : Except Err Number) = .ok (.ofRat (n / 100)) := by
  have h := rounded_div (n := n) (k := 2) (hn.trans (by norm_num)) (by norm_num)
  norm_num at h
  exact h

theorem abs_div_lt (hn : |n| < 10 ^ 19) : |(n / 100 / 180 : ℚ)| < 10 ^ 16 := by
  have hn : |(n : ℚ)| < 10 ^ 19 := by exact_mod_cast hn
  rw [abs_div, abs_div, abs_of_pos (by norm_num : (0 : ℚ) < 100), abs_of_pos (by norm_num : (0 : ℚ) < 180)]
  linarith

theorem quantizeTen_div (hn : |n| < 10 ^ 19) : ∃ r z,
    div (.ofRat (n / 100)) (.ofRat 180) = (.ok r : Except Err Number) ∧
    quantizeTen r = .ok (.fin ((n / 100 / 180 : ℚ).places 10) z) := by
  have hdiv : div (.ofRat (n / 100)) (.ofRat 180) = (rounded (n / 100 / 180) : Except Err Number) := by
    simp only [div, Number.ofRat]
    rw [if_neg (by norm_num)]
  obtain ⟨z, hz⟩ := quantizeTen_rounded (q := n / 100 / 180) (n := n * 5000000) (by push_cast; ring) (abs_div_lt hn)
  obtain ⟨r, hr, hr'⟩ := Except.bind_eq_ok.1 hz
  exact ⟨r, z, hdiv.trans hr, hr'⟩

/-- The check lowers the difficulty as over exact decimals, as long as the numbers are not too great. -/
theorem droppedDifficulty_exact {diff : ℚ} (hdiff : |diff| < 10 ^ 17) {t parent : ℤ} (ht : |t| < 10 ^ 17)
    (hparent : |parent| < 10 ^ 17) (z : Bool) : ∃ z',
    droppedDifficulty (.fin diff z) (.ofRat (t / 100)) (.ofRat (t / 100)) (.ofRat (parent / 100)) =
      .ok (.fin (Exact.droppedDifficulty diff (t / 100) (t / 100) (parent / 100)) z') := by
  obtain ⟨ht, ht'⟩ := abs_lt.1 ht
  obtain ⟨hparent, hparent'⟩ := abs_lt.1 hparent
  have htime : |t - parent| < 10 ^ 19 := by rw [abs_lt]; constructor <;> omega
  have hexcess : |t - parent - 36000| < 10 ^ 19 := by rw [abs_lt]; constructor <;> omega
  have hten : |10 * (t - parent - 36000)| < 10 ^ 19 := by rw [abs_lt]; constructor <;> omega
  have hbound : |parent + 36000| < 10 ^ 19 := by rw [abs_lt]; constructor <;> omega
  obtain ⟨z₁, hone⟩ := quantizeTen_fin (q := 1) (by norm_num) false
  obtain ⟨z₂, hdiff'⟩ := quantizeTen_fin hdiff z
  obtain ⟨r, z₃, hr, hquot⟩ := quantizeTen_div htime
  obtain ⟨r', z₄, hr', hquot'⟩ := quantizeTen_div hten
  rw [Rat.places_one] at hone
  -- the operations on times, with hundredths as results
  have e1 : (t / 100 - parent / 100 : ℚ) = (t - parent : ℤ) / 100 := Exact.sub_hundredths
  have e2 : (parent / 100 + 360 : ℚ) = (parent + 36000 : ℤ) / 100 := by push_cast; ring
  have e3 : ((t - parent : ℤ) / 100 - 360 : ℚ) = (t - parent - 36000 : ℤ) / 100 := by push_cast; ring
  have e4 : (10 * ((t - parent - 36000 : ℤ) / 100) : ℚ) = (10 * (t - parent - 36000) : ℤ) / 100 := by push_cast; ring
  have hplus := rounded_places (b := 0) (n := 1) hdiff (by norm_num) (by norm_num)
  have hminus := rounded_places (b := 0) (n := -1) hdiff (by norm_num) (by norm_num)
  have hdrop := rounded_places (n := 1) hdiff ((abs_div_lt htime).trans (by norm_num)) (by norm_num)
  have hdrop' := rounded_places (n := -1) hdiff ((abs_div_lt hten).trans (by norm_num)) (by norm_num)
  rw [Rat.places_zero, sub_zero, Int.cast_one] at hplus
  rw [Rat.places_zero, sub_zero, Int.cast_neg, Int.cast_one, ← sub_eq_add_neg] at hminus
  rw [Int.cast_one] at hdrop
  rw [Int.cast_neg, Int.cast_one, ← sub_eq_add_neg] at hdrop'
  have hlate : ((parent + 36000 : ℤ) / 100 : ℚ) < t / 100 ↔ (360 : ℚ) < (t - parent : ℤ) / 100 := by
    rw [← e2, Exact.lt_hundredths]
  rw [Exact.droppedDifficulty_eq, Exact.drop, ← Exact.floor_eq_max]
  simp only [Number.ofRat] at hr hr' hone hplus hminus hdrop hdrop'
  simp only [droppedDifficulty, Number.ofRat, sub_ofRat, add_ofRat, mul_ofRat, lt_ofRat, e1, e2, e3, e4,
    rounded_hundredths htime, rounded_hundredths hbound, rounded_hundredths hexcess, rounded_hundredths hten,
    Except.ok_bind, hone, hdiff', hplus, hminus, hr, hr', hquot, hquot', hdrop, hdrop', hlate, decide_eq_true_eq]
  have hfloor (q : ℚ) : (do
      let below ← lt (.fin q false) (.fin 50 false)
      return if below then .fin 50 false else .fin q false) =
      (.ok (.fin (if q < 50 then 50 else q) false) : Except Err Number) := by
    simp only [lt_ofRat, Except.ok_bind, decide_eq_true_eq, Except.pure_eq_ok]
    split <;> rfl
  refine ⟨false, ?_⟩
  split
  · exact hfloor _
  · exact hfloor _

/-- So does the check as a whole, for a difficulty in the form that `difficulty` returns. -/
theorem checkBlock_exact {diff : ℚ} (hdiff : |diff| < 10 ^ 17) {t parent : ℤ} (ht : |t| < 10 ^ 17)
    (hparent : |parent| < 10 ^ 17) (z : Bool) {stamp : Text}
    (hstamp : (decimal stamp : Except Err Number) = .ok (.ofRat (t / 100))) (real : Nat) :
    (checkBlock real (.float (.fin diff z)) stamp (.ofRat (t / 100)) (.ofRat (parent / 100))).map (fun _ => diff) =
      Exact.checkBlock real diff (t / 100) (t / 100) (parent / 100) := by
  obtain ⟨z', hdrop⟩ := droppedDifficulty_exact hdiff ht hparent z
  have hbound : |parent + 18000| < 10 ^ 19 := by
    obtain ⟨h, h'⟩ := abs_lt.1 hparent
    rw [abs_lt]
    constructor <;> omega
  have hlate : ((parent + 18000 : ℤ) / 100 : ℚ) = parent / 100 + 180 := by
    push_cast
    ring
  have hadd : add (.ofRat (parent / 100)) (.ofRat 180) =
      (.ok (.ofRat (parent / 100 + 180)) : Except Err Number) := by
    rw [← hlate, ← rounded_hundredths hbound, hlate]
    rfl
  have hint (q : ℚ) (z : Bool) : truncate (.fin q z) = (.ok (Exact.truncate q) : Except Err Int) := rfl
  have hlt : lt (.ofRat (parent / 100 + 180)) (.ofRat (t / 100)) =
      (.ok (decide ((parent : ℚ) / 100 + 180 < t / 100)) : Except Err Bool) := rfl
  simp only [checkBlock, Exact.checkBlock, Val.toInt, Val.toDecimal, hint, Except.ok_bind, hstamp, hadd, hlt, hdrop,
    decide_eq_true_eq]
  split
  · rfl
  · split
    · split <;> rfl
    · rfl

theorem checkBlock_exact_sample : (decimal ['3', '0', '0'] : Except Err Number) = .ok (.ofRat ((30000 : ℤ) / 100)) ∧
    (checkBlock 99 (.float (.fin 100 false)) ['3', '0', '0'] (.ofRat ((30000 : ℤ) / 100)) (.ofRat ((0 : ℤ) / 100))).map
      (fun _ => (100 : ℚ)) = Exact.checkBlock 99 100 ((30000 : ℤ) / 100) ((30000 : ℤ) / 100) ((0 : ℤ) / 100) := by
  have hread : (decimal ['3', '0', '0'] : Except Err Number) = .ok (.ofRat ((30000 : ℤ) / 100)) := by
    rw [show ((30000 : ℤ) : ℚ) / 100 = 300 by norm_num]
    decide +kernel
  exact ⟨hread, checkBlock_exact (by norm_num) (by norm_num) (by norm_num) false hread 99⟩

end Bismuth
