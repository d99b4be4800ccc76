import Mathlib

/-!
# Round half to even, and floating-point formats

`Rat.halfEven` rounds to the nearest integer, ties to the even one. `FloatFormat.round` rounds to
`prec` significant digits in a given base, with a least exponent: the same definition is binary64
rounding and the rounding of a decimal context. Everything is exact rational arithmetic.
-/

namespace Rat

/-- The nearest integer, ties to the even neighbour. -/
def halfEven (q : ℚ) : ℤ :=
  let f := ⌊q⌋
  let r := q - f
  if r < 1 / 2 then f else if 1 / 2 < r then f + 1 else if f % 2 = 0 then f else f + 1

/-- The two neighbours of `q` that `halfEven` chooses between. -/
theorem halfEven_cases (q : ℚ) :
    (halfEven q = ⌊q⌋ ∧ q - ⌊q⌋ ≤ 1 / 2) ∨ (halfEven q = ⌊q⌋ + 1 ∧ 1 / 2 ≤ q - ⌊q⌋) := by
  simp only [halfEven]
  split
  · exact .inl ⟨rfl, le_of_lt ‹_›⟩
  split
  · exact .inr ⟨rfl, le_of_lt ‹_›⟩
  split
  · exact .inl ⟨rfl, not_lt.1 ‹_›⟩
  · exact .inr ⟨rfl, not_lt.1 ‹¬q - ⌊q⌋ < 1 / 2›⟩

theorem abs_halfEven_sub_le (q : ℚ) : |(halfEven q : ℚ) - q| ≤ 1 / 2 := by
  have h1 := Int.floor_le q
  rcases halfEven_cases q with ⟨h, h'⟩ | ⟨h, h'⟩
  · rw [h, abs_le]; constructor <;> linarith
  · have h2 := Int.lt_floor_add_one q
    rw [h, abs_le]; push_cast; constructor <;> linarith

variable {q : ℚ}

theorem halfEven_eq_of_abs_lt {n : ℤ} (H : |q - n| < 1 / 2) : halfEven q = n := by
  have h := abs_halfEven_sub_le q
  rw [abs_le] at h
  rw [abs_lt] at H
  have h1 : ((halfEven q - n : ℤ) : ℚ) < 1 := by push_cast; linarith
  have h2 : (-1 : ℚ) < ((halfEven q - n : ℤ) : ℚ) := by push_cast; linarith
  have h1 : halfEven q - n < 1 := by exact_mod_cast h1
  have h2 : -1 < halfEven q - n := by exact_mod_cast h2
  omega

@[simp] theorem halfEven_intCast (n : ℤ) : halfEven n = n :=
  halfEven_eq_of_abs_lt (by simp)

theorem abs_halfEven_sub_le_abs_sub (q : ℚ) (n : ℤ) : |(halfEven q : ℚ) - q| ≤ |(n : ℚ) - q| := by
  rcases lt_or_ge |(n : ℚ) - q| (1 / 2) with h | h
  · rw [halfEven_eq_of_abs_lt (by rwa [abs_sub_comm])]
  · exact (abs_halfEven_sub_le q).trans h

theorem halfEven_mono {p q : ℚ} (H : p ≤ q) : halfEven p ≤ halfEven q := by
  have hf := Int.floor_le_floor H
  rcases hf.lt_or_eq with hf | hf
  · have hp : halfEven p ≤ ⌊p⌋ + 1 := by rcases halfEven_cases p with h | h <;> omega
    have hq : ⌊q⌋ ≤ halfEven q := by rcases halfEven_cases q with h | h <;> omega
    omega
  · simp only [halfEven, hf]
    have : p - ⌊q⌋ ≤ q - ⌊q⌋ := by linarith
    split_ifs <;> first | omega | (exfalso; linarith)

@[simp] theorem halfEven_zero : halfEven 0 = 0 := by simpa using halfEven_intCast 0

theorem halfEven_nonneg (h : 0 ≤ q) : 0 ≤ halfEven q := by
  simpa using halfEven_mono h

theorem even_halfEven_of_tie (h : |(halfEven q : ℚ) - q| = 1 / 2) : halfEven q % 2 = 0 := by
  have h1 := Int.floor_le q
  have h2 := Int.lt_floor_add_one q
  have hr : q - ⌊q⌋ = 1 / 2 := by
    rcases halfEven_cases q with ⟨he, -⟩ | ⟨he, -⟩
    · rw [he, abs_of_nonpos (by linarith)] at h; linarith
    · rw [he, abs_of_nonneg (by push_cast; linarith)] at h; push_cast at h; linarith
  simp only [halfEven, hr, lt_irrefl, if_false]
  split <;> omega

/-- Rounding is the nearest integer, and the even one of two. -/
theorem halfEven_unique {n : ℤ} (h : |(n : ℚ) - q| ≤ 1 / 2)
    (ht : |(n : ℚ) - q| = 1 / 2 → n % 2 = 0) : halfEven q = n := by
  rcases h.lt_or_eq with hlt | heq
  · exact halfEven_eq_of_abs_lt (by rwa [abs_sub_comm])
  by_contra hne
  have hm := abs_halfEven_sub_le q
  have habs : |((halfEven q - n : ℤ) : ℚ)| ≤ 1 := by
    have := abs_sub_le (halfEven q : ℚ) q n
    rw [abs_sub_comm q] at this
    push_cast
    linarith
  have habs : |halfEven q - n| ≤ 1 := by exact_mod_cast habs
  have hm : |(halfEven q : ℚ) - q| = 1 / 2 := by
    refine le_antisymm hm ?_
    have h1 : (1 : ℚ) ≤ |(halfEven q : ℚ) - n| := by
      exact_mod_cast (Int.one_le_abs (sub_ne_zero.2 hne))
    have := abs_sub_le (halfEven q : ℚ) q n
    rw [abs_sub_comm q] at this
    linarith
  have h1 := even_halfEven_of_tie hm
  have h2 := ht heq
  rw [abs_le] at habs
  omega

theorem halfEven_neg (q : ℚ) : halfEven (-q) = -halfEven q := by
  have habs : |((-halfEven q : ℤ) : ℚ) - -q| = |(halfEven q : ℚ) - q| := by
    rw [← abs_neg]; congr 1; push_cast; ring
  refine halfEven_unique (habs ▸ abs_halfEven_sub_le q) fun h => ?_
  have := even_halfEven_of_tie (habs ▸ h)
  omega

theorem le_abs_halfEven {n : ℤ} (h : (n : ℚ) ≤ |q|) : n ≤ |halfEven q| := by
  have key : ∀ q : ℚ, (n : ℚ) ≤ q → n ≤ |halfEven q| := fun q hq => by
    have := halfEven_mono hq
    rw [halfEven_intCast] at this
    exact this.trans (le_abs_self _)
  rcases le_abs.1 h with h | h
  · exact key q h
  · simpa [halfEven_neg] using key _ h

end Rat

/-- A floating-point format: `prec` digits in base `base`, no unit below `base ^ emin`. -/
structure FloatFormat where
  base : ℕ
  prec : ℕ
  emin : ℤ
  one_lt_base : 1 < base
  prec_pos : 0 < prec

namespace FloatFormat
variable (F : FloatFormat)

/-- The exponent of the unit in the last place of `x`. -/
def ulpExp (x : ℚ) : ℤ := max (Int.log F.base |x| + 1 - F.prec) F.emin

/-- `x` rounded to the format, ties to even. -/
def round (x : ℚ) : ℚ :=
  Rat.halfEven (x / (F.base : ℚ) ^ F.ulpExp x) * (F.base : ℚ) ^ F.ulpExp x

theorem base_pos : (0 : ℚ) < F.base := by
  have := F.one_lt_base
  exact_mod_cast (by omega : 0 < F.base)

theorem ulp_pos (e : ℤ) : (0 : ℚ) < (F.base : ℚ) ^ e := zpow_pos F.base_pos e

/-- Rounding moves a value by at most half a unit in its last place. -/
theorem abs_round_sub_le (x : ℚ) : |F.round x - x| ≤ (F.base : ℚ) ^ F.ulpExp x / 2 := by
  have hu := F.ulp_pos (F.ulpExp x)
  set u := (F.base : ℚ) ^ F.ulpExp x
  have h := Rat.abs_halfEven_sub_le (x / u)
  have : F.round x - x = (Rat.halfEven (x / u) - x / u) * u := by
    rw [sub_mul, div_mul_cancel₀ _ hu.ne']; rfl
  rw [this, abs_mul, abs_of_pos hu]
  calc _ ≤ 1 / 2 * u := by gcongr
    _ = u / 2 := by ring

variable {x : ℚ}

/-- Relative to the value, that is half a unit in the last of `prec` digits. -/
theorem abs_round_sub_le_mul (h0 : x ≠ 0) (h : F.emin ≤ Int.log F.base |x| + 1 - F.prec) :
    |F.round x - x| ≤ |x| * (F.base : ℚ) ^ (1 - F.prec : ℤ) / 2 := by
  refine (F.abs_round_sub_le x).trans (div_le_div_of_nonneg_right ?_ (by norm_num))
  rw [ulpExp, max_eq_left h, add_sub_assoc, zpow_add₀ F.base_pos.ne']
  exact mul_le_mul_of_nonneg_right (Int.zpow_log_le_self F.one_lt_base (abs_pos.2 h0))
    (F.ulp_pos _).le

theorem ulpExp_le {k : ℤ} (h0 : x ≠ 0) (hx : |x| < (F.base : ℚ) ^ (k + F.prec))
    (hk : F.emin ≤ k) : F.ulpExp x ≤ k := by
  have := (Int.lt_zpow_iff_log_lt F.one_lt_base (abs_pos.2 h0)).1 hx
  exact max_le (by omega) hk

@[simp] theorem round_zero : F.round 0 = 0 := by
  have : Rat.halfEven 0 = 0 := Rat.halfEven_zero
  simp [round, this]

theorem halfEven_div_mul_mono (e : ℤ) {x y : ℚ} (h : x ≤ y) :
    Rat.halfEven (x / (F.base : ℚ) ^ e) * (F.base : ℚ) ^ e ≤ Rat.halfEven (y / (F.base : ℚ) ^ e) * (F.base : ℚ) ^ e := by
  have hm := Rat.halfEven_mono (div_le_div_of_nonneg_right h (F.ulp_pos e).le)
  exact mul_le_mul_of_nonneg_right (by exact_mod_cast hm) (F.ulp_pos e).le

theorem halfEven_div_mul_eq_self (m : ℤ) {e k : ℤ} (h : e ≤ k) :
    Rat.halfEven (m * (F.base : ℚ) ^ k / (F.base : ℚ) ^ e) * (F.base : ℚ) ^ e = m * (F.base : ℚ) ^ k := by
  obtain ⟨d, hd⟩ : ∃ d : ℕ, k - e = d := ⟨(k - e).toNat, (Int.toNat_of_nonneg (by omega)).symm⟩
  have hint : m * (F.base : ℚ) ^ k / (F.base : ℚ) ^ e = ((m * F.base ^ d : ℤ) : ℚ) := by
    rw [mul_div_assoc, ← zpow_sub₀ F.base_pos.ne', hd]
    push_cast
    rw [zpow_natCast]
  rw [hint, Rat.halfEven_intCast, ← hint, div_mul_cancel₀ _ (F.ulp_pos e).ne']

theorem round_of_ulpExp_le {m k : ℤ} (h : F.ulpExp (m * (F.base : ℚ) ^ k) ≤ k) :
    F.round (m * (F.base : ℚ) ^ k) = m * (F.base : ℚ) ^ k := F.halfEven_div_mul_eq_self m h

/-- A value of at most `prec` digits is in the format. -/
theorem round_eq_self {m k : ℤ} (hm : |m| < F.base ^ F.prec) (hk : F.emin ≤ k) :
    F.round (m * (F.base : ℚ) ^ k) = m * (F.base : ℚ) ^ k := by
  rcases eq_or_ne m 0 with rfl | h0
  · simp
  have hb := F.base_pos
  refine F.round_of_ulpExp_le (F.ulpExp_le ?_ ?_ hk)
  · exact mul_ne_zero (by exact_mod_cast h0) (zpow_pos hb k).ne'
  · rw [abs_mul, abs_of_pos (zpow_pos hb k), add_comm, zpow_add₀ hb.ne', zpow_natCast]
    have : (|m| : ℚ) < (F.base : ℚ) ^ F.prec := by exact_mod_cast hm
    exact mul_lt_mul_of_pos_right this (zpow_pos hb k)

theorem round_neg (x : ℚ) : F.round (-x) = -F.round x := by
  simp [round, ulpExp, neg_div, Rat.halfEven_neg]

theorem zpow_le_round {k : ℤ} (h : (F.base : ℚ) ^ k ≤ x) (hk : F.emin ≤ k) : (F.base : ℚ) ^ k ≤ F.round x := by
  have hb := F.base_pos
  have hx : 0 < x := (zpow_pos hb k).trans_le h
  have hk' : k ≤ Int.log F.base |x| := by
    rw [abs_of_pos hx]; exact (Int.zpow_le_iff_le_log F.one_lt_base hx).1 h
  -- some power between `base ^ k` and `x` is a whole number of last places
  obtain ⟨j, hkj, hej, hjx⟩ : ∃ j, k ≤ j ∧ F.ulpExp x ≤ j ∧ (F.base : ℚ) ^ j ≤ x := by
    refine ⟨Int.log F.base |x|, hk', max_le ?_ (hk.trans hk'), ?_⟩
    · have := F.prec_pos; omega
    · rw [abs_of_pos hx]; exact Int.zpow_log_le_self F.one_lt_base hx
  calc (F.base : ℚ) ^ k ≤ (F.base : ℚ) ^ j :=
        zpow_le_zpow_right₀ (by exact_mod_cast F.one_lt_base.le) hkj
    _ = Rat.halfEven ((F.base : ℚ) ^ j / (F.base : ℚ) ^ F.ulpExp x) * (F.base : ℚ) ^ F.ulpExp x := by
        have := F.halfEven_div_mul_eq_self 1 hej
        rwa [Int.cast_one, one_mul, eq_comm] at this
    _ ≤ F.round x := F.halfEven_div_mul_mono _ hjx

theorem round_nonneg (h : 0 ≤ x) : 0 ≤ F.round x := by
  have := F.halfEven_div_mul_mono (F.ulpExp x) h
  rwa [zero_div, Rat.halfEven_zero, Int.cast_zero, zero_mul] at this

theorem round_le_zpow {k : ℤ} (h0 : 0 < x) (h : x ≤ (F.base : ℚ) ^ k) (hk : F.emin ≤ k) :
    F.round x ≤ (F.base : ℚ) ^ k := by
  have hek : F.ulpExp x ≤ k := by
    refine max_le ?_ hk
    have : (F.base : ℚ) ^ Int.log F.base |x| ≤ (F.base : ℚ) ^ k := by
      rw [abs_of_pos h0]
      exact (Int.zpow_log_le_self F.one_lt_base h0).trans h
    have := (zpow_le_zpow_iff_right₀ (by exact_mod_cast F.one_lt_base)).1 this
    have := F.prec_pos
    omega
  have hself := F.halfEven_div_mul_eq_self 1 hek
  rw [Int.cast_one, one_mul] at hself
  exact (F.halfEven_div_mul_mono _ h).trans_eq hself

private theorem round_mono_pos {x y : ℚ} (h0 : 0 < x) (h : x ≤ y) : F.round x ≤ F.round y := by
  have hlog : Int.log F.base |x| ≤ Int.log F.base |y| := by
    rw [abs_of_pos h0, abs_of_pos (h0.trans_le h)]
    exact Int.log_mono_right h0 h
  have hulp : F.ulpExp x ≤ F.ulpExp y := max_le_max_right F.emin (by omega)
  rcases hulp.eq_or_lt with he | he
  · rw [round, round, he]
    exact F.halfEven_div_mul_mono _ h
  · -- the power of the base between them is in the format
    have hy := h0.trans_le h
    have hlt : F.emin < F.ulpExp y := (le_max_right _ F.emin).trans_lt he
    have hyexp : F.ulpExp y = Int.log F.base |y| + 1 - F.prec :=
      (max_choice (Int.log F.base |y| + 1 - F.prec) F.emin).resolve_right hlt.ne'
    have hprec := F.prec_pos
    have hmin : F.emin ≤ Int.log F.base |y| := by omega
    have hxy : Int.log F.base |x| + 1 ≤ Int.log F.base |y| := by
      have : Int.log F.base |x| + 1 - F.prec ≤ F.ulpExp x := le_max_left _ F.emin
      omega
    have hx : x ≤ (F.base : ℚ) ^ Int.log F.base |y| := by
      have h1 := Int.lt_zpow_succ_log_self F.one_lt_base x
      rw [← abs_of_pos h0] at h1
      refine (le_of_lt ?_).trans (zpow_le_zpow_right₀ (by exact_mod_cast F.one_lt_base.le) hxy)
      simpa [abs_of_pos h0] using h1
    refine (F.round_le_zpow h0 hx hmin).trans (F.zpow_le_round ?_ hmin)
    rw [abs_of_pos hy]
    exact Int.zpow_log_le_self F.one_lt_base hy

theorem round_mono {x y : ℚ} (h : x ≤ y) : F.round x ≤ F.round y := by
  rcases lt_or_ge 0 x with hx | hx
  · exact F.round_mono_pos hx h
  have hx' : F.round x ≤ 0 := by
    have := F.round_nonneg (neg_nonneg.2 hx)
    rw [round_neg] at this
    linarith
  rcases le_or_gt 0 y with hy | hy
  · exact hx'.trans (F.round_nonneg hy)
  · have := F.round_mono_pos (neg_pos.2 hy) (neg_le_neg h)
    rw [round_neg, round_neg] at this
    linarith

/-- A multiple of the unit of `y` is no nearer to `y` than `y` rounded is. -/
theorem abs_round_sub_le_of_mul (y : ℚ) (n : ℤ) :
    |F.round y - y| ≤ |n * (F.base : ℚ) ^ F.ulpExp y - y| := by
  have hu := F.ulp_pos (F.ulpExp y)
  set u := (F.base : ℚ) ^ F.ulpExp y
  have key : ∀ m : ℤ, (m : ℚ) * u - y = (m - y / u) * u := by
    intro m
    rw [sub_mul, div_mul_cancel₀ _ hu.ne']
  show |(Rat.halfEven (y / u) : ℚ) * u - y| ≤ _
  rw [key, key, abs_mul, abs_mul]
  exact mul_le_mul_of_nonneg_right (Rat.abs_halfEven_sub_le_abs_sub _ _) (abs_nonneg _)

private theorem abs_round_sub_le_pos (x : ℚ) {y : ℚ} (hy : 0 < y) :
    |F.round y - y| ≤ |F.round x - y| := by
  have hmul : ∀ {k : ℤ} (m : ℤ), F.ulpExp y ≤ k →
      ∃ n : ℤ, (m : ℚ) * (F.base : ℚ) ^ k = n * (F.base : ℚ) ^ F.ulpExp y := by
    intro k m hk
    obtain ⟨d, hd⟩ : ∃ d : ℕ, k - F.ulpExp y = d :=
      ⟨(k - F.ulpExp y).toNat, (Int.toNat_of_nonneg (by omega)).symm⟩
    refine ⟨m * F.base ^ d, ?_⟩
    rw [show k = d + F.ulpExp y by omega, zpow_add₀ F.base_pos.ne', zpow_natCast]
    push_cast
    ring
  rcases le_or_gt (F.ulpExp y) (F.ulpExp x) with he | he
  · obtain ⟨n, hn⟩ := hmul (Rat.halfEven (x / (F.base : ℚ) ^ F.ulpExp x)) he
    rw [show F.round x = _ from hn]
    exact F.abs_round_sub_le_of_mul y n
  · -- `x` has fewer digits before the point, so that a power of the base lies between the two
    have hmin : F.emin < F.ulpExp y := (le_max_right _ F.emin).trans_lt he
    have hyexp : F.ulpExp y = Int.log F.base |y| + 1 - F.prec :=
      (max_choice (Int.log F.base |y| + 1 - F.prec) F.emin).resolve_right hmin.ne'
    have hprec := F.prec_pos
    have hlog : Int.log F.base |x| + 1 - F.prec ≤ F.ulpExp x := le_max_left _ F.emin
    have hpow : (F.base : ℚ) ^ Int.log F.base |y| ≤ y := by
      rw [abs_of_pos hy]
      exact Int.zpow_log_le_self F.one_lt_base hy
    have hx : F.round x ≤ (F.base : ℚ) ^ Int.log F.base |y| := by
      rcases le_or_gt x 0 with hx | hx
      · have := F.round_mono hx
        rw [round_zero] at this
        exact this.trans (F.ulp_pos _).le
      · refine F.round_le_zpow hx ?_ (by omega)
        have hlt := Int.lt_zpow_succ_log_self F.one_lt_base x
        rw [abs_of_pos hx] at hlog
        exact hlt.le.trans (zpow_le_zpow_right₀ (by exact_mod_cast F.one_lt_base.le) (by omega))
    obtain ⟨n, hn⟩ := hmul (k := Int.log F.base |y|) 1 (by omega)
    rw [Int.cast_one, one_mul] at hn
    have := F.abs_round_sub_le_of_mul y n
    rw [← hn, abs_of_nonpos (sub_nonpos.2 hpow)] at this
    rw [abs_of_nonpos (a := F.round x - y) (by linarith)]
    linarith

theorem abs_round_sub_le_abs_sub (x y : ℚ) : |F.round y - y| ≤ |F.round x - y| := by
  rcases lt_trichotomy y 0 with hy | rfl | hy
  · have := F.abs_round_sub_le_pos (-x) (neg_pos.2 hy)
    rw [round_neg, round_neg, neg_sub_neg, neg_sub_neg, abs_sub_comm y, abs_sub_comm y] at this
    exact this
  · rw [round_zero, sub_zero, abs_zero]
    exact abs_nonneg _
  · exact F.abs_round_sub_le_pos x hy

/-- A value of the format that is rounded to a multiple of `1 / s` and read back gives that multiple
again. -/
theorem halfEven_round_halfEven (x : ℚ) {s : ℚ} (hs : 0 < s) :
    Rat.halfEven (F.round (Rat.halfEven (F.round x * s) / s) * s) = Rat.halfEven (F.round x * s) := by
  set n := Rat.halfEven (F.round x * s)
  have hscale : ∀ z : ℚ, |(n : ℚ) - z * s| = |z - n / s| * s := by
    intro z
    rw [← abs_of_pos hs, ← abs_mul, abs_of_pos hs, sub_mul, div_mul_cancel₀ _ hs.ne', abs_sub_comm]
  have hle : |(n : ℚ) - F.round (n / s) * s| ≤ |(n : ℚ) - F.round x * s| := by
    rw [hscale, hscale]
    exact mul_le_mul_of_nonneg_right (F.abs_round_sub_le_abs_sub x _) hs.le
  have hhalf := Rat.abs_halfEven_sub_le (F.round x * s)
  refine Rat.halfEven_unique (hle.trans hhalf) fun h => ?_
  exact Rat.even_halfEven_of_tie (le_antisymm hhalf (h ▸ hle))

end FloatFormat
