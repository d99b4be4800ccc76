import Bismuth.Digest.Process
import Bismuth.Store.Stored

/-!
# The money columns of a row

The texts that amounts, fees and rewards are stored as, and the units they stand for. A column that
the balance table could read is a `MoneyText`.
-/

namespace Bismuth
open Py

/-! ## Arithmetic that returned -/

theorem quantizeEightNum_ok (h : quantizeEightNum (.ofRat q) = .ok x) :
    IsBis x (Rat.halfEven (q * 10 ^ 8)) := by
  rw [quantizeEightNum] at h
  rcases eq_or_ne q 0 with rfl | hq
  · rw [if_pos (by rfl)] at h
    cases h
    have : Rat.halfEven 0 = 0 := Rat.halfEven_zero
    rw [zero_mul, this]
    exact .zero
  · rw [if_neg (by simpa [Number.ofRat, Number.isZero] using hq)] at h
    obtain ⟨rfl, hlt⟩ := quantize_fin_ok h
    exact ⟨hlt, _, rfl⟩

/-! ## Fixed-point texts -/

/-- `'%.kf'` of a number is a fixed-point text with the number's sign. -/
theorem percentFixed_fin (h : |q| < 2 ^ 200) :
    (percentFixed k (.fin q z) : Except (Exc ρ) Text) =
      .ok (fixedText (isNeg (binary64.round q) (isNeg q z)) k
        (Rat.halfEven (|binary64.round q| * 10 ^ k)).natAbs) := by
  simp only [percentFixed, Number.toFloat, toDouble]
  rw [if_neg (not_le.2 (log_round_lt h))]
  rfl

theorem abs_round_lt {q : ℚ} (h : |q| < 2 ^ 200) : |binary64.round q| ≤ 2 ^ 200 := by
  have key : ∀ p : ℚ, 0 < p → p < 2 ^ 200 → |binary64.round p| ≤ 2 ^ 200 := fun p h0 hp => by
    have hk : ((2 : ℕ) : ℚ) ^ (200 : ℤ) = 2 ^ 200 := by norm_num
    have := binary64.round_le_zpow (k := 200) h0 (by simpa [binary64, hk] using hp.le) (by decide)
    rw [abs_of_nonneg (binary64.round_nonneg h0.le)]
    simpa [binary64, hk] using this
  rcases lt_trichotomy q 0 with hq | rfl | hq
  · have := key (-q) (neg_pos.2 hq) (by rwa [abs_of_neg hq] at h)
    rwa [FloatFormat.round_neg, abs_neg] at this
  · simp
  · exact key q hq (by rwa [abs_of_pos hq] at h)

theorem isBis_fixedVal (neg : Bool) {u : Nat} (hu : u < 10 ^ 28) :
    IsBis (.fin (fixedVal neg 8 u) neg) (if neg then -(u : ℤ) else u) := by
  refine ⟨by cases neg <;> simpa using (by exact_mod_cast hu), neg, ?_⟩
  cases neg <;> simp [fixedVal, bis, neg_div]

/-- Reading a fixed-point text gives its value, or it has too many digits. -/
theorem toUnits_fixedText (h : (toUnits (.str (fixedText neg 8 u)) : Except (Exc ρ) Int) = .ok k) :
    u < 10 ^ 28 ∧ k = if neg then -(u : ℤ) else u := by
  have ht : (Val.str (fixedText neg 8 u)).truthy = true := by
    simp [Val.truthy, fixedText_ne_nil]
  by_cases hu : u < 10 ^ 28
  · refine ⟨hu, ?_⟩
    have hd := decimal_fixedText (ρ := ρ) neg (k := 8) (by decide) (by decide) (u := u)
      (hu.trans (by norm_num))
    have hb := isBis_fixedVal neg hu
    obtain ⟨x, hx, hbx⟩ := hb.quantize (ρ := ρ)
    have := toUnits_of_quantize (v := .str (fixedText neg 8 u))
      (by rw [quantizeEight, if_pos ht, Val.toDecimal, hd, Except.ok_bind, hx]) hbx
    rw [this] at h
    exact (Except.ok.inj h).symm
  · -- the amount overflows the context
    exfalso
    have hq : (10 : ℚ) ^ 20 ≤ |fixedVal neg 8 u| := by
      have : (10 : ℚ) ^ 28 ≤ u := by exact_mod_cast not_lt.1 hu
      have hsign : |(if neg then -1 else 1 : ℚ)| = 1 := by cases neg <;> simp
      rw [fixedVal, abs_mul, hsign, one_mul, abs_of_nonneg (by positivity), le_div_iff₀ (by norm_num)]
      exact le_trans (by norm_num) this
    simp only [toUnits, quantizeEight, ht, if_true, Val.toDecimal, decimal,
      decimalAscii_plain fun c hc => isPlain_of_mem_fixedText hc, signOf_fixedText,
      unsignedOf_fixed (by decide : 0 < 8), scaled_neg_exp] at h
    split at h
    · rw [Except.ok_bind, quantize_of_le hq] at h
      cases h
    · cases h

theorem intText_natCast (n : Nat) : intText n = natText n := by
  simp [intText]

theorem moneyText_of_column (hneg : neg = true → u = 0)
    (hs : moneyColumn mode (.str (fixedText neg 8 u)) (fixedText neg 8 u) = .ok s)
    (hu : units mode (.str s) = (.ok k : Except Err Int)) : MoneyText mode s u := by
  cases mode with
  | decimal =>
    cases hs
    have hne : Val.str (fixedText neg 8 u) ≠ .str [] := by simpa using fixedText_ne_nil _ _ _
    simp only [Bismuth.units, if_neg hne] at hu
    exact ⟨(toUnits_fixedText hu).1, .inl ⟨neg, hneg, rfl⟩⟩
  | integer =>
    simp only [moneyColumn, Except.bind_eq_ok] at hs
    obtain ⟨k, hk, hs⟩ := hs
    cases hs
    obtain ⟨hlt, rfl⟩ := toUnits_fixedText hk
    refine ⟨hlt, ?_⟩
    cases neg with
    | false => exact intText_natCast u
    | true => obtain rfl := hneg rfl; rfl

/-! ## The fields of a transaction -/

theorem quantizeTwo_ok (h : quantizeTwo v = .ok (.fin q z)) : |q| < 2 ^ 200 := by
  simp only [quantizeTwo, Except.bind_eq_ok] at h
  obtain ⟨x, -, h⟩ := h
  cases x with
  | fin p z' =>
    obtain ⟨he, hlt⟩ := quantize_fin_ok h
    cases he
    have : |(Rat.halfEven (p * 10 ^ 2) : ℚ)| < 10 ^ 28 := by exact_mod_cast hlt
    rw [abs_div, div_lt_iff₀ (by norm_num)]
    exact this.trans (by norm_num)
  | inf | nan | snan => cases h

theorem timestampField_ok (hq : quantizeTwo v = .ok (.fin q z)) (h : timestampField v = .ok s) :
    StampText s := by
  have hlt := quantizeTwo_ok hq
  rw [timestampField, hq, Except.ok_bind, percentFixed_fin hlt] at h
  cases h
  refine ⟨_, _, ?_, rfl⟩
  have h1 : |binary64.round q| * 10 ^ 2 ≤ ((2 ^ 200 * 10 ^ 2 : ℤ) : ℚ) := by
    push_cast
    have := abs_round_lt hlt
    linarith
  have h2 := Rat.halfEven_mono h1
  rw [Rat.halfEven_intCast] at h2
  have h3 := Rat.halfEven_mono (by positivity : (0 : ℚ) ≤ |binary64.round q| * 10 ^ 2)
  have h0 : Rat.halfEven 0 = 0 := Rat.halfEven_zero
  rw [h0] at h3
  have : (2 : ℤ) ^ 200 * 10 ^ 2 < 10 ^ 100 := by norm_num
  zify
  rw [abs_of_nonneg h3]
  omega

theorem abs_bis_lt {u : ℤ} (h : |u| < 10 ^ 28) : |bis u| < 2 ^ 200 := by
  have : (|u| : ℚ) < 10 ^ 28 := by exact_mod_cast h
  rw [bis, abs_div, abs_of_pos (by norm_num : (0 : ℚ) < 10 ^ 8), div_lt_iff₀ (by norm_num)]
  exact this.trans (by norm_num)

/-- An amount that is not negative is the text of a number of units, or no number at all. -/
theorem amountField_ok (h : amountField v = .ok s) (hx : Py.float s = (.ok x : Except Err Number))
    (hnn : floatLt x (.ofRat 0) = false) :
    s = ['n', 'a', 'n'] ∨ ∃ (neg : Bool) (u : Nat), (neg = true → u = 0) ∧ s = fixedText neg 8 u := by
  simp only [amountField, quantizeAmount, Except.bind_eq_ok] at h
  obtain ⟨y, ⟨d, -, hy⟩, h⟩ := h
  rcases quantize_ok hy with rfl | ⟨u, hu, z, rfl⟩
  · cases h
    exact .inl rfl
  · rw [percentFixed_fin (abs_bis_lt hu)] at h
    cases h
    refine .inr ⟨_, _, fun hneg => ?_, rfl⟩
    rw [hneg] at hx
    set w := (Rat.halfEven (|binary64.round (bis u)| * 10 ^ 8)).natAbs
    by_contra hw
    -- a text with a minus sign that is not zero reads as a negative float
    rw [float_fixedText _ (by decide)] at hx
    cases hx
    have hneg : fixedVal true 8 w = -bis w := by simp [fixedVal, bis]
    have hpos := round_bis_pos hw
    have hrw : binary64.round (fixedVal true 8 w) < 0 := by
      rw [hneg, FloatFormat.round_neg]
      linarith
    have hv : fixedVal true 8 w < 0 := by
      rw [hneg]
      have : 0 < bis w := by
        have : (0 : ℚ) < w := by exact_mod_cast Nat.pos_of_ne_zero hw
        simp only [bis]; positivity
      linarith
    simp only [toDouble] at hnn
    split at hnn
    · simp [floatLt, Number.ofRat, lt, hv] at hnn
    · simp [floatLt, Number.ofRat, lt, hrw.not_ge] at hnn

end Bismuth
