import Bismuth.Lib.Rounding

/-!
# Rounding to a number of decimals

`Rat.places k` is the nearest decimal with `k` places, however many digits it has.
-/

namespace Rat

/-- `q` rounded to `k` decimals, ties to even. -/
def places (k : Nat) (q : ℚ) : ℚ := halfEven (q * 10 ^ k) / 10 ^ k

variable {k : Nat}

theorem ten_pow_pos (k : Nat) : (0 : ℚ) < 10 ^ k := by positivity

theorem places_mono {p q : ℚ} (h : p ≤ q) : places k p ≤ places k q := by
  have := halfEven_mono (mul_le_mul_of_nonneg_right h (ten_pow_pos k).le)
  exact div_le_div_of_nonneg_right (by exact_mod_cast this) (ten_pow_pos k).le

/-- A decimal with `k` places is not moved. -/
theorem places_div (n : ℤ) : places k (n / 10 ^ k) = n / 10 ^ k := by
  rw [places, div_mul_cancel₀ _ (ten_pow_pos k).ne', halfEven_intCast]

@[simp] theorem places_intCast (n : ℤ) : places k n = n := by
  have h : (n : ℚ) = ((n * 10 ^ k : ℤ) : ℚ) / 10 ^ k := by
    push_cast
    rw [mul_div_cancel_right₀ _ (ten_pow_pos k).ne']
  rw [h, places_div]

@[simp] theorem places_natCast (n : ℕ) : places k n = n := by simpa using places_intCast (k := k) n

@[simp] theorem places_ofNat (n : ℕ) [n.AtLeastTwo] : places k (OfNat.ofNat n : ℚ) = OfNat.ofNat n :=
  places_natCast n

@[simp] theorem places_one : places k 1 = 1 := by simpa using places_natCast (k := k) 1

@[simp] theorem places_zero : places k 0 = 0 := by simpa using places_natCast (k := k) 0

theorem places_places (q : ℚ) : places k (places k q) = places k q := places_div _

/-- Sums and differences of decimals with `k` places have as many. -/
theorem places_add_sub_eq (a b : ℚ) (n : ℤ) : places k a + n - places k b =
    ((halfEven (a * 10 ^ k) + n * 10 ^ k - halfEven (b * 10 ^ k) : ℤ) : ℚ) / 10 ^ k := by
  simp only [places]
  push_cast
  rw [sub_div, add_div, mul_div_cancel_right₀ _ (ten_pow_pos k).ne']

theorem places_add_sub (a b : ℚ) (n : ℤ) :
    places k (places k a + n - places k b) = places k a + n - places k b := by
  rw [places_add_sub_eq, places_div]

theorem abs_places_sub_le (q : ℚ) : |places k q - q| ≤ 1 / 2 / 10 ^ k := by
  have h := abs_halfEven_sub_le (q * 10 ^ k)
  have heq : places k q - q = (halfEven (q * 10 ^ k) - q * 10 ^ k) / 10 ^ k := by
    rw [places, sub_div, mul_div_cancel_right₀ _ (ten_pow_pos k).ne']
  rw [heq, abs_div, abs_of_pos (ten_pow_pos k)]
  exact div_le_div_of_nonneg_right h (ten_pow_pos k).le

/-- A fraction with an odd denominator is not near the middle of two integers, so what is near it is rounded as
it is. -/
theorem halfEven_eq_of_near {x y : ℚ} {b : ℕ} {n : ℤ} (hx : x * (2 * b + 1) = n)
    (h : |y - x| < 1 / (2 * (2 * b + 1))) : halfEven y = halfEven x := by
  have hb : (0 : ℚ) < 2 * b + 1 := by positivity
  refine halfEven_eq_of_abs_lt ?_
  have hround := abs_halfEven_sub_le x
  have hint : |halfEven x * (2 * b + 1) - n| ≤ b := by
    have hle : |(halfEven x * (2 * b + 1) - n : ℚ)| ≤ (2 * b + 1) / 2 := by
      rw [← hx, ← sub_mul, abs_mul, abs_of_pos hb]
      nlinarith
    have hlt : |(halfEven x * (2 * b + 1) - n : ℚ)| < b + 1 := by linarith
    have : |halfEven x * (2 * b + 1) - n| < b + 1 := by exact_mod_cast hlt
    omega
  have hnear : |(halfEven x : ℚ) - x| * (2 * b + 1) ≤ b := by
    calc |(halfEven x : ℚ) - x| * (2 * b + 1) = |((halfEven x : ℚ) - x) * (2 * b + 1)| := by
          rw [abs_mul, abs_of_pos hb]
      _ = |(halfEven x * (2 * b + 1) - n : ℚ)| := by rw [sub_mul, hx]
      _ ≤ b := by exact_mod_cast hint
  have hgap : |y - x| * (2 * b + 1) < 1 / 2 := by
    calc |y - x| * (2 * b + 1) < 1 / (2 * (2 * b + 1)) * (2 * b + 1) := mul_lt_mul_of_pos_right h hb
      _ = 1 / 2 := by field_simp
  have htri : |y - halfEven x| ≤ |y - x| + |(halfEven x : ℚ) - x| := by
    rw [abs_sub_comm (halfEven x : ℚ) x]
    exact abs_sub_le y x (halfEven x)
  nlinarith

end Rat
