import Bismuth.Lib.Except
import Bismuth.Py.Value

/-!
# Amounts

`amounts.py` and `quantizer.py`: the conversion between decimal amounts and integer atomic units
(1 BIS is `10 ^ 8` units), in the two storage modes of the ledger.
-/

namespace Bismuth
open Py

/-- `amounts.LEDGER_INTEGER`: whether a stored amount is decimal text or integer units. -/
inductive Mode where
  | decimal
  | integer
  deriving DecidableEq

def satoshisPerBis : Nat := 10 ^ 8

/-- `quantizer.quantize_eight`: any falsy value is zero. -/
def quantizeEight (v : Val) : Except (Exc ρ) Number :=
  if v.truthy then v.toDecimal >>= quantize 8 else .ok (.ofRat 0)

/-- `int((quantize_eight(x) * SATOSHIS_PER_BIS).to_integral_value())`. -/
def toUnits (v : Val) : Except (Exc ρ) Int := do
  truncate (toIntegral (← mul (← quantizeEight v) (.ofRat satoshisPerBis)))

/-- The legacy text with eight decimals. -/
def fromUnits (u : Int) : Text := fixedText (u < 0) 8 u.natAbs

def toDecimal (u : Int) : Except (Exc ρ) Number := do
  quantize 8 (← div (.ofRat u) (.ofRat satoshisPerBis))

/-- `block_store.units`: a stored amount, fee or reward in units. -/
def units (mode : Mode) (v : Val) : Except (Exc ρ) Int :=
  if v = .str [] then .ok 0
  else match mode with
  | .integer => decimal v.text >>= truncate
  | .decimal => toUnits v

/-- A ledger column as a decimal, whatever the storage mode. -/
def ledgerValue (mode : Mode) (v : Val) : Except (Exc ρ) Number :=
  match mode with
  | .integer => if v.truthy then v.toInt >>= toDecimal else toDecimal 0
  | .decimal => quantizeEight v

/-! ## Arithmetic that returned -/

theorem rounded_ok (h : (rounded q : Except (Exc ρ) Number) = .ok x) :
    x = .ofRat (context28.round q) := by
  simp only [rounded] at h
  split at h <;> cases h
  rfl

theorem quantize_fin_ok (h : (quantize k (.fin q z) : Except (Exc ρ) Number) = .ok x) :
    x = .fin (Rat.halfEven (q * 10 ^ k) / 10 ^ k) (isNeg q z) ∧
      |Rat.halfEven (q * 10 ^ k)| < 10 ^ 28 := by
  simp only [quantize] at h
  split at h <;> cases h
  exact ⟨rfl, not_le.1 ‹_›⟩

/-! ## Decimals that are a whole number of units -/

/-- The decimal value of `u` units. -/
def bis (u : ℤ) : ℚ := u / 10 ^ 8

theorem cast_satoshisPerBis : ((satoshisPerBis : Nat) : ℚ) = 10 ^ 8 := by
  rw [satoshisPerBis]; norm_num

theorem bis_add (u v : ℤ) : bis (u + v) = bis u + bis v := by simp [bis, add_div]

theorem bis_neg (u : ℤ) : bis (-u) = -bis u := by simp [bis, neg_div]

theorem bis_mul (u : ℤ) : bis u * 10 ^ 8 = u := by simp [bis]

theorem bis_lt {u v : ℤ} : bis u < bis v ↔ u < v := by
  rw [bis, bis, div_lt_div_iff_of_pos_right (by norm_num)]; exact Int.cast_lt

/-- `x` is the decimal of `u` units, and the context holds it. -/
def IsBis (x : Number) (u : ℤ) : Prop := |u| < 10 ^ 28 ∧ ∃ z, x = .fin (bis u) z

theorem IsBis.zero : IsBis (.ofRat 0) 0 := ⟨by norm_num, false, by simp [Number.ofRat, bis]⟩

theorem IsBis.unique (h : IsBis x u) (h' : IsBis x v) : u = v := by
  obtain ⟨-, z, rfl⟩ := h
  obtain ⟨-, z', he⟩ := h'
  have h1 : bis u = bis v := by injection he
  have h2 := congrArg (· * (10 : ℚ) ^ 8) h1
  simpa [bis_mul] using h2

theorem quantize_ok {x y : Number} (h : (quantize 8 x : Except (Exc ρ) Number) = .ok y) :
    y = .nan ∨ ∃ u, IsBis y u := by
  cases x with
  | fin q z =>
    simp only [quantize] at h
    split at h
    · cases h
    · cases h
      exact .inr ⟨_, not_le.1 ‹_›, _, rfl⟩
  | nan => cases h; exact .inl rfl
  | inf | snan => cases h

theorem IsBis.quantize (h : IsBis x u) :
    ∃ y, (quantize 8 x : Except (Exc ρ) Number) = .ok y ∧ IsBis y u := by
  obtain ⟨hu, z, rfl⟩ := h
  refine ⟨.fin (bis u) (isNeg (bis u) z), ?_, hu, _, rfl⟩
  simp only [Py.quantize, bis_mul, Rat.halfEven_intCast]
  rw [if_neg (not_le.2 hu)]
  rfl

theorem IsBis.of_quantize (h : IsBis x u) (hq : (Py.quantize 8 x : Except (Exc ρ) Number) = .ok y) :
    IsBis y u := by
  obtain ⟨y', h1, h2⟩ := h.quantize (ρ := ρ)
  rw [h1] at hq
  cases hq
  exact h2

private theorem bis_eq_mul_zpow (u : ℤ) : bis u = u * ((10 : ℕ) : ℚ) ^ (-8 : ℤ) := by
  rw [bis, div_eq_mul_inv, zpow_neg]; norm_num

private theorem log_ten_lt {q : ℚ} (h : |q| < 10 ^ 40) : Int.log 10 |q| < 1000000 := by
  rcases eq_or_ne q 0 with rfl | h0
  · simp
  · have : Int.log 10 |q| < 40 :=
      (Int.lt_zpow_iff_log_lt (by decide) (abs_pos.2 h0)).1 (by exact_mod_cast h)
    omega

private theorem abs_bis_lt_ten_pow {u : ℤ} (h : |u| < 10 ^ 28) : |bis u| < 10 ^ 40 := by
  have h' : (|u| : ℚ) < 10 ^ 28 := by exact_mod_cast h
  rw [bis, abs_div, abs_of_pos (by norm_num : (0 : ℚ) < 10 ^ 8), div_lt_iff₀ (by norm_num)]
  exact h'.trans (by norm_num)

theorem rounded_bis {u : ℤ} (h : |u| < 10 ^ 28) :
    (rounded (bis u) : Except (Exc ρ) Number) = .ok (.ofRat (bis u)) := by
  have hr : context28.round (bis u) = bis u := by
    rw [bis_eq_mul_zpow]
    exact context28.round_eq_self (by simpa [context28] using h) (by decide)
  simp only [rounded, hr]
  rw [if_neg (not_le.2 (log_ten_lt (abs_bis_lt_ten_pow h)))]

theorem quantize_of_le {q : ℚ} (h : 10 ^ 20 ≤ |q|) :
    (Py.quantize 8 (.fin q z) : Except (Exc ρ) Number) = .error .invalidOperation := by
  have : (10 : ℤ) ^ 28 ≤ |Rat.halfEven (q * 10 ^ 8)| := by
    refine Rat.le_abs_halfEven ?_
    rw [abs_mul, abs_of_pos (by norm_num : (0 : ℚ) < 10 ^ 8)]
    push_cast
    linarith
  simp only [Py.quantize]
  rw [if_pos this]

private theorem le_round_bis {u : ℤ} (hu : 10 ^ 28 ≤ |u|) :
    (10 : ℚ) ^ 20 ≤ |context28.round (bis u)| := by
  have key : ∀ v : ℤ, 10 ^ 28 ≤ v → (10 : ℚ) ^ 20 ≤ context28.round (bis v) := by
    intro v hv
    have hv' : (10 : ℚ) ^ 28 ≤ v := by exact_mod_cast hv
    have h1 : ((10 : ℕ) : ℚ) ^ (20 : ℤ) ≤ bis v := by
      rw [bis, le_div_iff₀ (by norm_num)]
      exact le_trans (by norm_num) hv'
    exact_mod_cast context28.zpow_le_round (k := 20) h1 (by decide)
  rcases le_abs.1 hu with hp | hn
  · exact (key u hp).trans (le_abs_self _)
  · have := key (-u) hn
    rw [bis_neg, FloatFormat.round_neg] at this
    exact this.trans (neg_le_abs _)

theorem IsBis.of_rounded (h : (rounded (bis u) >>= Py.quantize 8 : Except (Exc ρ) Number) = .ok y) :
    IsBis y u := by
  by_cases hu : |u| < 10 ^ 28
  · rw [rounded_bis hu, Except.ok_bind] at h
    exact IsBis.of_quantize ⟨hu, _, rfl⟩ h
  · simp only [rounded] at h
    split at h
    · cases h
    · rw [Except.ok_bind, Number.ofRat, quantize_of_le (le_round_bis (not_lt.1 hu))] at h
      cases h

theorem IsBis.quantize_add (hx : IsBis x u) (hy : IsBis y v)
    (h : (add x y >>= Py.quantize 8 : Except (Exc ρ) Number) = .ok r) : IsBis r (u + v) := by
  obtain ⟨-, z, rfl⟩ := hx
  obtain ⟨-, z', rfl⟩ := hy
  rw [add, ← bis_add] at h
  exact IsBis.of_rounded h

theorem IsBis.add (hx : IsBis x u) (hy : IsBis y v) (hlt : |u + v| < 10 ^ 28)
    (h : (Py.add x y : Except (Exc ρ) Number) = .ok r) : IsBis r (u + v) := by
  obtain ⟨-, z, rfl⟩ := hx
  obtain ⟨-, z', rfl⟩ := hy
  rw [Py.add, ← bis_add, rounded_bis hlt] at h
  cases h
  exact ⟨hlt, false, rfl⟩

theorem IsBis.negate (h : IsBis x u) : IsBis (negate x) (-u) := by
  obtain ⟨hu, z, rfl⟩ := h
  exact ⟨by rwa [abs_neg], _, by rw [bis_neg]; rfl⟩

theorem IsBis.quantize_sub (hx : IsBis x u) (hy : IsBis y v)
    (h : (sub x y >>= Py.quantize 8 : Except (Exc ρ) Number) = .ok r) : IsBis r (u - v) :=
  hx.quantize_add hy.negate h

theorem IsBis.lt (hx : IsBis x u) (hy : IsBis y v) :
    (Py.lt x y : Except (Exc ρ) Bool) = .ok (decide (u < v)) := by
  obtain ⟨-, z, rfl⟩ := hx
  obtain ⟨-, z', rfl⟩ := hy
  simp [Py.lt, bis_lt]

theorem IsBis.of_toDecimal (h : (toDecimal u : Except (Exc ρ) Number) = .ok x) : IsBis x u := by
  refine IsBis.of_rounded (ρ := ρ) ?_
  rw [toDecimal] at h
  rwa [bis, ← cast_satoshisPerBis]

theorem toUnits_of_quantize (h : (quantizeEight v : Except (Exc ρ) Number) = .ok x) (hx : IsBis x u) :
    (toUnits v : Except (Exc ρ) Int) = .ok u := by
  obtain ⟨hu, z, rfl⟩ := hx
  have hr : (mul (.fin (bis u) z) (.ofRat (satoshisPerBis : Nat)) : Except (Exc ρ) Number) =
      .ok (.ofRat u) := by
    have hround : context28.round (u : ℚ) = u := by
      have := context28.round_eq_self (m := u) (k := 0) (by simpa [context28] using hu) (by decide)
      simpa using this
    have hlt : |(u : ℚ)| < 10 ^ 40 := by
      have : (|u| : ℚ) < 10 ^ 28 := by exact_mod_cast hu
      exact this.trans (by norm_num)
    simp only [mul, Number.ofRat, cast_satoshisPerBis, bis_mul, rounded, hround]
    rw [if_neg (not_le.2 (log_ten_lt hlt))]
  simp only [toUnits, h, Except.ok_bind, hr]
  simp [toIntegral, Number.ofRat, truncate]

end Bismuth
