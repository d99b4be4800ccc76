import Bismuth.Py.ReadBack
import Bismuth.Serialize

/-!
# Numeric fields as bytes

`txfields.py`: unsigned LEB128 integers, a timestamp as centiseconds, an amount as units.
-/

namespace Bismuth
open Py

/-! ## Varints -/

def uvarintGo : (fuel n : Nat) → Bytes
  | 0, _ => []
  | fuel + 1, n =>
    if n < 128 then [UInt8.ofNat n] else UInt8.ofNat (n % 128 + 128) :: uvarintGo fuel (n / 128)

/-- `uvarint_encode` of a natural number. -/
def uvarint (n : Nat) : Bytes := uvarintGo (n + 1) n

def uvarintEncode (n : Int) : Except (Exc ρ) Bytes :=
  if n < 0 then .error .valueError else .ok (uvarint n.toNat)

/-- `uvarint_decode`: the value and what follows it. `inner` tells a byte after the first one, where
a final zero would be an overlong form. -/
def uvarintDecode (inner : Bool) : Bytes → Except (Exc ρ) (Nat × Bytes)
  | [] => .error .valueError
  | b :: s =>
    if b.toNat < 128 then
      if inner ∧ b = 0 then .error .valueError else .ok (b.toNat, s)
    else do
      let (v, s) ← uvarintDecode true s
      return (b.toNat - 128 + 128 * v, s)

private theorem uvarintDecode_uvarintGo (h : n < 2 ^ fuel) (s : Bytes) (inner : Bool)
    (hn : inner → 0 < n) : (uvarintDecode inner (uvarintGo (fuel + 1) n ++ s) :
      Except (Exc ρ) (Nat × Bytes)) = .ok (n, s) := by
  induction fuel generalizing n inner with
  | zero =>
    obtain rfl : n = 0 := by simpa using h
    cases inner with
    | true => exact absurd (hn rfl) (lt_irrefl 0)
    | false => rfl
  | succ fuel ih =>
    rw [uvarintGo]
    split <;> rename_i hlt
    · have hv : (UInt8.ofNat n).toNat = n := by rw [UInt8.toNat_ofNat']; omega
      rw [List.singleton_append, uvarintDecode, hv, if_pos hlt, if_neg]
      rintro ⟨hi, h0⟩
      have := hn hi
      rw [h0] at hv
      simp at hv
      omega
    · have hv : (UInt8.ofNat (n % 128 + 128)).toNat = n % 128 + 128 := by
        rw [UInt8.toNat_ofNat']; omega
      rw [List.cons_append, uvarintDecode, hv, if_neg (by omega),
        ih (by rw [pow_succ] at h; omega) true (by omega)]
      simp only [Except.ok_bind, Except.pure_eq_ok, Except.ok.injEq, Prod.mk.injEq, and_true]
      omega

@[simp] theorem uvarintDecode_uvarint (n : Nat) (s : Bytes) :
    (uvarintDecode false (uvarint n ++ s) : Except (Exc ρ) (Nat × Bytes)) = .ok (n, s) :=
  uvarintDecode_uvarintGo n.lt_two_pow_self s false (by simp)

/-! ## Timestamps and amounts -/

def packTimestamp (ts : Text) : Except (Exc ρ) Bytes := v2TsCs ts >>= uvarintEncode

/-- The text that `unpack_timestamp` rebuilds from centiseconds. -/
def timestampText (cs : Nat) : Text := fixedText false 2 cs

/-- The units that `pack_num` reads from a stored amount, fee or reward. -/
def numUnits (mode : Mode) (v : Text) : Except (Exc ρ) Int :=
  match mode with
  | .integer => Py.int v
  | .decimal => toUnits (.str v)

def packNum (mode : Mode) (v : Text) : Except (Exc ρ) Bytes := numUnits mode v >>= uvarintEncode

/-- The text that `unpack_num` rebuilds from units. -/
def moneyText (mode : Mode) (u : Nat) : Text :=
  match mode with
  | .integer => natText u
  | .decimal => fromUnits u

theorem uvarintEncode_ok (h : (uvarintEncode n : Except (Exc ρ) Bytes) = .ok b) :
    ∃ m : Nat, n = m ∧ b = uvarint m := by
  simp only [uvarintEncode] at h
  split at h <;> cases h
  exact ⟨n.toNat, by omega, rfl⟩

/-! ## Scaled integers -/

theorem fromUnits_natCast (u : Nat) : fromUnits u = fixedText false 8 u := by
  have : decide ((u : ℤ) < 0) = false := by simp
  rw [fromUnits, this, Int.natAbs_natCast]

theorem fixedText_ne_nil (neg : Bool) (k u : Nat) : fixedText neg k u ≠ [] := by
  simp [fixedText]

theorem decimal_of_fixedText {neg : Bool} (hk : 0 < k) {u : Nat}
    (h : (decimal (fixedText neg k u) : Except (Exc ρ) Number) = .ok x) : x = .fin (fixedVal neg k u) neg := by
  simp only [decimal, decimalAscii_plain fun c hc => isPlain_of_mem_fixedText hc, signOf_fixedText,
    unsignedOf_fixed hk, scaled_neg_exp] at h
  split at h
  · cases h
    rfl
  · cases h

/-- A number of units below the precision of the context is found again by scaling. -/
theorem truncate_scaled {n : Int} (k : Nat) (z : Bool) (hn : |n| < 10 ^ 28) :
    (do truncate (toIntegral (← mul (.fin (n / 10 ^ k) z) (.ofRat (10 ^ k : Nat)))) : Except (Exc ρ) Int) = .ok n := by
  have hk : (10 : ℚ) ^ k ≠ 0 := by positivity
  have hround : context28.round (n : ℚ) = n := by
    have := context28.round_eq_self (m := n) (k := 0) (by simpa [context28] using hn) (by decide)
    simpa using this
  have hlog : Int.log 10 |(n : ℚ)| < 1000000 := by
    rcases eq_or_ne n 0 with rfl | h0
    · simp
    have h1 : |(n : ℚ)| < ((10 : ℕ) : ℚ) ^ (28 : ℤ) := by exact_mod_cast hn
    have := (Int.lt_zpow_iff_log_lt (by decide) (abs_pos.2 (by exact_mod_cast h0))).1 h1
    omega
  have hm : ((n : ℚ) / 10 ^ k) * ((10 ^ k : Nat) : ℚ) = n := by
    push_cast; exact div_mul_cancel₀ _ hk
  simp only [mul, Number.ofRat, hm, rounded, hround]
  rw [if_neg (not_le.2 hlog)]
  simp [toIntegral, truncate]

/-- The units that a text of `n` units of `10 ^ -k` is read as. -/
theorem scaledInt_of_decimal {n : Int} (h : (decimal s : Except (Exc ρ) Number) =
    .ok (.fin (n / 10 ^ k) z)) (hn : |n| < 10 ^ 28) : (scaledInt k s : Except (Exc ρ) Int) = .ok n := by
  have hk : (10 : ℚ) ^ k ≠ 0 := by positivity
  have hq : (quantize k (.fin (n / 10 ^ k) z) : Except (Exc ρ) Number) =
      .ok (.fin (n / 10 ^ k) (isNeg (n / 10 ^ k) z)) := by
    simp only [quantize, div_mul_cancel₀ _ hk, Rat.halfEven_intCast]
    rw [if_neg (not_le.2 hn)]
  simp only [scaledInt, h, Except.ok_bind, hq]
  exact truncate_scaled k _ hn

/-- What `quantize` and scaling make of a number is below the precision of the context. -/
theorem of_quantize_scaled {x : Number} (h : (do truncate (toIntegral (← mul (← quantize k x)
    (.ofRat (10 ^ k : Nat)))) : Except (Exc ρ) Int) = .ok n) :
    |n| < 10 ^ 28 ∧ ∃ q z, x = .fin q z ∧ n = Rat.halfEven (q * 10 ^ k) := by
  cases x with
  | fin q z =>
    by_cases hlt : |Rat.halfEven (q * 10 ^ k)| < 10 ^ 28
    · simp only [quantize, if_neg (not_le.2 hlt), Except.ok_bind] at h
      rw [truncate_scaled k _ hlt] at h
      cases h
      exact ⟨hlt, q, z, rfl, rfl⟩
    · simp only [quantize, if_pos (not_lt.1 hlt), Except.error_bind] at h
      cases h
  | nan => cases h
  | snan => cases h
  | inf a => cases h

theorem scaledInt_fixedText (neg : Bool) (hk : 0 < k) (hk' : k ≤ 100) (hu : u < 10 ^ 28) :
    (scaledInt k (fixedText neg k u) : Except (Exc ρ) Int) = .ok (if neg then -u else u) := by
  have hd := decimal_fixedText (ρ := ρ) neg hk hk' (u := u) (hu.trans (by norm_num))
  refine scaledInt_of_decimal (z := neg) (hd.trans ?_) ?_
  · cases neg <;> simp [fixedVal, neg_div]
  · cases neg <;> simpa using (by exact_mod_cast hu)

theorem of_scaledInt (h : (scaledInt k s : Except (Exc ρ) Int) = .ok n) :
    |n| < 10 ^ 28 ∧ ∃ q z, (decimal s : Except (Exc ρ) Number) = .ok (.fin q z) ∧ n = Rat.halfEven (q * 10 ^ k) := by
  simp only [scaledInt] at h
  cases hd : (decimal s : Except (Exc ρ) Number) with
  | error e =>
    rw [hd] at h
    cases h
  | ok x =>
    rw [hd] at h
    obtain ⟨hlt, q, z, rfl, hn⟩ := of_quantize_scaled h
    exact ⟨hlt, q, z, rfl, hn⟩

theorem v2TsCs_timestampText {cs : Nat} (h : cs < 10 ^ 28) :
    (v2TsCs (timestampText cs) : Except (Exc ρ) Int) = .ok cs := by
  rw [v2TsCs, timestampText, scaledInt_fixedText false (by decide) (by decide) h]
  rfl

theorem toUnits_lt (h : (toUnits v : Except (Exc ρ) Int) = .ok n) : |n| < 10 ^ 28 := by
  by_cases hv : v.truthy
  · rw [toUnits, quantizeEight, if_pos hv] at h
    cases hd : (v.toDecimal : Except (Exc ρ) Number) with
    | error e =>
      rw [hd] at h
      cases h
    | ok x =>
      rw [hd] at h
      exact (of_quantize_scaled (k := 8) h).1
  · have hzero := truncate_scaled (ρ := ρ) (n := 0) 8 false (by decide)
    rw [toUnits, quantizeEight, if_neg hv, Except.ok_bind] at h
    rw [Int.cast_zero, zero_div] at hzero
    obtain rfl : n = 0 := by
      have := h.symm.trans hzero
      simpa using this
    decide

theorem toUnits_fixedText_of_lt (hu : u < 10 ^ 28) :
    (toUnits (.str (fixedText false 8 u)) : Except (Exc ρ) Int) = .ok u := by
  have htruthy : (Val.str (fixedText false 8 u)).truthy = true := decide_eq_true (fixedText_ne_nil _ _ _)
  have h := scaledInt_fixedText (ρ := ρ) false (k := 8) (by decide) (by decide) hu
  rw [toUnits, quantizeEight, if_pos htruthy]
  exact h

end Bismuth
