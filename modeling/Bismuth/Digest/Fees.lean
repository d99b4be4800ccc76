import Bismuth.Digest.Money

/-!
# Fees and rewards

The fee of a transaction in units, how it depends on the openfield, and the reward that the coinbase is
credited with: the mining reward and the fees of the block.
-/

namespace Bismuth
open Py

variable {π : Type} {cfg : Config π}

/-! ## Fees -/

def feeValue (base : ℚ) (openfield operation : Text) : ℚ :=
  let fee := context28.round (base + context28.round (openfield.length / 100000))
  if feeSurcharge openfield operation = 0 then fee
  else context28.round (fee + feeSurcharge openfield operation)

def feeUnits (base : ℚ) (openfield operation : Text) : ℤ :=
  Rat.halfEven (feeValue base openfield operation * 10 ^ 8)

theorem feeCalculate_ok (h : feeCalculate openfield operation (.fin base z) = .ok fee) :
    IsBis fee (feeUnits base openfield operation) := by
  simp only [feeCalculate, Except.bind_eq_ok, div, Number.ofRat] at h
  obtain ⟨x, hx, y, hy, w, hw, h⟩ := h
  rw [if_neg (by norm_num)] at hx
  obtain rfl := rounded_ok hx
  obtain rfl := rounded_ok hy
  obtain rfl : w = .ofRat (feeValue base openfield operation) := by
    simp only [feeValue]
    split at hw
    · rename_i hs
      cases hw
      rw [if_pos hs]
    · rename_i hs
      rw [if_neg hs]
      exact rounded_ok hw
  exact quantizeEightNum_ok h

theorem feeValue_mono (hlen : o.length ≤ o'.length) (hs : feeSurcharge o op = feeSurcharge o' op') :
    feeValue base o op ≤ feeValue base o' op' := by
  have hfee : context28.round (base + context28.round (o.length / 100000)) ≤
      context28.round (base + context28.round (o'.length / 100000)) := by
    refine context28.round_mono (add_le_add_right (context28.round_mono ?_) _)
    exact div_le_div_of_nonneg_right (by exact_mod_cast hlen) (by norm_num)
  simp only [feeValue, hs]
  split
  · exact hfee
  · exact context28.round_mono (add_le_add_left hfee _)

theorem feeUnits_mono (hlen : o.length ≤ o'.length) (hs : feeSurcharge o op = feeSurcharge o' op') :
    feeUnits base o op ≤ feeUnits base o' op' :=
  Rat.halfEven_mono (mul_le_mul_of_nonneg_right (feeValue_mono hlen hs) (by norm_num))

/-- The cap of the fields before the fork does not touch what the surcharge looks at. -/
theorem feeSurcharge_capped (postFork : Bool) (o op : Text) :
    feeSurcharge (capped postFork 100000 o) (capped postFork 30 op) = feeSurcharge o op := by
  cases postFork with
  | true => rfl
  | false =>
    have hop : ∀ t : Text, t.length < 30 → (op.take 30 = t ↔ op = t) := fun t ht => by
      constructor
      · intro h
        rw [List.take_of_length_le] at h
        · exact h
        · have := congrArg List.length h
          rw [List.length_take] at this
          omega
      · rintro rfl
        exact List.take_of_length_le ht.le
    have ho : ∀ t : Text, t.length < 100000 → t.isPrefixOf (o.take 100000) = t.isPrefixOf o :=
      fun t ht => by
        rw [Bool.eq_iff_iff, List.isPrefixOf_iff_prefix, List.isPrefixOf_iff_prefix,
          List.prefix_take_iff]
        exact ⟨And.left, fun h => ⟨h, ht.le⟩⟩
    simp only [feeSurcharge, capped, Bool.false_eq_true, if_false]
    rw [ho _ (by decide)]
    simp only [hop _ (by decide : List.length ['t', 'o', 'k', 'e', 'n', ':', 'i', 's', 's', 'u', 'e'] < 30)]

/-- A stored transaction pays at most the fee of the tuple it came from. -/
theorem feeUnits_capped_le (postFork : Bool) (base : ℚ) (o op : Text) :
    feeUnits base (capped postFork 100000 o) (capped postFork 30 op) ≤ feeUnits base o op := by
  refine feeUnits_mono ?_ (feeSurcharge_capped postFork o op)
  rw [capped]
  split
  · exact le_rfl
  · exact List.length_take_le' _ _

private theorem round_half_percent : context28.round (1 / 200) = 1 / 200 := by
  have := context28.round_eq_self (m := 5) (k := -3) (by decide) (by decide)
  norm_num [context28] at this ⊢
  exact this

theorem blockBaseFee_ok (h : blockBaseFee cfg n = .ok f) : ∃ b z, f = .fin b z ∧ 1 / 200 ≤ b := by
  have hq : ∀ {q : ℚ} {x : Number}, quantizeEightNum (.ofRat q) = .ok x → 1 / 200 ≤ q →
      ∃ b z, x = .fin b z ∧ 1 / 200 ≤ b := by
    intro q x hx hle
    obtain ⟨-, z, rfl⟩ := quantizeEightNum_ok hx
    refine ⟨_, z, rfl, ?_⟩
    have h1 : ((500000 : ℤ) : ℚ) ≤ q * 10 ^ 8 := by push_cast; linarith
    have h2 := Rat.halfEven_mono h1
    rw [Rat.halfEven_intCast] at h2
    have h3 : (500000 : ℚ) ≤ Rat.halfEven (q * 10 ^ 8) := by exact_mod_cast h2
    rw [bis, le_div_iff₀ (by norm_num)]
    exact le_trans (by norm_num) h3
  rw [blockBaseFee] at h
  split at h
  · simp only [Except.bind_eq_ok] at h
    obtain ⟨loads, -, h⟩ := h
    rw [dynamicBaseFee] at h
    split at h
    · exact hq h (by norm_num)
    · simp only [Except.bind_eq_ok] at h
      obtain ⟨avg, havg, factor, hf, low, hlow, high, hhigh, y, hy, h⟩ := h
      -- the factor is cut at one half from below
      obtain ⟨p, z, hp, hle⟩ : ∃ p z, (if low = true then Number.ofRat (1 / 2)
          else if high = true then .ofRat 10 else factor) = .fin p z ∧ 1 / 2 ≤ p := by
        cases factor with
        | fin p z =>
          cases hlow
          split
          · exact ⟨_, _, rfl, le_rfl⟩
          · rename_i hlow
            split
            · exact ⟨_, _, rfl, by norm_num⟩
            · exact ⟨p, z, rfl, by simpa [Number.ofRat] using hlow⟩
        | inf =>
          cases hlow
          cases hhigh
          cases low with
          | true => exact ⟨_, _, rfl, le_rfl⟩
          | false => exact ⟨10, false, rfl, by norm_num⟩
        | nan | snan => cases hlow
      rw [hp] at hy
      simp only [mul, staticBaseFee, Number.ofRat] at hy
      obtain rfl := rounded_ok hy
      refine hq h ?_
      rw [← round_half_percent]
      exact context28.round_mono (by linarith)
  · cases h
    exact ⟨_, _, rfl, by norm_num⟩

theorem le_feeUnits (h : 1 / 200 ≤ base) (o op : Text) : 500000 ≤ feeUnits base o op := by
  have hfee : 1 / 200 ≤ context28.round (base + context28.round (o.length / 100000)) := by
    rw [← round_half_percent]
    refine context28.round_mono ?_
    have := context28.round_nonneg (by positivity : (0 : ℚ) ≤ (o.length : ℚ) / 100000)
    linarith
  have hval : 1 / 200 ≤ feeValue base o op := by
    simp only [feeValue]
    split
    · exact hfee
    · rw [← round_half_percent]
      have : (0 : ℚ) ≤ feeSurcharge o op := by positivity
      exact context28.round_mono (by linarith)
  have h1 : ((500000 : ℤ) : ℚ) ≤ feeValue base o op * 10 ^ 8 := by push_cast; linarith
  have := Rat.halfEven_mono h1
  rwa [Rat.halfEven_intCast] at this

theorem moneyText_of_fee (hfee : IsBis fee (u : Nat)) (hu : 100 ≤ u)
    (hs : moneyColumn mode (.float fee) (decimalText fee) = .ok s) : MoneyText mode s u := by
  have hlt : u < 10 ^ 28 := by simpa using (by exact_mod_cast hfee.1 : |(u : ℤ)| < 10 ^ 28)
  cases mode with
  | decimal =>
    cases hs
    obtain ⟨-, z, rfl⟩ := hfee
    refine ⟨hlt, .inl ⟨false, by simp, ?_⟩⟩
    have hpos : (0 : ℚ) < bis u := by
      have : (0 : ℚ) < u := by exact_mod_cast (by omega : 0 < u)
      simp only [bis, Int.cast_natCast]; positivity
    have hunits : (Rat.halfEven (|bis u| * 10 ^ 8)).natAbs = u := by
      rw [abs_of_pos hpos, bis_mul, Rat.halfEven_intCast, Int.natAbs_natCast]
    have hneg : isNeg (bis u) z = false := by simp [isNeg, hpos.not_gt, hpos.ne']
    simp only [decimalText, hunits, hneg, hu, if_true]
  | integer =>
    simp only [moneyColumn, Except.bind_eq_ok] at hs
    obtain ⟨k, hk, hs⟩ := hs
    cases hs
    obtain ⟨x, hx, hbx⟩ := hfee.quantize (ρ := Reject)
    have hq : (quantizeEight (.float fee) : Except Err Number) = .ok x := by
      have ht : (Val.float fee).truthy = true := by
        obtain ⟨-, z, rfl⟩ := hfee
        have : bis (u : ℤ) ≠ 0 := by rw [Ne, bis_eq_zero]; omega
        simp [Val.truthy, Number.isZero, this]
      rw [quantizeEight, if_pos ht, Val.toDecimal, Except.ok_bind, hx]
    rw [toUnits_of_quantize hq hbx] at hk
    cases hk
    exact ⟨hlt, intText_natCast u⟩

/-! ## The reward -/

def NotLarge (x : Number) : Prop := (∃ p z, x = .fin p z ∧ p ≤ 16) ∨ x = .inf true

theorem notLarge_toDouble (h : q ≤ 16) (z : Bool) : NotLarge (toDouble q z) := by
  simp only [toDouble]
  split
  · rename_i hlog
    have : q < 0 := by
      by_contra hq
      refine absurd hlog (not_le.2 (log_round_lt ?_))
      rw [abs_of_nonneg (not_lt.1 hq)]
      exact h.trans_lt (by norm_num)
    exact .inr (by rw [decide_eq_true this])
  · refine .inl ⟨_, _, rfl, ?_⟩
    have h16 := binary64.round_eq_self (m := 16) (k := 0) (by decide) (by decide)
    have := binary64.round_mono h
    norm_num at h16
    rwa [h16] at this

theorem NotLarge.floatSub (hx : NotLarge x) (hq : 0 ≤ q) (z : Bool) :
    NotLarge (floatSub x (.fin q z)) := by
  obtain ⟨p, z', rfl, hp⟩ | rfl := hx
  · exact notLarge_toDouble (by linarith) _
  · exact .inr rfl

theorem NotLarge.floatSub_toDouble (hx : NotLarge x) (hq : 0 ≤ q) (z : Bool) :
    NotLarge (Py.floatSub x (toDouble q z)) := by
  have hround := binary64.round_nonneg hq
  simp only [toDouble]
  split
  · rw [decide_eq_false (not_lt.2 hq)]
    obtain ⟨p, z', rfl, -⟩ | rfl := hx
    · exact .inr rfl
    · exact .inr rfl
  · exact hx.floatSub hround _

theorem calculateMiningReward_ok (h : calculateMiningReward cfg n = .ok x) :
    ∃ q z, x = .fin q z ∧ 1 / 2 ≤ q := by
  simp only [calculateMiningReward, Except.bind_eq_ok] at h
  obtain ⟨r, hr, low, hlow, h⟩ := h
  cases h
  split
  · exact ⟨_, _, rfl, le_rfl⟩
  · rename_i hge
    -- a float below all numbers is below one half
    have hfloat : ∀ {fork : Nat}, fork ≤ n.lastBlock →
        floatSub (floatSub (.ofRat 15) (toDouble ((n.height - fork : ℚ) / 1100000) false))
          (.ofRat (19 / 2)) = r → ∃ q z, r = .fin q z := by
      intro fork hle hr
      have hq : (0 : ℚ) ≤ (n.height - fork : ℚ) / 1100000 := by
        have : (fork : ℚ) ≤ n.height := by exact_mod_cast hle.trans (Nat.le_succ _)
        exact div_nonneg (by linarith) (by norm_num)
      have h15 : NotLarge (.ofRat 15) := .inl ⟨15, false, rfl, by norm_num⟩
      have hnot : NotLarge r := hr ▸ (h15.floatSub_toDouble hq _).floatSub (by norm_num) _
      obtain ⟨p, z, rfl, -⟩ | rfl := hnot
      · exact ⟨p, z, rfl⟩
      · cases hlow
        exact absurd rfl hge
    obtain ⟨q, z, rfl⟩ : ∃ q z, r = .fin q z := by
      split at hr
      · exact hfloat (And.right ‹_›) (Except.ok.inj hr)
      split at hr
      · exact hfloat (And.right ‹_›) (Except.ok.inj hr)
      · simp only [Except.bind_eq_ok] at hr
        obtain ⟨height, hh, scale, hs, quot, hd, diff, hsub, hr⟩ := hr
        obtain ⟨rfl, -⟩ := quantize_fin_ok hh
        obtain ⟨rfl, -⟩ := quantize_fin_ok hs
        simp only [div] at hd
        split at hd
        · cases hd
        · obtain rfl := rounded_ok hd
          obtain rfl := rounded_ok hsub
          obtain rfl := rounded_ok hr
          exact ⟨_, _, rfl⟩
    cases hlow
    exact ⟨q, z, rfl, by simpa [Number.ofRat] using hge⟩

/-- The sum of the fees of a block is exact, or it is beyond what a column can hold. -/
theorem sum_fees_ok (hfees : List.Forall₂ IsBis fees us) (hus : ∀ u ∈ us, 0 ≤ u) (h0 : 0 ≤ a)
    (h : (fees.foldlM add (.ofRat (bis a)) : Except (Exc ρ) Number) = .ok y) (ha : a < 10 ^ 28) :
    (y = .ofRat (bis (a + us.sum)) ∧ a + us.sum < 10 ^ 28) ∨ ∃ q, y = .ofRat q ∧ 10 ^ 20 ≤ q := by
  have hlarge : ∀ {q : ℚ}, (10 : ℚ) ^ 20 ≤ q → (10 : ℚ) ^ 20 ≤ context28.round q := fun {q} hq => by
    have := context28.zpow_le_round (x := q) (k := 20) (by exact_mod_cast hq) (by decide)
    exact_mod_cast this
  have hstay : ∀ {fees : List Number} {us : List ℤ} {q : ℚ}, List.Forall₂ IsBis fees us →
      (∀ u ∈ us, 0 ≤ u) → 10 ^ 20 ≤ q → (fees.foldlM add (.ofRat q) : Except (Exc ρ) Number) = .ok y →
      ∃ q, y = .ofRat q ∧ 10 ^ 20 ≤ q := by
    intro fees us q hfees hus hq h
    induction hfees generalizing q with
    | nil => cases h; exact ⟨q, rfl, hq⟩
    | @cons f u fees us hf _ ih =>
      obtain ⟨-, z, rfl⟩ := hf
      simp only [List.foldlM_cons, Except.bind_eq_ok] at h
      obtain ⟨x, hx, h⟩ := h
      obtain rfl := rounded_ok hx
      refine ih (fun u hu => hus u (by simp [hu])) (hlarge ?_) h
      have : (0 : ℚ) ≤ bis u := by
        have : (0 : ℚ) ≤ u := by exact_mod_cast hus u (by simp)
        simp only [bis]; positivity
      linarith
  induction hfees generalizing a with
  | nil => cases h; exact .inl ⟨by simp, by simpa using ha⟩
  | @cons f u fees us hf hfs ih =>
    obtain ⟨hu, z, rfl⟩ := hf
    simp only [List.foldlM_cons, Except.bind_eq_ok] at h
    obtain ⟨x, hx, h⟩ := h
    have hu0 := hus u (by simp)
    have hus' : ∀ u ∈ us, 0 ≤ u := fun u hu => hus u (by simp [hu])
    simp only [add, Number.ofRat, ← bis_add] at hx
    by_cases hlt : a + u < 10 ^ 28
    · rw [rounded_bis (by rw [abs_of_nonneg (by omega)]; exact hlt)] at hx
      cases hx
      rw [List.sum_cons, ← add_assoc]
      exact ih hus' (by omega) h hlt
    · obtain rfl := rounded_ok hx
      refine .inr (hstay hfs hus' (hlarge ?_) h)
      have : (10 : ℚ) ^ 28 ≤ ((a + u : ℤ) : ℚ) := by exact_mod_cast not_lt.1 hlt
      rw [bis, le_div_iff₀ (by norm_num)]
      exact le_trans (by norm_num) this

/-- The reward column is the mining reward and the fees, rounded to the context and then to units. -/
theorem rewardText_ok (hq : 0 ≤ q) (hfees : List.Forall₂ IsBis fees us) (hus : ∀ u ∈ us, 0 ≤ u)
    (h : rewardText (.fin q z) fees = .ok t) :
    ∃ u : Nat, t = fixedText false 8 u ∧ (u < 10 ^ 28 → us.sum < 10 ^ 28 ∧
      (u : ℤ) = Rat.halfEven (context28.round (q + bis us.sum) * 10 ^ 8)) := by
  simp only [rewardText, Except.bind_eq_ok] at h
  obtain ⟨y, hy, x, hx, h⟩ := h
  cases h
  have hsum := sum_fees_ok hfees hus le_rfl (y := y) (by simpa [bis] using hy) (by norm_num)
  -- the text of a number that is not negative
  have htext : ∀ {p : ℚ}, 0 ≤ p → formatFixed 8 (.ofRat p) =
      fixedText false 8 (Rat.halfEven (p * 10 ^ 8)).natAbs := fun {p} hp => by
    simp [formatFixed, Number.ofRat, isNeg, not_lt.2 hp, abs_of_nonneg hp]
  have hnat : ∀ {p : ℚ}, 0 ≤ p → ((Rat.halfEven (p * 10 ^ 8)).natAbs : ℤ) =
      Rat.halfEven (p * 10 ^ 8) := fun {p} hp => by
    have := Rat.halfEven_mono (by positivity : (0 : ℚ) ≤ p * 10 ^ 8)
    have h0 : Rat.halfEven 0 = 0 := Rat.halfEven_zero
    rw [h0] at this
    exact Int.natAbs_of_nonneg this
  obtain ⟨rfl, hlt⟩ | ⟨p, rfl, hp⟩ := hsum
  · rw [zero_add] at hlt hx
    obtain rfl := rounded_ok hx
    have hnn : 0 ≤ context28.round (q + bis us.sum) := by
      refine context28.round_nonneg (add_nonneg hq ?_)
      have : (0 : ℚ) ≤ us.sum := by exact_mod_cast List.sum_nonneg hus
      simp only [bis]; positivity
    exact ⟨_, htext hnn, fun _ => ⟨hlt, hnat hnn⟩⟩
  · obtain rfl := rounded_ok hx
    have hlarge : (10 : ℚ) ^ 20 ≤ context28.round (q + p) := by
      have := context28.zpow_le_round (x := q + p) (k := 20) (by
        have : (10 : ℚ) ^ 20 ≤ q + p := by linarith
        exact_mod_cast this) (by decide)
      exact_mod_cast this
    have hnn : 0 ≤ context28.round (q + p) := le_trans (by norm_num) hlarge
    refine ⟨_, htext hnn, fun hlt => absurd hlt (not_lt.2 ?_)⟩
    have h1 : ((10 ^ 28 : ℤ) : ℚ) ≤ context28.round (q + p) * 10 ^ 8 := by push_cast; linarith
    have h2 := Rat.halfEven_mono h1
    rw [Rat.halfEven_intCast] at h2
    have := hnat hnn
    omega

end Bismuth
