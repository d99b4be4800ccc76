import Bismuth.Digest.Fees
import Bismuth.Mempool.Merge
import Bismuth.Py.Agree

/-!
# What an admission costs

A transaction is admitted when its sender's spendable balance covers it together with the sender's pending
transactions. The amounts are decimals with eight places below the bounds of the context, so the sums are exact and
can be told in units.
-/

namespace Bismuth
open Py

/-! ## Amounts are not negative -/

/-- An amount that `float` does not read as negative has no negative units. -/
theorem halfEven_nonneg_of_toDouble {q : ℚ} {z : Bool} (h : floatLt (toDouble q z) (.ofRat 0) = false) :
    0 ≤ Rat.halfEven (q * 10 ^ 8) := by
  rcases le_or_gt 0 q with hq | hq
  · exact Rat.halfEven_nonneg (by positivity)
  have hround : ¬binary64.round q < 0 := by
    intro hneg
    rw [toDouble] at h
    split at h
    · rw [decide_eq_true hq] at h
      cases h
    · have : floatLt (.fin (binary64.round q) (isNeg q z)) (.ofRat 0) = decide (binary64.round q < 0) := rfl
      rw [this, decide_eq_true hneg] at h
      cases h
  -- what rounds to zero is too small for a unit
  have hsmall : -q < (2 : ℚ) ^ (-30 : ℤ) := by
    by_contra hle
    have hle := binary64.zpow_le_round (x := -q) (k := -30) (not_lt.1 hle) (by decide)
    rw [binary64.round_neg] at hle
    have : (0 : ℚ) < ((binary64.base : ℕ) : ℚ) ^ (-30 : ℤ) := binary64.ulp_pos _
    exact hround (by linarith)
  have hzero : Rat.halfEven (q * 10 ^ 8) = 0 := by
    refine Rat.halfEven_eq_of_abs_lt ?_
    rw [Int.cast_zero, sub_zero, abs_mul, abs_of_neg hq]
    norm_num at hsmall ⊢
    linarith
  exact hzero.ge

variable {u : ℤ}

/-- An amount that is not negative for `float` has no negative units as a decimal. -/
theorem quantizeEight_nonneg {v : Val} {paid x : Number} (hpaid : v.toFloat = (.ok paid : Except Err Number))
    (hneg : floatLt paid (.ofRat 0) = false) (hx : quantizeEight v = (.ok x : Except Err Number)) (hu : IsBis x u) :
    0 ≤ u := by
  rw [quantizeEight] at hx
  split at hx
  swap
  · cases hx
    exact (IsBis.zero.unique hu).le
  obtain ⟨d, hd, hx⟩ := Except.bind_eq_ok.1 hx
  obtain ⟨hlt, z, rfl⟩ := hu
  cases d with
  | inf | nan | snan => cases hx
  | fin q zq =>
    obtain ⟨he, -⟩ := quantize_fin_ok hx
    have hu : u = Rat.halfEven (q * 10 ^ 8) := by
      have := (Number.fin.inj he).1
      rw [bis, div_left_inj' (by norm_num)] at this
      exact_mod_cast this
    rw [hu]
    cases v with
    | str s =>
      cases float_agree hpaid hd with
      | fin => exact halfEven_nonneg_of_toDouble hneg
    | int k =>
      cases hd
      refine halfEven_nonneg_of_toDouble (z := false) ?_
      simp only [Val.toFloat] at hpaid
      cases hk : toDouble (k : ℚ) false with
      | fin p zp =>
        rw [hk] at hpaid
        cases hpaid
        exact hneg
      | inf => rw [hk] at hpaid; cases hpaid
      | nan => rfl
      | snan => rfl
    | float y =>
      cases hd
      cases hpaid
      have hq : floatLt (.fin q zq) (.ofRat 0) = decide (q < 0) := rfl
      rw [hq, decide_eq_false_iff_not, not_lt] at hneg
      exact Rat.halfEven_nonneg (by positivity)

theorem quantizeEight_ok {v : Val} {x : Number} (h : quantizeEight v = (.ok x : Except Err Number)) :
    x = .nan ∨ ∃ u, IsBis x u := by
  rw [quantizeEight] at h
  split at h
  · obtain ⟨d, -, h⟩ := Except.bind_eq_ok.1 h
    exact quantize_ok h
  · cases h
    exact .inr ⟨0, .zero⟩

theorem poolAmount_nonneg {v : Val} {s : Text} {paid x : Number} (hs : poolAmount v = .ok s)
    (hpaid : v.toFloat = (.ok paid : Except Err Number)) (hneg : floatLt paid (.ofRat 0) = false)
    (hx : quantizeEight (.str s) = (.ok x : Except Err Number)) (hu : IsBis x u) : 0 ≤ u := by
  obtain ⟨y, hy, hs⟩ := Except.bind_eq_ok.1 hs
  obtain rfl | ⟨w, hw⟩ := quantizeEight_ok hy
  · cases hs
    obtain ⟨-, z, rfl⟩ := hu
    cases hx
  · have hw0 := quantizeEight_nonneg hpaid hneg hy hw
    obtain ⟨hlt, z, rfl⟩ := hw
    rw [percentFixed_fin (abs_bis_lt hlt)] at hs
    cases hs
    obtain ⟨-, rfl⟩ := toUnits_fixedText (toUnits_of_quantize hx hu)
    split
    · rename_i hminus
      -- the text has a minus sign only for zero
      obtain rfl : w = 0 := by
        by_contra hne
        have hpos : 0 < bis w := by
          have : (0 : ℚ) < w := by exact_mod_cast lt_of_le_of_ne hw0 (Ne.symm hne)
          rw [bis]
          positivity
        have hround := binary64.round_nonneg hpos.le
        simp [isNeg, hround.not_gt, hpos.not_gt, hpos.ne'] at hminus
      simp [bis]
    · exact Int.natCast_nonneg _

/-! ## Sums in units -/

/-- The decimal that the context makes of `u` units. -/
def NearBis (x : Number) (u : ℤ) : Prop := ∃ z, x = .fin (context28.round (bis u)) z

theorem round_bis (h : |u| < 10 ^ 28) : context28.round (bis u) = bis u := by
  have := rounded_ok (rounded_bis (ρ := Reject) h)
  exact (Number.fin.inj this).1.symm

theorem NearBis.isBis {x : Number} (h : NearBis x u) (hu : |u| < 10 ^ 28) : IsBis x u := by
  obtain ⟨z, rfl⟩ := h
  exact ⟨hu, z, by rw [round_bis hu]⟩

theorem IsBis.near {x : Number} (h : IsBis x u) : NearBis x u := by
  obtain ⟨hu, z, rfl⟩ := h
  exact ⟨z, by rw [round_bis hu]⟩

theorem IsBis.near_sub {x y r : Number} {u v : ℤ} (hx : IsBis x u) (hy : IsBis y v)
    (h : sub x y = (.ok r : Except Err Number)) : NearBis r (u - v) := by
  obtain ⟨-, z, rfl⟩ := hx
  obtain ⟨-, z', rfl⟩ := hy
  have hbis : bis u + -bis v = bis (u - v) := by rw [sub_eq_add_neg, bis_add, bis_neg]
  simp only [sub, Py.negate, Py.add, hbis] at h
  exact ⟨false, rounded_ok h⟩

/-- A result that is not below an amount has at least its units. -/
theorem NearBis.le_of_lt {x y : Number} {u v : ℤ} (hx : NearBis x u) (hy : IsBis y v) (hv : 0 ≤ v)
    (h : lt x y = (.ok false : Except Err Bool)) : v ≤ u := by
  obtain ⟨z, rfl⟩ := hx
  obtain ⟨hv', z', rfl⟩ := hy
  by_contra hlt
  have hle : u ≤ v - 1 := by omega
  have hsmall : |v - 1| < 10 ^ 28 := by
    rw [abs_of_nonneg hv] at hv'
    rw [abs_lt]
    constructor <;> linarith
  have hround : context28.round (bis u) < bis v := by
    calc context28.round (bis u) ≤ context28.round (bis (v - 1)) := by
          refine context28.round_mono ?_
          rcases hle.lt_or_eq with h | rfl
          · exact (bis_lt.2 h).le
          · exact le_rfl
      _ = bis (v - 1) := round_bis hsmall
      _ < bis v := bis_lt.2 (by omega)
  rw [lt, decide_eq_true hround] at h
  cases h

/-! ## The price of a transaction -/

/-- A transaction takes `u` units from its sender: its amount and its fee. -/
def Priced (baseFee : Number) (t : TxTuple) (u : ℤ) : Prop :=
  ∃ amount fee ua uf, quantizeEight (.str t.amount) = (.ok amount : Except Err Number) ∧ IsBis amount ua ∧ 0 ≤ ua ∧
    feeCalculate t.openfield t.operation baseFee = .ok fee ∧ IsBis fee uf ∧ 0 ≤ uf ∧ u = ua + uf

variable {baseFee : Number}

theorem Priced.nonneg {t : TxTuple} (h : Priced baseFee t u) : 0 ≤ u := by
  obtain ⟨-, -, ua, uf, -, -, ha, -, -, hf, rfl⟩ := h
  exact add_nonneg ha hf

theorem Priced.cost {t : TxTuple} (h : Priced baseFee t u) (hu : u < 10 ^ 28) :
    cost baseFee t = .ok (.ofRat (bis u)) := by
  obtain ⟨amount, fee, ua, uf, hamount, ⟨-, z, rfl⟩, ha, hfee, ⟨-, z', rfl⟩, hf, rfl⟩ := h
  rw [Bismuth.cost, hfee, Except.ok_bind, hamount, Except.ok_bind, add, ← bis_add,
    rounded_bis (by rwa [abs_of_nonneg (by omega)])]

theorem feeUnits_nonneg {base : ℚ} (h : 0 ≤ base) (openfield operation : Text) :
    0 ≤ feeUnits base openfield operation := by
  have hfee : 0 ≤ context28.round (base + context28.round (openfield.length / 100000)) :=
    context28.round_nonneg (add_nonneg h (context28.round_nonneg (by positivity)))
  refine Rat.halfEven_nonneg (mul_nonneg ?_ (by norm_num))
  rw [feeValue]
  split
  · exact hfee
  · exact context28.round_nonneg (add_nonneg hfee (by positivity))

theorem sum_nonneg_of_priced {rs : List PoolTx} {us : List ℤ}
    (h : List.Forall₂ (fun r => Priced baseFee r.fields) rs us) : 0 ≤ us.sum := by
  refine List.sum_nonneg fun u hu => ?_
  obtain ⟨r, -, hr⟩ := h.exists_left hu
  exact hr.nonneg

/-- The fees and amounts of pending transactions are summed exactly as long as the sum is in reach. -/
theorem debit_ok {rs : List PoolTx} {us : List ℤ} {a : ℤ}
    (h : List.Forall₂ (fun r => Priced baseFee r.fields) rs us) (ha : 0 ≤ a) (hsum : a + us.sum < 10 ^ 28) :
    rs.foldlM (fun d r => do add d (← cost baseFee r.fields)) (.ofRat (bis a)) =
      (.ok (.ofRat (bis (a + us.sum))) : Except Err Number) := by
  induction h generalizing a with
  | nil => simp
  | @cons r u rs us hr hrs ih =>
    have hu := hr.nonneg
    have hus := sum_nonneg_of_priced hrs
    rw [List.sum_cons] at hsum ⊢
    have hadd : add (.ofRat (bis a)) (.ofRat (bis u)) = (.ok (.ofRat (bis (a + u))) : Except Err Number) := by
      rw [Number.ofRat, Number.ofRat, add, ← bis_add, rounded_bis (by rw [abs_of_nonneg (by omega)]; omega)]
    rw [List.foldlM_cons, hr.cost (by omega), Except.ok_bind, hadd, Except.ok_bind, ih (by omega) (by omega), add_assoc]

/-! ## What the sender has -/

section Spendable
variable {π : Type} (P : Prims) (cfg : Config π) (n : Node π)

/-- What an address can spend: its balance without the rewards that are not mature. -/
def spendable (address : Text) : Except Err Number := do mature P cfg n address (← n.store.balance address)

/-- The transactions cost no more than their sender can spend. -/
def Covered (address : Text) (rs : List PoolTx) : Prop :=
  ∃ us x w, List.Forall₂ (fun r => Priced n.baseFee r.fields) rs us ∧ spendable P cfg n address = .ok x ∧ IsBis x w ∧
    us.sum ≤ w

/-- After the fork, no rewards that are not mature are negative. A ledger of accepted blocks has only such rewards. -/
def ImmatureNonneg : Prop :=
  postFork n.forkHeight (nextHeight n) → ∀ address u,
    n.store.rewardUnitsSince P cfg.mode address (nextHeight n - coinbaseMaturity cfg) = .ok u → 0 ≤ u

variable {P cfg n}

theorem Covered.sublist {address : Text} {rs rs' : List PoolTx} (h : Covered P cfg n address rs)
    (hsub : rs'.Sublist rs) : Covered P cfg n address rs' := by
  obtain ⟨us, x, w, hus, hx, hw, hle⟩ := h
  suffices hsum : ∃ us', List.Forall₂ (fun r => Priced n.baseFee r.fields) rs' us' ∧ us'.sum ≤ us.sum by
    obtain ⟨us', hus', hle'⟩ := hsum
    exact ⟨us', x, w, hus', hx, hw, hle'.trans hle⟩
  clear hle
  induction hsub generalizing us with
  | slnil => exact ⟨us, hus, le_rfl⟩
  | cons r _ ih =>
    cases hus with
    | cons hr hrs =>
      obtain ⟨us', hus', hle'⟩ := ih _ hrs
      refine ⟨us', hus', hle'.trans ?_⟩
      rw [List.sum_cons]
      exact le_add_of_nonneg_left hr.nonneg
  | cons_cons r _ ih =>
    cases hus with
    | cons hr hrs =>
      obtain ⟨us', hus', hle'⟩ := ih _ hrs
      exact ⟨_ :: us', .cons hr hus', by simpa using hle'⟩

theorem exists_immature (himm : ImmatureNonneg P cfg n) {address : Text} {x₀ y₀ : Number}
    (h : mature P cfg n address x₀ = .ok y₀) :
    ∃ ui : ℤ, 0 ≤ ui ∧ ∀ {x y : Number} {u : ℤ}, mature P cfg n address x = .ok y → IsBis x u → NearBis y (u - ui) := by
  rw [mature] at h
  split at h
  · rename_i hpost
    obtain ⟨ui, hui, h⟩ := Except.bind_eq_ok.1 h
    obtain ⟨d, hd, -⟩ := Except.bind_eq_ok.1 h
    refine ⟨ui, himm hpost address ui hui, fun hy hx => ?_⟩
    rw [mature, if_pos hpost, hui, Except.ok_bind, hd, Except.ok_bind] at hy
    exact hx.near_sub (.of_toDecimal hd) hy
  · rename_i hpre
    refine ⟨0, le_rfl, fun hy hx => ?_⟩
    rw [mature, if_neg hpre] at hy
    cases hy
    rw [sub_zero]
    exact hx.near

/-- **Admission.** The sender of an admitted transaction can spend what it takes together with the pending
transactions of the sender. -/
theorem afford_admitted (himm : ImmatureNonneg P cfg n) (hbase : ∃ base z, n.baseFee = .fin base z ∧ 0 ≤ base)
    {m : Mempool} {now : ℚ} {t t' : TxTuple}
    (hamount : ∀ x u, quantizeEight (.str t.amount) = (.ok x : Except Err Number) → IsBis x u → 0 ≤ u)
    (hpending : m.pending t.address now = [] ∨ Covered P cfg n t.address (m.pending t.address now))
    (h : afford P cfg n m now t = .ok (.admitted t')) :
    t' = t ∧ ∃ u us x w, Priced n.baseFee t u ∧
      List.Forall₂ (fun r => Priced n.baseFee r.fields) (m.pending t.address now) us ∧
      spendable P cfg n t.address = .ok x ∧ IsBis x w ∧ us.sum + u ≤ w := by
  simp only [afford, Except.bind_eq_ok] at h
  obtain ⟨debit, hdebit, balance, hbalance, amount, ha, x₁, hx₁, x₂, hx₂, left, hleft, owned, howned, fee, hfee, b, hb,
    h⟩ := h
  split at h
  · cases h
  rename_i hb'
  rw [Bool.eq_false_iff.2 hb'] at hb
  obtain ⟨rest, hrest, c, hc, h⟩ := by simpa only [Except.bind_eq_ok] using h
  split at h
  · cases h
  rename_i hc'
  rw [Bool.eq_false_iff.2 hc'] at hc
  cases h
  obtain ⟨base, z, hbase, hbase0⟩ := hbase
  obtain ⟨ub, -, hub⟩ := Except.bind_eq_ok.1 hbalance
  have hub : IsBis balance ub := .of_toDecimal hub
  have hspendable : spendable P cfg n t.address = .ok owned := by rw [spendable, hbalance, Except.ok_bind, howned]
  obtain ⟨ui, hui, hmature⟩ := exists_immature himm howned
  have hfee' : IsBis fee (feeUnits base t.openfield t.operation) := feeCalculate_ok (hbase ▸ hfee)
  have huf := feeUnits_nonneg hbase0 t.openfield t.operation
  generalize feeUnits base t.openfield t.operation = uf at hfee' huf
  obtain rfl | ⟨ua, hua⟩ := quantizeEight_ok ha
  · cases owned <;> cases hb
  have hua0 := hamount amount ua ha hua
  -- the amount is at most what the sender has, so that no difference below leaves the context
  have hwa : ua ≤ ub - ui := (hmature howned hub).le_of_lt hua hua0 hb
  have hub28 := (abs_lt.1 hub.1).2
  have howned' : IsBis owned (ub - ui) := (hmature howned hub).isBis (by rw [abs_lt]; constructor <;> linarith)
  obtain ⟨us, hus, hsum0, hsum⟩ : ∃ us, List.Forall₂ (fun r => Priced n.baseFee r.fields)
      (m.pending t.address now) us ∧ 0 ≤ us.sum ∧ us.sum ≤ ub - ui := by
    obtain hnil | ⟨us, x, w, hus, hx, hw, hle⟩ := hpending
    · rw [hnil]
      exact ⟨[], .nil, le_rfl, hua0.trans hwa⟩
    · rw [hspendable] at hx
      cases hx
      rw [hw.unique howned'] at hle
      exact ⟨us, hus, sum_nonneg_of_priced hus, hle⟩
  have hdebit' : IsBis debit us.sum := by
    have hzero : (.ofRat 0 : Number) = .ofRat (bis 0) := by simp [bis]
    have hok := debit_ok hus le_rfl (by rw [zero_add]; linarith)
    rw [Mempool.debit, hzero, hok, zero_add] at hdebit
    cases hdebit
    exact ⟨by rw [abs_of_nonneg hsum0]; linarith, false, rfl⟩
  have hx₁ : IsBis x₁ (ub - us.sum) := (hub.near_sub hdebit' hx₁).isBis (by rw [abs_lt]; constructor <;> linarith)
  have hx₂ : IsBis x₂ (ub - us.sum - ua) := (hx₁.near_sub hua hx₂).isBis (by rw [abs_lt]; constructor <;> linarith)
  have hleft : IsBis left (ub - us.sum - ua - ui) :=
    (hmature hleft hx₂).isBis (by rw [abs_lt]; constructor <;> linarith)
  have hrest := (hleft.near_sub hfee' hrest).le_of_lt .zero le_rfl hc
  exact ⟨rfl, ua + uf, us, owned, ub - ui, ⟨amount, fee, ua, uf, ha, hua, hua0, hfee, hfee', huf, rfl⟩, hus, hspendable,
    howned', by linarith⟩

/-- The sum that a merge would compute is not above what the sender can spend. -/
theorem Covered.not_lt {address : Text} {rs : List PoolTx} (h : Covered P cfg n address rs) {x c : Number}
    (hx : spendable P cfg n address = .ok x)
    (hc : rs.foldlM (fun d r => do add d (← cost n.baseFee r.fields)) (.ofRat 0) = (.ok c : Except Err Number)) :
    lt x c = (.ok false : Except Err Bool) := by
  obtain ⟨us, x', w, hus, hx', hw, hle⟩ := h
  obtain rfl := Except.ok.inj (hx'.symm.trans hx)
  have hw28 := (abs_lt.1 hw.1).2
  have hzero : (.ofRat 0 : Number) = .ofRat (bis 0) := by simp [bis]
  rw [hzero, debit_ok hus le_rfl (by linarith), zero_add] at hc
  cases hc
  have hsum : IsBis (.ofRat (bis us.sum)) us.sum :=
    ⟨by rw [abs_of_nonneg (sum_nonneg_of_priced hus)]; linarith, false, rfl⟩
  rw [hw.lt hsum, decide_eq_false hle.not_gt]

end Spendable

/-! ## One round of the loop -/

section Judge
variable {π : Type} {P : Prims} {cfg : Config π} {mandatory : Text → Bool} {n : Node π}

theorem normalise_amount {post : Bool} {timeNow : ℚ} {tx : RawTx} {t : TxTuple}
    (h : normalise P mandatory post timeNow tx = .ok t) {x : Number} {u : ℤ}
    (hx : quantizeEight (.str t.amount) = (.ok x : Except Err Number)) (hu : IsBis x u) : 0 ≤ u := by
  simp only [normalise, Except.bind_eq_ok, orRefuse_eq_ok, check_eq_ok, Bool.not_eq_true'] at h
  obtain ⟨_, -, _, -, _, -, _, -, s, hs, paid, hpaid, _, -, _, -, _, -, _, -, _, -, _, hneg, _, -, _, -, h⟩ := h
  cases h
  exact poolAmount_nonneg hs hpaid hneg hx hu

theorem judge_admitted {m : Mempool} {bypass : Bool} {size : Number} {timeNow now : ℚ} {tx : RawTx} {t : TxTuple}
    (h : judge P cfg mandatory n m bypass size timeNow now tx = .ok (.admitted t)) :
    ∃ t', normalise P mandatory (postFork n.forkHeight (nextHeight n)) timeNow tx = .ok t' ∧
      verifyTxSignature P (postFork n.forkHeight (nextHeight n)) t' n.store.pkrefGet false = .ok () ∧
      n.store.signatureRows P cfg.mode t'.signature (some (n.store.tip.getD 0 : Nat)) 1 = .ok [] ∧
      m.txs.get? t'.signature = none ∧ afford P cfg n m now t' = .ok (.admitted t) := by
  have hplace : ∃ t', normalise P mandatory (postFork n.forkHeight (nextHeight n)) timeNow tx = .ok t' ∧
      verifyTxSignature P (postFork n.forkHeight (nextHeight n)) t' n.store.pkrefGet false = .ok () ∧
      place P cfg n m now t' = .ok (.admitted t) := by
    rw [judge] at h
    split at h
    all_goals
      obtain ⟨space, -, h⟩ := Except.bind_eq_ok.1 h
      dsimp only at h
      split at h
      · cases h
      split at h
      · cases h
      rename_i t' ht'
      split at h
      · cases h
      rename_i hverify
      exact ⟨t', ht', hverify, h⟩
  obtain ⟨t', ht', hverify, h⟩ := hplace
  obtain ⟨rows, hrows, h⟩ := Except.bind_eq_ok.1 h
  cases rows with
  | cons r rows =>
    obtain ⟨stamp, -, h⟩ := Except.bind_eq_ok.1 h
    split at h <;> cases h
  | nil =>
    dsimp only [List.head?_nil] at h
    split at h
    · cases h
    rename_i hpool
    exact ⟨t', ht', hverify, hrows, by simpa using hpool, h⟩

end Judge

end Bismuth
