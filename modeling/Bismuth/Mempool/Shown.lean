import Bismuth.Mempool.Afford
import Bismuth.Mempool.Gossip

/-!
# The balance that is shown

`balances.py`: `balanceget` folds the pending transactions of an address a second time, with the static base fee
where `merge` takes the one of the node.
-/

namespace Bismuth
open Py

section Balanceget
variable {π : Type}

/-- The pending debit of `balanceget`: the sum is rounded to eight decimals at every transaction. -/
def Mempool.shownDebit (m : Mempool) (address : Text) (now : ℚ) : Except Err Number :=
  (m.pending address now).foldlM (fun d r => do
    let spent ← decimal r.fields.amount
    let fee ← feeCalculate r.fields.openfield r.fields.operation staticBaseFee
    quantizeEightNum (← add (← add d spent) fee)) (.ofRat 0)

/-- `_dec`. -/
def shownUnits (u : Int) : Except Err Number := if u = 0 then .ok (.ofRat 0) else toDecimal u

/-- `str(_dec(u))`: zero has no decimals. -/
def shownText (u : Int) : Except Err Text := if u = 0 then .ok ['0'] else do return decimalText (← toDecimal u)

/-- What `balanceget` returns. -/
structure ShownBalance where
  balance : Text
  credit : Text
  debit : Text
  fees : Text
  rewards : Text
  balanceNoMempool : Text
  deriving DecidableEq

def balanceget (n : Node π) (m : Mempool) (address : Text) (now : ℚ) : Except Err ShownBalance := do
  let debitMempool ← m.shownDebit address now
  let (creditU, rewardsU, debitU, feesU) ← n.store.balanceParts address
  let creditLedger ← shownUnits creditU
  let debitLedger ← shownUnits debitU
  let fees ← shownUnits feesU
  let rewards ← shownUnits rewardsU
  let debit ← quantizeEightNum (← add debitLedger debitMempool)
  let balance ← quantizeEightNum (← add (← sub (← sub creditLedger debit) fees) rewards)
  return {
    balance := decimalText balance
    credit := ← shownText creditU
    debit := decimalText debit
    fees := ← shownText feesU
    rewards := ← shownText rewardsU
    balanceNoMempool := reprFloat (floatAdd (floatSub (floatSub (← creditLedger.toFloat) (← debitLedger.toFloat))
      (← fees.toFloat)) (← rewards.toFloat)) }

end Balanceget

/-! ## The two debits -/

theorem Priced.units {base : ℚ} {z : Bool} {t : TxTuple} {u : ℤ} (h : Priced (.fin base z) t u) {x : Number} {ua : ℤ}
    (hx : quantizeEight (.str t.amount) = (.ok x : Except Err Number)) (hua : IsBis x ua) :
    u = ua + feeUnits base t.openfield t.operation := by
  obtain ⟨amount, fee, ua', uf, hamount, hua', -, hfee, huf, -, rfl⟩ := h
  obtain rfl := Except.ok.inj (hx.symm.trans hamount)
  rw [hua.unique hua', (feeCalculate_ok hfee).unique huf]

theorem feeUnits_base_mono {base base' : ℚ} (h : base ≤ base') (openfield operation : Text) :
    feeUnits base openfield operation ≤ feeUnits base' openfield operation := by
  have hfee : context28.round (base + context28.round (openfield.length / 100000)) ≤
      context28.round (base' + context28.round (openfield.length / 100000)) :=
    context28.round_mono (add_le_add_left h _)
  refine Rat.halfEven_mono (mul_le_mul_of_nonneg_right ?_ (by norm_num))
  rw [feeValue, feeValue]
  split
  · exact hfee
  · exact context28.round_mono (add_le_add_left hfee _)

def InUnits (t : TxTuple) : Prop := ∃ x u, decimal t.amount = (.ok x : Except Err Number) ∧ IsBis x u

theorem InUnits.quantizeEight {t : TxTuple} {x : Number} {u : ℤ}
    (hx : decimal t.amount = (.ok x : Except Err Number)) (hu : IsBis x u) :
    ∃ y, quantizeEight (.str t.amount) = (.ok y : Except Err Number) ∧ IsBis y u := by
  have hne : t.amount ≠ [] := by
    intro hnil
    rw [hnil] at hx
    cases hx
  have htruthy : (Val.str t.amount).truthy = true := decide_eq_true hne
  rw [Bismuth.quantizeEight, if_pos htruthy, Val.toDecimal, hx, Except.ok_bind]
  exact hu.quantize

/-- What `merge` admits has such an amount. -/
theorem judge_inUnits {π : Type} {P : Prims} {cfg : Config π} {mandatory : Text → Bool} {n : Node π} {m : Mempool}
    {bypass : Bool} {size : Number} {timeNow now : ℚ} {tx : RawTx} {t : TxTuple}
    (h : judge P cfg mandatory n m bypass size timeNow now tx = .ok (.admitted t)) : InUnits t := by
  obtain ⟨t', hnorm, -, -, -, hafford⟩ := judge_admitted h
  obtain ⟨rfl, x, hx, hne⟩ : t = t' ∧ ∃ x, Bismuth.quantizeEight (.str t'.amount) = (.ok x : Except Err Number) ∧
      x ≠ .nan := by
    simp only [afford, Except.bind_eq_ok] at hafford
    obtain ⟨_, -, _, -, x, hx, _, -, _, -, _, -, owned, -, _, -, b, hb, h⟩ := hafford
    split at h
    · cases h
    obtain ⟨_, -, _, -, h⟩ := by simpa only [Except.bind_eq_ok] using h
    split at h <;> cases h
    refine ⟨rfl, x, hx, ?_⟩
    rintro rfl
    cases owned <;> cases hb
  simp only [normalise, Except.bind_eq_ok, orRefuse_eq_ok, check_eq_ok] at hnorm
  obtain ⟨_, -, _, -, _, -, _, -, s, hs, _, -, _, -, _, -, _, -, _, -, _, -, _, -, _, -, _, -, hnorm⟩ := hnorm
  cases hnorm
  obtain ⟨y, hy, hs⟩ := Except.bind_eq_ok.1 hs
  obtain rfl | ⟨w, hw, z, rfl⟩ := quantizeEight_ok hy
  · cases hs
    exact absurd (Except.ok.inj hx).symm hne
  · rw [percentFixed_fin (abs_bis_lt hw)] at hs
    cases hs
    obtain hnan | ⟨u, hu⟩ := quantizeEight_ok hx
    · exact absurd hnan hne
    obtain ⟨hlt, -⟩ := toUnits_fixedText (toUnits_of_quantize hx hu)
    exact ⟨_, _, decimal_fixedText _ (by decide) (by decide) (hlt.trans (by norm_num)), isBis_fixedVal _ hlt⟩

theorem quantizeEightNum_bis {u : ℤ} (h0 : 0 ≤ u) (h : u < 10 ^ 28) :
    quantizeEightNum (.ofRat (bis u)) = .ok (.ofRat (bis u)) := by
  have hbis : 0 ≤ bis u := by
    have : (0 : ℚ) ≤ u := by exact_mod_cast h0
    rw [bis]
    positivity
  rw [quantizeEightNum]
  split
  · rename_i hzero
    have hzero : bis u = 0 := of_decide_eq_true hzero
    rw [hzero]
  · have hbig : ¬(10 : ℤ) ^ 28 ≤ |u| := by rw [abs_of_nonneg h0]; exact h.not_ge
    have hneg : isNeg (bis u) false = false := by simp [isNeg, hbis.not_gt]
    simp only [Number.ofRat, quantize, bis_mul, Rat.halfEven_intCast, if_neg hbig, hneg]
    rfl

theorem shownDebit_ok {rs : List PoolTx} {vs : List ℤ} {a : ℤ}
    (h : List.Forall₂ (fun r => Priced staticBaseFee r.fields) rs vs) (hin : ∀ r ∈ rs, InUnits r.fields) (ha : 0 ≤ a)
    (hsum : a + vs.sum < 10 ^ 28) :
    rs.foldlM (fun d r => do
      let spent ← decimal r.fields.amount
      let fee ← feeCalculate r.fields.openfield r.fields.operation staticBaseFee
      quantizeEightNum (← add (← add d spent) fee)) (.ofRat (bis a)) =
      (.ok (.ofRat (bis (a + vs.sum))) : Except Err Number) := by
  induction h generalizing a with
  | nil => simp
  | @cons r v rs vs hr hrs ih =>
    have hv := hr.nonneg
    have hvs := sum_nonneg_of_priced hrs
    rw [List.sum_cons] at hsum ⊢
    obtain ⟨x, ua, hx, hua⟩ := hin r (by simp)
    obtain ⟨y, hy, hyu⟩ := InUnits.quantizeEight hx hua
    obtain ⟨amount, fee, ua', uf, hamount, hua', hua0, hfee, huf, huf0, rfl⟩ := hr
    obtain rfl := Except.ok.inj (hy.symm.trans hamount)
    obtain rfl := hyu.unique hua'
    obtain ⟨-, zx, rfl⟩ := hua
    obtain ⟨-, zf, rfl⟩ := huf
    have hspent : add (.ofRat (bis a)) (.fin (bis ua) zx) = (.ok (.ofRat (bis (a + ua))) : Except Err Number) := by
      rw [Number.ofRat, add, ← bis_add, rounded_bis (by rw [abs_of_nonneg (by omega)]; omega)]
    have hall : add (.ofRat (bis (a + ua))) (.fin (bis uf) zf) =
        (.ok (.ofRat (bis (a + ua + uf))) : Except Err Number) := by
      rw [Number.ofRat, add, ← bis_add, rounded_bis (by rw [abs_of_nonneg (by omega)]; omega)]
    rw [List.foldlM_cons, hx, Except.ok_bind, hfee, Except.ok_bind, hspent, Except.ok_bind, hall, Except.ok_bind,
      quantizeEightNum_bis (by omega) (by omega), Except.ok_bind,
      ih (fun r hr => hin r (by simp [hr])) (by omega) (by omega), ← add_assoc, ← add_assoc]

/-- The cheaper base fee gives the smaller sum, and the same one only when it charges every transaction the same. -/
theorem sum_eq_iff {base base' : ℚ} {z z' : Bool} (hle : base ≤ base') {rs : List PoolTx} {us vs : List ℤ}
    (hus : List.Forall₂ (fun r => Priced (.fin base z) r.fields) rs us)
    (hvs : List.Forall₂ (fun r => Priced (.fin base' z') r.fields) rs vs) :
    us.sum ≤ vs.sum ∧ (us.sum = vs.sum ↔ ∀ r ∈ rs, feeUnits base r.fields.openfield r.fields.operation =
      feeUnits base' r.fields.openfield r.fields.operation) := by
  induction hus generalizing vs with
  | nil =>
    cases hvs
    simp
  | @cons r u rs us hu _ ih =>
    cases hvs with
    | @cons _ v _ vs hv hvs =>
      obtain ⟨hle', hiff⟩ := ih hvs
      have hfee := feeUnits_base_mono hle r.fields.openfield r.fields.operation
      obtain ⟨amount, fee, ua, uf, hamount, hua, -⟩ := id hu
      have hu := hu.units hamount hua
      have hv := hv.units hamount hua
      rw [List.sum_cons, List.sum_cons, List.forall_mem_cons, ← hiff]
      refine ⟨by omega, fun heq => ⟨by omega, by omega⟩, fun ⟨h, h'⟩ => by omega⟩

variable {π : Type}

/-- **The balance that is shown.** Where the pending amounts are numbers of units and the sums are in reach, the debit
of `balanceget` is the debit of `merge` exactly when the base fee of the node charges every pending transaction of the
address what the static one charges. -/
theorem shownDebit_eq_iff {n : Node π} {m : Mempool} {address : Text} {now base : ℚ} {z : Bool}
    (hbase : n.baseFee = .fin base z) (hin : ∀ r ∈ m.pending address now, InUnits r.fields) {us vs : List ℤ}
    (hus : List.Forall₂ (fun r => Priced n.baseFee r.fields) (m.pending address now) us) (hus28 : us.sum < 10 ^ 28)
    (hvs : List.Forall₂ (fun r => Priced staticBaseFee r.fields) (m.pending address now) vs) (hvs28 : vs.sum < 10 ^ 28) :
    m.shownDebit address now = m.debit n.baseFee address now ↔
      ∀ r ∈ m.pending address now, feeUnits base r.fields.openfield r.fields.operation =
        feeUnits (1 / 100) r.fields.openfield r.fields.operation := by
  have hzero : (.ofRat 0 : Number) = .ofRat (bis 0) := by simp [bis]
  have hshown : m.shownDebit address now = .ok (.ofRat (bis vs.sum)) := by
    rw [Mempool.shownDebit, hzero, shownDebit_ok hvs hin le_rfl (by omega), zero_add]
  have hdebit : m.debit n.baseFee address now = .ok (.ofRat (bis us.sum)) := by
    rw [Mempool.debit, hzero, debit_ok hus le_rfl (by omega), zero_add]
  have hsums : m.shownDebit address now = m.debit n.baseFee address now ↔ us.sum = vs.sum := by
    rw [hshown, hdebit]
    constructor
    · intro h
      have h := (Number.fin.inj (Except.ok.inj h)).1
      rw [bis, bis, div_left_inj' (by norm_num)] at h
      exact_mod_cast h.symm
    · intro h
      rw [h]
  rw [hsums]
  rw [hbase] at hus
  rcases le_total base (1 / 100) with hle | hle
  · exact (sum_eq_iff hle hus hvs).2
  · rw [eq_comm, (sum_eq_iff hle hvs hus).2]
    exact forall₂_congr fun r hr => eq_comm

section Sample

private def onePending : Mempool where
  txs := ⟨[("AAAA".toList, {
    fields := {
      timestamp := "1700000100.00".toList, address := genesisAddress, recipient := genesisAddress
      amount := "0.60000000".toList, signature := "AAAA".toList, publicKey := [], operation := [], openfield := [] }
    merged := 1700000100 })], by simp⟩

theorem shownDebit_eq_iff_sample :
    (onePending.pending genesisAddress 1700000100).length = 1 ∧
      (onePending.shownDebit genesisAddress 1700000100 =
          onePending.debit Gossip.genesisNode.baseFee genesisAddress 1700000100 ↔
        ∀ r ∈ onePending.pending genesisAddress 1700000100,
          feeUnits (1 / 100) r.fields.openfield r.fields.operation =
            feeUnits (1 / 100) r.fields.openfield r.fields.operation) := by
  have hpending : onePending.pending genesisAddress 1700000100 = onePending.txs.values := by decide +kernel
  have hprice : Priced staticBaseFee (onePending.txs.values.head (by decide)).fields 61000000 :=
    ⟨.fin (bis 60000000) false, .fin (bis 1000000) false, 60000000, 1000000, by decide +kernel, ⟨by decide, false, rfl⟩,
      by decide, by decide +kernel, ⟨by decide, false, rfl⟩, by decide, by decide⟩
  have hprices : List.Forall₂ (fun r => Priced staticBaseFee r.fields)
      (onePending.pending genesisAddress 1700000100) [61000000] := by
    rw [hpending]
    exact .cons hprice .nil
  refine ⟨by rw [hpending]; rfl, shownDebit_eq_iff rfl (fun r hr => ?_) hprices (by decide) hprices (by decide)⟩
  rw [hpending] at hr
  obtain rfl := List.mem_singleton.1 hr
  exact ⟨.fin (bis 60000000) false, 60000000, by decide +kernel, by decide, false, rfl⟩

/-- After the fork, with a base fee of two cents, the debit that is shown is a cent short for every pending
transaction. -/
theorem shownDebit_differs :
    onePending.shownDebit genesisAddress 1700000100 = .ok (.ofRat (61 / 100)) ∧
      onePending.debit { Gossip.genesisNode with baseFee := .ofRat (1 / 50) }.baseFee genesisAddress 1700000100 =
        .ok (.ofRat (62 / 100)) := by
  decide +kernel

end Sample

end Bismuth
