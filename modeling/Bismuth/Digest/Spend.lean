import Bismuth.Digest.Checkpoint
import Bismuth.Store.Scan

/-!
# What a block spends

The digester sums what a sender spends over the tuples of the block as they arrived, while the balances
follow the stored rows. Where the two agree, no sender spends more than it has.
-/

namespace Bismuth
open Py

variable {π : Type} {P : Prims} {cfg : Config π} {keys : Text → Prop}

/-! ## The totals of a sender -/

def RawTx.storedUnits (tx : RawTx) : Int :=
  match amountField tx.amount with
  | .ok s => match (toUnits (.str s) : Except Err Int) with
    | .ok u => u
    | .error _ => 0
  | .error _ => 0

/-- The sender fits its column, and the totals see the amount that is stored. -/
structure RawTx.Exact (tx : RawTx) : Prop where
  address : tx.address.length ≤ 56
  amount : ∃ x, tx.amount.toDecimal = (.ok x : Except Err Number) ∧ IsBis x tx.storedUnits

/-- What `a` sends by the tuples `block`. -/
def sentBy (a : Text) (block : List RawTx) : Int :=
  (block.map fun x => if x.address = a then x.storedUnits else 0).sum

/-- The fees of the tuples of `a`, from their fields as they arrived. -/
def feesBy (base : ℚ) (a : Text) (block : List RawTx) : Int :=
  (block.map fun x => if x.address = a then feeUnits base x.openfield x.operation else 0).sum

theorem sentBy_cons (a : Text) (x : RawTx) (block : List RawTx) : sentBy a (x :: block) =
    (if x.address = a then x.storedUnits else 0) + sentBy a block := by simp [sentBy]

theorem feesBy_cons (base : ℚ) (a : Text) (x : RawTx) (block : List RawTx) :
    feesBy base a (x :: block) =
      (if x.address = a then feeUnits base x.openfield x.operation else 0) + feesBy base a block := by
  simp [feesBy]

variable {n : Node π}

theorem addTotals_ok (hb : n.baseFee = .fin base z) (hx : x.Exact)
    (hlast : last.all fun y => !x.eq y) (hd : IsBis t.1 d) (hf : IsBis t.2 f)
    (h : addTotals n a last x t = .ok t') :
    IsBis t'.1 (d + if x.address = a then x.storedUnits else 0) ∧
      IsBis t'.2 (f + if x.address = a ∧ last.isSome then feeUnits base x.openfield x.operation
        else 0) := by
  rw [addTotals] at h
  split at h
  · rename_i ha
    obtain ⟨y, hy, hyb⟩ := hx.amount
    rw [hy, Except.ok_bind] at h
    obtain ⟨debit, hdebit, hfees⟩ := Except.bind_eq_ok.1 h
    have hdebit := hd.quantize_add hyb hdebit
    clear h
    cases last with
    | none =>
      cases hfees
      simpa [ha] using ⟨hdebit, hf⟩
    | some y =>
      rw [Option.all_some] at hlast
      rw [Option.any_some, hlast, if_pos rfl, hb] at hfees
      obtain ⟨fee, hfee, hsum⟩ := Except.bind_eq_ok.1 hfees
      obtain ⟨fees, hadd, heq⟩ := Except.bind_eq_ok.1 hsum
      cases heq
      simpa [ha] using ⟨hdebit, hf.quantize_add (feeCalculate_ok hfee) hadd⟩
  · rename_i ha
    cases h
    simp [ha, hd, hf]

/-- The totals of a block whose other tuples all differ from the last one. -/
theorem addressTotals_ok (hb : n.baseFee = .fin base z) {init : List RawTx}
    (hx : ∀ x ∈ init ++ [last], x.Exact) (hlast : ∀ x ∈ init, x.eq last = false)
    (hd : IsBis t.1 d) (hf : IsBis t.2 f) (h : addressTotals n a t (init ++ [last]) = .ok t') :
    IsBis t'.1 (d + sentBy a (init ++ [last])) ∧ IsBis t'.2 (f + feesBy base a init) := by
  induction init generalizing t d f with
  | nil =>
    have hone : addTotals n a none last t = .ok t' := h
    have := addTotals_ok hb (hx last (by simp)) (by simp) hd hf hone
    simpa [sentBy, feesBy] using this
  | cons x init ih =>
    obtain ⟨y, block, hyb⟩ : ∃ y block, init ++ [last] = y :: block :=
      List.exists_cons_of_ne_nil (by simp)
    have hgl : (y :: block).getLast? = some last := by rw [← hyb, List.getLast?_concat]
    rw [List.cons_append, hyb, addressTotals, hgl] at h
    obtain ⟨t₁, ht₁, h⟩ := Except.bind_eq_ok.1 h
    obtain ⟨hd₁, hf₁⟩ := addTotals_ok hb (hx x (by simp)) (by simp [hlast x (by simp)]) hd hf ht₁
    rw [← hyb] at h
    obtain ⟨hd₂, hf₂⟩ := ih (fun x hm => hx x (by simp_all)) (fun x hm => hlast x (by simp [hm]))
      hd₁ hf₁ h
    simp only [Option.isSome_some, and_true, add_assoc] at hd₂ hf₂
    rw [List.cons_append, sentBy_cons, feesBy_cons]
    exact ⟨hd₂, hf₂⟩

/-! ## The check against the balance -/

/-- The units that `immature_coinbase` takes off. -/
def immatureUnits (P : Prims) (cfg : Config π) (n : Node π) (address : Text) : Except Err Int :=
  if n.postFork then n.store.rewardUnitsSince P cfg.mode address (n.height - coinbaseMaturity cfg)
  else .ok 0

theorem immatureCoinbase_ok (h : immatureCoinbase P cfg n a = .ok x) :
    ∃ m, immatureUnits P cfg n a = .ok m ∧ IsBis x m := by
  rw [immatureCoinbase] at h
  rw [immatureUnits]
  split at h
  · obtain ⟨m, hm, h⟩ := Except.bind_eq_ok.1 h
    exact ⟨m, by rw [if_pos ‹_›, hm], .of_toDecimal h⟩
  · cases h
    exact ⟨0, by rw [if_neg ‹_›], .zero⟩

/-- A difference of units that is not below zero once it is rounded is not below zero. -/
theorem nonneg_of_sub (hx : IsBis x u) (hy : IsBis y v) (hs : sub x y = (.ok r : Except (Exc ρ) Number))
    (hlt : Py.lt r (.ofRat 0) = (.ok false : Except (Exc ρ) Bool)) : v ≤ u := by
  obtain ⟨-, z, rfl⟩ := hx
  obtain ⟨-, z', rfl⟩ := hy
  obtain rfl := rounded_ok hs
  have hle : 0 ≤ context28.round (bis u + -bis v) := by
    simpa [Py.lt, Number.ofRat] using hlt
  by_contra hlt
  have hneg : bis u + -bis v ≤ -(((10 : ℕ) : ℚ) ^ (-8 : ℤ)) := by
    have : (u : ℚ) + 1 ≤ v := by exact_mod_cast not_le.1 hlt
    rw [bis, bis]
    norm_num
    linarith
  have hround := context28.round_mono hneg
  have hunit := context28.zpow_le_round (x := ((10 : ℕ) : ℚ) ^ (-8 : ℤ)) (k := -8) le_rfl (by decide)
  rw [FloatFormat.round_neg] at hround
  have hpos : (0 : ℚ) < ((10 : ℕ) : ℚ) ^ (-8 : ℤ) := by positivity
  have hunit : ((10 : ℕ) : ℚ) ^ (-8 : ℤ) ≤ context28.round (((10 : ℕ) : ℚ) ^ (-8 : ℤ)) := hunit
  linarith

theorem validateBalance_ok (hs : cfg.Strict) (hd : IsBis debit d) (hf : IsBis fees f)
    (h : validateBalance P cfg n a debit fees = .ok u) :
    ∃ b m, n.store.balanceUnits a = .ok b ∧ immatureUnits P cfg n a = .ok m ∧ d + f ≤ b - m := by
  simp only [validateBalance, hs.untrusted, hs.noWaiver _ _ _, Bool.or_false, Store.balance,
    Except.bind_eq_ok, require_eq_ok, Bool.not_eq_true'] at h
  obtain ⟨bal, ⟨b, hb, hbal⟩, im, him, sp, ⟨sp', hsp', hsp⟩, left, ⟨left', hleft', hleft⟩, -, -, -, -, -,
    -, ql, hql, qf, hqf, rest, hrest, short, hshort, rfl⟩ := h
  obtain ⟨m, hm, hmb⟩ := immatureCoinbase_ok him
  have hspb := (IsBis.of_toDecimal hbal).quantize_sub hmb (Except.bind_eq_ok.2 ⟨sp', hsp', hsp⟩)
  have hleftb := hspb.quantize_sub hd (Except.bind_eq_ok.2 ⟨left', hleft', hleft⟩)
  have := nonneg_of_sub (hleftb.of_quantize hql) (hf.of_quantize hqf) hrest hshort
  exact ⟨b, m, hb, hm, by omega⟩

/-! ## The rows of a block -/

/-- What `a` spends by some rows, fees included. -/
def spentBy (mode : Mode) (a : Text) (rows : List Row) : Int :=
  (rows.map fun r => if r.address = a then unitsOf mode r.amount + unitsOf mode r.fee else 0).sum

theorem checkDuplicateSignatures_ok (hw : cfg.NoWaiver) (h : checkDuplicateSignatures P cfg n block = .ok u) :
    (block.map (·.signature)).Nodup ∧ ∃ txids,
      (block.zipIdx.mapM fun (tx, i) => checkEntry P cfg n tx (i + 1 = block.length)) = .ok txids ∧
      (n.postFork = true → (txids.filterMap id).Nodup) := by
  simp only [checkDuplicateSignatures, hw _ _ _, Bool.or_false, Except.bind_eq_ok, require_eq_ok,
    decide_eq_true_eq, Bool.or_eq_true, Bool.not_eq_true'] at h
  obtain ⟨txids, ht, _, hnodup, hids⟩ := h
  exact ⟨hnodup, txids, ht, fun hp => by simpa [hp] using hids⟩

theorem RawTx.signature_of_eq (h : RawTx.eq x y = true) : x.signature = y.signature := by
  simp only [RawTx.eq, Bool.and_eq_true, decide_eq_true_eq] at h
  exact h.1.1.1.2

theorem MoneyText.unitsOf (h : MoneyText mode s u) : unitsOf mode s = u := unitsOf_eq h.units

theorem RawTx.Valid.storedUnits_nonneg {tx : RawTx} {pf : Bool} (hv : tx.Valid pf f) :
    0 ≤ tx.storedUnits := by
  obtain ⟨-, ha, -⟩ := RawTx.fields_ok hv.fields
  rw [RawTx.storedUnits, ha]
  dsimp only
  split
  · rename_i u hu
    obtain hnan | ⟨neg, k, hneg, hamt⟩ := hv.amount
    · rw [hnan, toUnits_nan] at hu
      cases hu
    · rw [hamt] at hu
      obtain ⟨-, rfl⟩ := toUnits_fixedText hu
      cases neg with
      | false => simp
      | true => simp [hneg rfl]
  · exact le_rfl

theorem SpendOf.unitsOf_amount {c : RowContext π}
    (h : SpendOf P cfg c tx r blockFee f debit fees txFee) (hv : tx.Valid c.node.postFork f)
    (hr : units cfg.mode (.str r.amount) = (.ok k : Except Err Int)) :
    unitsOf cfg.mode r.amount = tx.storedUnits := by
  obtain ⟨-, ha, -⟩ := RawTx.fields_ok h.fields
  obtain ⟨neg, u, hneg, hfix, hu⟩ := hv.moneyText h.amount hr
  have hdec : MoneyText .decimal f.amount u := ⟨hu.1, .inl ⟨neg, hneg, hfix⟩⟩
  rw [hu.unitsOf, RawTx.storedUnits, ha]
  dsimp only
  rw [hdec.toUnits]

/-- The row spends what the totals count for the tuple, or less. -/
structure RawTx.Counts (mode : Mode) (base : ℚ) (tx : RawTx) (r : Row) : Prop where
  address : r.address = tx.address
  amount : unitsOf mode r.amount = tx.storedUnits
  fee : unitsOf mode r.fee ≤ feeUnits base tx.openfield tx.operation

theorem spentBy_le {txs : List RawTx} (h : List.Forall₂ (RawTx.Counts mode base) txs rows)
    (a : Text) : spentBy mode a rows ≤ sentBy a txs + feesBy base a txs := by
  induction h with
  | nil => simp [spentBy, sentBy, feesBy]
  | @cons tx r txs rows hr _ ih =>
    have := hr.fee
    rw [sentBy_cons, feesBy_cons, spentBy, List.map_cons, List.sum_cons, ← spentBy, hr.address,
      hr.amount]
    split <;> omega

namespace Acceptance
variable {n : Node π} {s : Submission} (a : Acceptance P cfg n s)

theorem eq_last (hs : cfg.Strict) (hx : x ∈ a.init) : x.eq a.last = false := by
  obtain ⟨-, -, hdup⟩ := checkTransactions_ok a.checked
  obtain ⟨hnodup, -⟩ := checkDuplicateSignatures_ok hs.noWaiver (hdup (hs.untrusted _))
  rw [a.block, List.map_append, List.nodup_append] at hnodup
  by_contra heq
  have := RawTx.signature_of_eq (by simpa using heq)
  exact hnodup.2.2 _ (List.mem_map_of_mem hx) _ (by simp) this

/-- Each spend is stored with its sender and its amount, and its fee is at most that of the tuple. -/
theorem forall₂_spends (hw : cfg.NoWaiver) (hb : a.node.baseFee = .fin base z) (hle : 1 / 200 ≤ base)
    (hx : ∀ x ∈ s.block, x.Exact) :
    List.Forall₂ (RawTx.Counts cfg.mode base) a.init (a.spends.map Prod.fst) := by
  rw [List.forall₂_map_right_iff]
  refine (Except.mapM_eq_ok.1 a.spends_eq).with_mem.imp ?_
  rintro tx ⟨r, blockFee⟩ ⟨htx, hp, hrow⟩
  obtain ⟨f, debit, fees, txFee, h⟩ := spendRow_ok hrow
  have hmem : tx ∈ s.block := by
    rw [a.block]
    simp [htx]
  obtain ⟨f', hv⟩ := a.valid hw hmem
  obtain rfl : f = f' := Except.ok.inj (h.fields.symm.trans hv.fields)
  obtain ⟨es, hes⟩ := a.exists_entries
  have hr : r ∈ a.rows := List.mem_append_left _ (List.mem_map_of_mem hp)
  obtain ⟨k, -, -, hk, -⟩ := units_of_indexEntries hes hr
  obtain ⟨u, hu, hfee, -⟩ := h.exists_units hb hle
  obtain ⟨-, -, hf⟩ := RawTx.fields_ok h.fields
  refine ⟨?_, h.unitsOf_amount hv hk, ?_⟩
  · rw [h.row]
    show f.address = tx.address
    rw [hf]
    exact List.take_of_length_le (hx tx hmem).address
  · rw [hfee.unitsOf, hu, hf]
    exact feeUnits_capped_le _ _ _ _

/-- What a sender spends by a block is covered by its balance without the immature rewards. -/
theorem covered (hs : cfg.Strict) (hx : ∀ x ∈ s.block, x.Exact) (hp : p ∈ a.spends) :
    ∃ b m, n.store.balanceUnits p.1.address = .ok b ∧
      immatureUnits P cfg a.node p.1.address = .ok m ∧
      spentBy cfg.mode p.1.address (a.spends.map Prod.fst) ≤ b - m := by
  obtain ⟨base, z, hb, hle⟩ := a.baseFee_fin
  obtain ⟨tx, htx, f, debit, fees, txFee, h⟩ := a.exists_spend hp
  have haddr : p.1.address = f.address := by rw [h.row]; rfl
  have htotals := h.totals
  rw [show a.context.block = a.init ++ [a.last] from a.block] at htotals
  obtain ⟨hd, hf⟩ := addressTotals_ok (n := a.context.node) hb (a.block ▸ hx)
    (fun x hx => a.eq_last hs hx) .zero .zero htotals
  obtain ⟨b, m, hbal, him, hsum⟩ := validateBalance_ok hs hd hf h.balance
  refine ⟨b, m, ?_, ?_, ?_⟩
  · rw [haddr, ← a.node_store]
    exact hbal
  · rw [haddr]
    exact him
  · have hle := spentBy_le (a.forall₂_spends hs.noWaiver hb hle hx) f.address
    have hlast : 0 ≤ sentBy f.address [a.last] := by
      obtain ⟨f', hv⟩ := a.valid hs.noWaiver (show a.last ∈ s.block by rw [a.block]; simp)
      have := hv.storedUnits_nonneg
      simp only [sentBy, List.map_cons, List.map_nil, List.sum_cons, List.sum_nil]
      split <;> omega
    have happ : sentBy f.address (a.init ++ [a.last]) = sentBy f.address a.init +
        sentBy f.address [a.last] := by simp [sentBy]
    rw [haddr]
    omega

end Acceptance

/-! ## Balances along a chain -/

def netUnits : Parts →+ Int where
  toFun p := p.1 + p.2.1 - p.2.2.1 - p.2.2.2
  map_zero' := rfl
  map_add' p q := by
    simp only [Prod.fst_add, Prod.snd_add]
    omega

def netFor (mode : Mode) (a : Text) (rows : List Row) : Int :=
  (rows.map fun r => netUnits (r.partsFor mode a)).sum

theorem netFor_append (mode : Mode) (a : Text) (rows rows' : List Row) :
    netFor mode a (rows ++ rows') = netFor mode a rows + netFor mode a rows' := by simp [netFor]

theorem balanceUnits_ok {st : Store} (h : st.balanceUnits a = .ok u) :
    ∃ p, st.balanceParts a = .ok p ∧ u = netUnits p := by
  rw [Store.balanceUnits] at h
  obtain ⟨p, hp, h⟩ := Except.bind_eq_ok.1 h
  exact ⟨p, hp, (Except.ok.inj h).symm⟩

theorem netUnits_partsFor (mode : Mode) (a : Text) (r : Row) : netUnits (r.partsFor mode a) =
    (if r.recipient = a then unitsOf mode r.amount + unitsOf mode r.reward else 0) -
      if r.address = a then unitsOf mode r.amount + unitsOf mode r.fee else 0 := by
  rw [Row.partsFor, map_add]
  split <;> split <;> simp [netUnits] <;> omega

theorem neg_spentBy_le {rows : List Row}
    (h : ∀ r ∈ rows, 0 ≤ unitsOf mode r.amount ∧ 0 ≤ unitsOf mode r.reward) (a : Text) :
    -spentBy mode a rows ≤ netFor mode a rows := by
  induction rows with
  | nil => simp [spentBy, netFor]
  | cons r rows ih =>
    obtain ⟨hamt, hrew⟩ := h r (by simp)
    have ih := ih fun r hr => h r (by simp [hr])
    rw [spentBy, netFor, List.map_cons, List.map_cons, List.sum_cons, List.sum_cons, ← spentBy,
      ← netFor, netUnits_partsFor]
    split <;> split <;> omega

theorem Row.Stored.units_nonneg (h : Row.Stored mode k bh r) :
    0 ≤ unitsOf mode r.amount ∧ 0 ≤ unitsOf mode r.reward := by
  obtain ⟨u, hu⟩ := h.amount
  obtain ⟨v, hv⟩ := h.reward
  rw [hu.unitsOf, hv.unitsOf]
  omega

namespace Chained
variable {n : Node π} {chain : List LiveBlock}

/-- The balance of an address is what the rows of the chain give it and its allocation. -/
theorem balanceUnits (H : Chained P cfg keys n chain) (ha : StoredAddress a) :
    n.store.balanceUnits a = .ok (netFor cfg.mode a (chain.flatMap (·.rows)) +
      (cfg.allocations.get? a).getD 0) := by
  have hparts := H.good.exact.parts a ha
  rw [Store.balanceUnits]
  refine Except.bind_eq_ok.2 ⟨_, hparts, ?_⟩
  rw [show n.store.allocations = cfg.allocations from H.allocations]
  refine congrArg Except.ok ?_
  show netUnits (_ + _) = _
  rw [map_add, map_list_sum, List.map_map]
  congr 1
  simp [netUnits]

theorem balanceUnits_long (H : Chained P cfg keys n chain) (ha : 56 < a.length)
    (h : n.store.balanceUnits a = .ok u) : u = 0 := by
  obtain ⟨p, hp, rfl⟩ := balanceUnits_ok h
  obtain ⟨read, -, hi⟩ := H.good
  have hne : ∀ {b}, StoredAddress b → abytes b ≠ abytes a := by
    intro b hb heq
    obtain rfl := abytes_inj hb.2 heq
    exact absurd hb.2 (by omega)
  have hzero : partsAt n.store.bal (abytes a) = 0 := by
    rw [hi.bal, allocAcc_total_zero, chainTotal, List.sum_eq_zero, add_zero]
    · intro p hp
      obtain ⟨b, hb, rfl⟩ := List.mem_map.1 hp
      exact tally_of_forall_ne fun e he => hne ((hi.ok b hb).storedAddress he).1
    · intro e he
      exact hne (hi.alloc (OrdTable.mem_entries.1 he)).1
  rw [Store.balanceParts] at hp
  split at hp
  · cases hp
  · cases hp
    rw [← partsAt, hzero, map_zero]

end Chained

/-! ## No overspend -/

def ExactBlock (_ : Node π) (s : Submission) : Prop := ∀ tx ∈ s.block, tx.Exact

theorem spentBy_eq_zero {rows : List Row} (h : ∀ r ∈ rows, r.address ≠ a) : spentBy mode a rows = 0 := by
  refine List.sum_eq_zero fun x hx => ?_
  obtain ⟨r, hr, rfl⟩ := List.mem_map.1 hx
  exact if_neg (h r hr)

namespace Acceptance
variable {n : Node π} {s : Submission} (a : Acceptance P cfg n s)

theorem rows_dropLast : a.rows.dropLast = a.spends.map Prod.fst := by simp [rows]

theorem spentBy_rows (A : Text) :
    spentBy cfg.mode A a.rows = spentBy cfg.mode A (a.spends.map Prod.fst) := by
  obtain ⟨f, mined, text, h⟩ := a.exists_coinbase
  have hamt : a.coinbase.amount = ['0'] := by rw [h.row]; rfl
  have hfee : a.coinbase.fee = ['0'] := by rw [h.row]; rfl
  have hzero := (MoneyText.zero cfg.mode).unitsOf
  simp [rows, spentBy, hamt, hfee, hzero]

theorem immature_nonneg (H : Chained P cfg keys n chain)
    (h : immatureUnits P cfg a.node A = .ok m) : 0 ≤ m := by
  rw [immatureUnits, a.node_store] at h
  split at h
  · exact H.good.rewardUnitsSince_nonneg h
  · cases h
    exact le_rfl

theorem netFor_nonneg (hs : cfg.Strict) (hx : ExactBlock n s) (H : Chained P cfg keys n chain)
    {A : Text} (hA : StoredAddress A) (hB : n.store.balanceUnits A = .ok B) (h0 : 0 ≤ B) :
    0 ≤ B + netFor cfg.mode A a.rows := by
  have hnet := neg_spentBy_le (fun r hr => (a.rows_stored hs.noWaiver hr).units_nonneg) A
  rw [a.spentBy_rows] at hnet
  by_cases hsend : ∃ p ∈ a.spends, p.1.address = A
  · obtain ⟨p, hp, rfl⟩ := hsend
    obtain ⟨b, m, hb, hm, hle⟩ := a.covered hs hx hp
    obtain rfl : B = b := Except.ok.inj (hB.symm.trans hb)
    have := a.immature_nonneg H hm
    omega
  · have hz : spentBy cfg.mode A (a.spends.map Prod.fst) = 0 := by
      refine spentBy_eq_zero fun r hr heq => hsend ?_
      obtain ⟨p, hp, rfl⟩ := List.mem_map.1 hr
      exact ⟨p, hp, heq⟩
    omega

end Acceptance

theorem netFor_genesis (cfg : Config π) (A : Text) :
    0 ≤ netFor cfg.mode A (genesisBlock cfg).rows := by
  have hstored := genesis_stored cfg.mode
  have h : -spentBy cfg.mode A [genesisRow cfg.mode] ≤ netFor cfg.mode A [genesisRow cfg.mode] :=
    neg_spentBy_le (fun r hr => by rw [List.mem_singleton.1 hr]; exact hstored.units_nonneg) A
  have hzero := (MoneyText.zero cfg.mode).unitsOf
  have hspent : spentBy cfg.mode A [genesisRow cfg.mode] = 0 := by
    simp [spentBy, genesisRow, hzero]
  rw [hspent] at h
  exact h

theorem balance_nonneg (hs : cfg.Strict) {chain : List LiveBlock}
    (hb : Built (Extends P cfg keys ExactBlock fh) chain) (hg : [genesisBlock cfg] <+: chain)
    {A : Text} (hA : StoredAddress A) :
    0 ≤ netFor cfg.mode A (chain.flatMap (·.rows)) + (cfg.allocations.get? A).getD 0 := by
  have halloc : 0 ≤ (cfg.allocations.get? A).getD 0 := by
    cases h : cfg.allocations.get? A with
    | none => exact le_rfl
    | some u => exact (allocations_stored cfg h).2
  induction chain using List.reverseRecOn with
  | nil => simp at hg
  | append_singleton c b ih =>
    rw [List.flatMap_append, netFor_append, List.flatMap_singleton]
    rcases eq_or_ne c [] with rfl | hne
    · obtain rfl : genesisBlock cfg = b := by simpa using hg
      have := netFor_genesis cfg A
      simp only [List.flatMap_nil, netFor, List.map_nil, List.sum_nil, zero_add] at this ⊢
      omega
    · obtain ⟨n, s, a, H, -, hx, rfl, -⟩ := hb c b hne List.prefix_rfl
      have ih := ih (hb.of_isPrefix (List.prefix_append _ _)) H.genesis
      have := a.netFor_nonneg hs hx H hA (H.balanceUnits hA) ih
      show 0 ≤ _ + netFor cfg.mode A a.rows + _
      omega

/-- A block that `alice` mines, and one in which `sender` pays `amount` to `bob`. -/
def minedBlock : Submission := smallBlock [aliceMines "1500000000.00".toList ['A', 'A', 'A', 'A']]

def payingBlock (sender amount : Text) : Submission := smallBlock
  [smallTx "1500000050.00".toList sender bob amount ['A', 'A', 'A', 'B'],
    aliceMines "1500000100.00".toList ['A', 'A', 'A', 'C']]

theorem payingBlock_keys (sender amount : Text) : (payingBlock sender amount).Keys smallKeys :=
  smallBlock_keys (by simp [smallTx, aliceMines, smallKeys]) (by simp [smallTx, aliceMines])

theorem minedBlock_keys : minedBlock.Keys smallKeys :=
  smallBlock_keys (by simp [smallTx, aliceMines, smallKeys]) (by simp [smallTx, aliceMines])

theorem regnet_strict (mode : Mode) : (regnet mode).Strict := ⟨regnet_noWaiver, fun _ => rfl⟩

theorem smallTx_exact (ha : address.length ≤ 56)
    (hamt : (Py.decimal amount : Except Err Number) = .ok (.fin (bis u) false)) (hu : |u| < 10 ^ 28)
    (hs : (smallTx ts address recipient amount sig).storedUnits = u) :
    (smallTx ts address recipient amount sig).Exact :=
  ⟨ha, _, hamt, by rw [hs]; exact ⟨hu, _, rfl⟩⟩

end Bismuth
