import Bismuth.Digest.Accept
import Bismuth.Digest.Fees
import Bismuth.Store.Inv
import Mathlib

/-!
# The rows of an accepted block

Without waivers, the rows that the digester hands to the store are in the form that the store's invariant
asks for.
-/

namespace Bismuth
open Py

variable {π : Type} {P : Prims} {cfg : Config π}

def Config.NoWaiver (cfg : Config π) : Prop := ∀ h c s, cfg.isExempt h c s = false

structure Config.Strict (cfg : Config π) : Prop where
  noWaiver : cfg.NoWaiver
  untrusted : ∀ h, cfg.inTrustedPrefix h = false

/-! ## One transaction -/

theorem waived_strict (h : waived false x = .ok u) : x = .ok () := by
  cases x with
  | ok => rfl
  | error e => simp [waived] at h

theorem RawTx.fields_ok {tx : RawTx} {pf : Bool} (h : tx.fields pf = .ok f) :
    timestampField tx.timestamp = .ok f.timestamp ∧ amountField tx.amount = .ok f.amount ∧
      f = { f with
        address := tx.address.take 56
        recipient := tx.recipient.take 56
        signature := tx.signature.take maxTxSignatureLen
        publicKey := tx.publicKey.take maxTxPubkeyLen
        operation := capped pf 30 tx.operation
        openfield := capped pf 100000 tx.openfield } := by
  simp only [RawTx.fields, Except.bind_eq_ok] at h
  obtain ⟨ts, hts, amount, ha, h⟩ := h
  cases h
  exact ⟨hts, ha, rfl⟩

theorem RawTx.parse_ok {tx : RawTx} {pf : Bool} (h : tx.parse now isLast pf = .ok t) :
    quantizeTwo tx.timestamp = .ok t.qTimestamp ∧ tx.fields pf = .ok t.fields := by
  simp only [RawTx.parse, Except.bind_eq_ok] at h
  obtain ⟨start, -, q, hq, f, hf, _, -, h⟩ := h
  cases h
  exact ⟨hq, hf⟩

theorem addressIsValid_ne_nil (h : addressIsValid P a = true) : a ≠ [] := by
  rintro rfl
  simp [addressIsValid, reRsaAddress, reMultisigAddress, reEcdsaAddress, matchesDollar,
    versionedSigner, P.b58decode_nil] at h

structure RawTx.Valid (pf : Bool) (tx : RawTx) (f : TxTuple) : Prop where
  fields : tx.fields pf = .ok f
  stamp : StampText f.timestamp
  address : StoredAddress f.address
  recipient : StoredAddress f.recipient
  amount : f.amount = ['n', 'a', 'n'] ∨
    ∃ (neg : Bool) (u : Nat), (neg = true → u = 0) ∧ f.amount = fixedText neg 8 u

theorem quantizeTwo_ne_inf (h : quantizeTwo v = .ok x) : x = .nan ∨ ∃ q z, x = .fin q z := by
  simp only [quantizeTwo, Except.bind_eq_ok] at h
  obtain ⟨y, -, h⟩ := h
  cases y with
  | fin q z => exact .inr ⟨_, _, (quantize_fin_ok h).1⟩
  | nan => cases h; exact .inl rfl
  | inf | snan => cases h

theorem validateTx_ok (hw : cfg.NoWaiver) (h : validateTx P cfg n now isLast tx = .ok t) :
    tx.Valid n.postFork t.fields ∧
      (cfg.inTrustedPrefix n.height = false → t.validateSignature P n isLast = .ok ()) := by
  simp only [validateTx, hw _ _ _, Except.bind_eq_ok] at h
  obtain ⟨t', hparse, _, hv, h⟩ := h
  cases h
  obtain ⟨hq, hf⟩ := RawTx.parse_ok hparse
  obtain ⟨hts, ha, hrest⟩ := RawTx.fields_ok hf
  have hv := waived_strict hv
  simp only [Transaction.validate, Except.bind_eq_ok, Transaction.validateFields, require_eq_ok,
    rejectFuture] at hv
  obtain ⟨_, ⟨_, ⟨b, hb, -⟩, y, -, old, -, _, -, amount, hamt, _, hnn, _, hsend, _, hrec, -⟩, hsig⟩ := hv
  -- the comparison with the clock has excluded a timestamp that is no number
  obtain ⟨q, z, hfin⟩ : ∃ q z, t.qTimestamp = .fin q z := by
    rcases quantizeTwo_ne_inf hq with hnan | hfin
    · rw [hnan] at hb
      cases hx : t.startTime <;> rw [hx] at hb <;> cases hb
    · exact hfin
  have hlen : ∀ l : Text, (l.take 56).length ≤ 56 := fun l => List.length_take_le _ _
  refine ⟨⟨hf, timestampField_ok (hfin ▸ hq) hts, ⟨addressIsValid_ne_nil hsend, ?_⟩,
    ⟨addressIsValid_ne_nil hrec, ?_⟩, amountField_ok ha hamt (by simpa using hnn)⟩,
    fun htrust => by simpa [htrust] using hsig⟩
  · rw [hrest]; exact hlen _
  · rw [hrest]; exact hlen _

/-! ## The rows -/

variable {c : RowContext π}

theorem rowFields_ok (h : rowFields c tx = .ok (f, debit, fees)) : tx.fields c.node.postFork = .ok f ∧
      addressTotals c.node f.address (.ofRat 0, .ofRat 0) c.block = .ok (debit, fees) := by
  simp only [rowFields, Except.bind_eq_ok] at h
  obtain ⟨_, -, _, -, _, -, f', hf, t, ht, h⟩ := h
  cases h
  exact ⟨hf, ht⟩

structure SpendOf (P : Prims) (cfg : Config π) (c : RowContext π) (tx : RawTx) (r : Row)
    (blockFee : Number) (f : TxTuple) (debit fees txFee : Number) : Prop where
  fields : tx.fields c.node.postFork = .ok f
  totals : addressTotals c.node f.address (.ofRat 0, .ofRat 0) c.block = .ok (debit, fees)
  fee : feeCalculate f.openfield f.operation c.node.baseFee = .ok txFee
  rounded : quantize 8 txFee = (.ok blockFee : Except Err Number)
  balance : validateBalance P cfg c.node f.address debit fees = .ok ()
  amount : moneyColumn cfg.mode (.str f.amount) f.amount = .ok r.amount
  feeColumn : moneyColumn cfg.mode (.float txFee) (decimalText txFee) = .ok r.fee
  row : r = c.row f r.amount r.fee ['0']

theorem spendRow_ok (h : spendRow P cfg c tx = .ok (r, blockFee)) :
    ∃ f debit fees fee, SpendOf P cfg c tx r blockFee f debit fees fee := by
  simp only [spendRow, Except.bind_eq_ok, Prod.exists] at h
  obtain ⟨f, debit, fees, hf, fee, hfee, bf, hbf, _, hb, amount, ha, feeCol, hfc, h⟩ := h
  cases h
  obtain ⟨h1, h2⟩ := rowFields_ok hf
  exact ⟨f, debit, fees, fee, h1, h2, hfee, hbf, hb, ha, hfc, rfl⟩

structure CoinbaseOf (cfg : Config π) (c : RowContext π) (fees : List Number) (tx : RawTx) (r : Row)
    (f : TxTuple) (mined : Number) (text : Text) : Prop where
  fields : tx.fields c.node.postFork = .ok f
  miningReward : calculateMiningReward cfg c.node = .ok mined
  reward : rewardText mined fees = .ok text
  column : moneyColumn cfg.mode (.str text) text = .ok r.reward
  wire : ∃ x, tx.amount.toFloat = (.ok x : Except Err Number) ∧ x.isZero = true
  row : r = c.row f ['0'] ['0'] r.reward

theorem coinbaseRow_ok (h : coinbaseRow cfg c fees tx = .ok r) :
    ∃ f miningReward reward, CoinbaseOf cfg c fees tx r f miningReward reward := by
  simp only [coinbaseRow, Except.bind_eq_ok, Prod.exists, require_eq_ok] at h
  obtain ⟨f, debit, tot, hf, mr, hmr, reward, hr, x, hx, _, hz, col, hc, h⟩ := h
  cases h
  obtain ⟨h1, -⟩ := rowFields_ok hf
  exact ⟨f, mr, reward, h1, hmr, hr, hc, ⟨x, hx, hz⟩, rfl⟩

theorem blockHashAt_ok {hash : Text} (h : blockHashAt P height forkHeight txs prev = (.ok hash : Except (Exc ρ) Text)) :
    ∃ d, hash = hex d := by
  rw [blockHashAt] at h
  split at h
  · simp only [blockHashV2, Except.bind_eq_ok] at h
    obtain ⟨_, -, _, -, h⟩ := h
    cases h
    exact ⟨_, rfl⟩
  · cases h
    exact ⟨_, rfl⟩

theorem units_of_indexEntries (h : indexEntries P mode n forkHeight rows = .ok es) (hr : r ∈ rows) :
    ∃ amt reward fee, units mode (.str r.amount) = (.ok amt : Except Err Int) ∧
      units mode (.str r.reward) = (.ok reward : Except Err Int) ∧
      units mode (.str r.fee) = (.ok fee : Except Err Int) := by
  obtain ⟨i, hi⟩ := List.mem_iff_getElem?.1 hr
  obtain ⟨e, -, he⟩ := Except.exists_mem_of_mapM (a := (r, i)) h (List.mem_zipIdx_iff_getElem?.2 hi)
  obtain ⟨q, amt, reward, fee, -, h1, h2, h3, -⟩ := indexEntry_ok he
  exact ⟨amt, reward, fee, h1, h2, h3⟩

theorem toUnits_nan : (toUnits (.str ['n', 'a', 'n']) : Except Err Int) = .error .valueError := by
  decide +kernel

theorem RawTx.Valid.moneyText {tx : RawTx} {pf : Bool} (hv : tx.Valid pf f)
    (hs : moneyColumn mode (.str f.amount) f.amount = .ok s)
    (hu : units mode (.str s) = (.ok k : Except Err Int)) :
    ∃ (neg : Bool) (u : Nat), (neg = true → u = 0) ∧ f.amount = fixedText neg 8 u ∧ MoneyText mode s u := by
  obtain hnan | ⟨neg, u, hneg, ha⟩ := hv.amount
  · rw [hnan] at hs
    cases mode with
    | decimal =>
      cases hs
      simp [units, toUnits_nan] at hu
    | integer => simp [moneyColumn, toUnits_nan] at hs
  · rw [ha] at hs
    exact ⟨neg, u, hneg, ha, moneyText_of_column hneg hs hu⟩

/-- The fee of a spend, as it is stored and as the coinbase collects it. -/
theorem SpendOf.exists_units (h : SpendOf P cfg c tx r blockFee f debit fees txFee)
    (hb : c.node.baseFee = .fin b z) (hle : 1 / 200 ≤ b) :
    ∃ u : Nat, (u : ℤ) = feeUnits b f.openfield f.operation ∧ MoneyText cfg.mode r.fee u ∧
      IsBis blockFee u := by
  have hfee := h.fee
  rw [hb] at hfee
  have hu := feeCalculate_ok hfee
  have hge := le_feeUnits hle f.openfield f.operation
  obtain ⟨u, hu'⟩ : ∃ u : Nat, (u : ℤ) = feeUnits b f.openfield f.operation :=
    ⟨_, Int.toNat_of_nonneg (by omega)⟩
  rw [← hu'] at hu hge
  exact ⟨u, hu', moneyText_of_fee hu (by omega) h.feeColumn, hu.of_quantize h.rounded⟩

namespace Acceptance
variable {n : Node π} {s : Submission} (a : Acceptance P cfg n s)

theorem valid (hw : cfg.NoWaiver) (htx : tx ∈ s.block) : ∃ t, tx.Valid a.node.postFork t := by
  obtain ⟨h, -⟩ := checkTransactions_ok a.checked
  obtain ⟨i, hi⟩ := List.mem_iff_getElem?.1 htx
  obtain ⟨t, -, ht⟩ := Except.exists_mem_of_mapM (a := (tx, i)) h (List.mem_zipIdx_iff_getElem?.2 hi)
  exact ⟨t.fields, (validateTx_ok hw ht).1⟩

theorem exists_spend (hr : (r, fee) ∈ a.spends) :
    ∃ tx ∈ a.init, ∃ f debit fees txFee, SpendOf P cfg a.context tx r fee f debit fees txFee := by
  obtain ⟨tx, htx, h⟩ := Except.exists_of_mem_mapM a.spends_eq hr
  exact ⟨tx, htx, spendRow_ok h⟩

theorem exists_coinbase : ∃ f mined text,
    CoinbaseOf cfg a.context (a.spends.map Prod.snd) a.last a.coinbase f mined text :=
  coinbaseRow_ok a.coinbase_eq

theorem exists_digest : ∃ d, a.hash = hex d := blockHashAt_ok (sealBlock_ok a.hashed).1

def digest : Bytes := hashKey a.hash

@[simp] theorem hex_digest : hex a.digest = a.hash := by
  obtain ⟨d, hd⟩ := a.exists_digest
  rw [digest, hd, hashKey_hex]

theorem exists_entries :
    ∃ es, indexEntries P cfg.mode a.node.height a.node.forkHeight a.rows = .ok es := by
  obtain ⟨_, es, _, _, _, -, -, hes, -⟩ := commitBlock_ok a.commit
  exact ⟨es, hes⟩

theorem baseFee_fin : ∃ b z, a.node.baseFee = .fin b z ∧ 1 / 200 ≤ b := by
  obtain ⟨f, hf, h⟩ := a.prepared
  obtain ⟨b, z, rfl, hb⟩ := blockBaseFee_ok hf
  exact ⟨b, z, by rw [h], hb⟩

theorem exists_fees : ∃ us : List Nat,
    List.Forall₂ (fun p u => MoneyText cfg.mode p.1.fee u ∧ IsBis p.2 (u : Nat)) a.spends us := by
  obtain ⟨b, z, hb, hle⟩ := a.baseFee_fin
  refine List.Forall₂.exists_of_forall fun ⟨r, fee⟩ hr => ?_
  obtain ⟨tx, -, f, debit, fees, txFee, h⟩ := a.exists_spend hr
  obtain ⟨u, -, hu⟩ := h.exists_units hb hle
  exact ⟨u, hu⟩

theorem exists_reward {us : List Nat}
    (hus : List.Forall₂ (fun p u => MoneyText cfg.mode p.1.fee u ∧ IsBis p.2 (u : Nat)) a.spends us) :
    ∃ q z u, calculateMiningReward cfg a.context.node = .ok (.fin q z) ∧ 1 / 2 ≤ q ∧
      MoneyText cfg.mode a.coinbase.reward u ∧
      (u : ℤ) = Rat.halfEven (context28.round (q + bis (us.sum : Nat)) * 10 ^ 8) := by
  obtain ⟨f, mined, text, h⟩ := a.exists_coinbase
  obtain ⟨q, z, rfl, hq⟩ := calculateMiningReward_ok h.miningReward
  have hfees : List.Forall₂ IsBis (a.spends.map Prod.snd) (us.map ((↑) : ℕ → ℤ)) := by
    rw [List.forall₂_map_left_iff, List.forall₂_map_right_iff]
    exact hus.imp fun _ _ h => h.2
  obtain ⟨u, htext, hu⟩ := rewardText_ok (le_trans (by norm_num) hq) hfees (by simp) h.reward
  obtain ⟨es, hes⟩ := a.exists_entries
  obtain ⟨_, _, _, -, hunits, -⟩ := units_of_indexEntries hes (r := a.coinbase) (by simp [rows])
  have hcol := h.column
  rw [htext] at hcol
  have hmoney := moneyText_of_column (by simp) hcol hunits
  have hsum : (us.map ((↑) : ℕ → ℤ)).sum = ((us.sum : Nat) : ℤ) := (Nat.cast_list_sum us).symm
  obtain ⟨-, hval⟩ := hu hmoney.1
  rw [hsum] at hval
  exact ⟨q, z, u, h.miningReward, hq, hmoney, hval⟩

theorem rows_stored (hw : cfg.NoWaiver) (hr : r ∈ a.rows) :
    Row.Stored cfg.mode a.node.height a.hash r := by
  obtain ⟨es, hes⟩ := a.exists_entries
  obtain ⟨_, _, _, hamt, -, -⟩ := units_of_indexEntries hes hr
  obtain ⟨us, hus⟩ := a.exists_fees
  rw [rows, List.mem_append, List.mem_singleton] at hr
  rcases hr with hr | rfl
  · obtain ⟨⟨r', fee⟩, hp, rfl⟩ := List.mem_map.1 hr
    obtain ⟨tx, htx, f, debit, fees, txFee, h⟩ := a.exists_spend hp
    obtain ⟨f', hv⟩ := a.valid hw (show tx ∈ s.block by rw [a.block]; simp [htx])
    obtain rfl : f = f' := Except.ok.inj (h.fields.symm.trans hv.fields)
    obtain ⟨u, -, hu, -⟩ := hus.exists_right hp
    exact {
      height := by rw [h.row]; rfl
      blockHash := by rw [h.row]; rfl
      timestamp := by rw [h.row]; exact hv.stamp
      address := by rw [h.row]; exact hv.address
      recipient := by rw [h.row]; exact hv.recipient
      amount := let ⟨_, u, _, _, hu⟩ := hv.moneyText h.amount hamt; ⟨u, hu⟩
      fee := ⟨u, hu⟩
      reward := by rw [h.row]; exact ⟨0, .zero _⟩ }
  · obtain ⟨f, mined, text, h⟩ := a.exists_coinbase
    obtain ⟨f', hv⟩ := a.valid hw (show a.last ∈ s.block by rw [a.block]; simp)
    obtain rfl : f = f' := Except.ok.inj (h.fields.symm.trans hv.fields)
    obtain ⟨-, -, u, -, -, hu, -⟩ := a.exists_reward hus
    exact {
      height := by rw [h.row]; rfl
      blockHash := by rw [h.row]; rfl
      timestamp := by rw [h.row]; exact hv.stamp
      address := by rw [h.row]; exact hv.address
      recipient := by rw [h.row]; exact hv.recipient
      amount := by rw [h.row]; exact ⟨0, .zero _⟩
      fee := by rw [h.row]; exact ⟨0, .zero _⟩
      reward := ⟨u, hu⟩ }

end Acceptance

end Bismuth
