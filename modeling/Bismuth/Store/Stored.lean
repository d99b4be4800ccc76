import Bismuth.Store.Write

/-!
# Rows in the digester's form

What `process_transaction_balances` writes: a timestamp with two decimals, amounts that are a whole
number of units, addresses of at most 56 characters. A packed body keeps of such a row everything
that the indexes read.
-/

namespace Bismuth
open Py

/-! ## Numbers as the digester writes them -/

/-- `s` is the stored text of `u` units: with eight decimals or, as the zeros and the genesis reward
are written, a whole number. -/
def MoneyText (mode : Mode) (s : Text) (u : Nat) : Prop :=
  u < 10 ^ 28 ∧ match mode with
  | .decimal => (∃ neg : Bool, (neg → u = 0) ∧ s = fixedText neg 8 u) ∨
    ∃ n, s = natText n ∧ u = n * 10 ^ 8
  | .integer => s = natText u

def StampText (s : Text) : Prop := ∃ (neg : Bool) (cs : Nat), cs < 10 ^ 100 ∧ s = fixedText neg 2 cs

variable {u : Nat}

theorem fixedVal_eight (h : neg = true → u = 0) : fixedVal neg 8 u = bis u := by
  cases neg with
  | false => simp [fixedVal, bis]
  | true => obtain rfl := h rfl; simp [fixedVal, bis]

namespace MoneyText

theorem zero (mode : Mode) : MoneyText mode ['0'] 0 :=
  ⟨by norm_num, match mode with
    | .decimal => .inr ⟨0, rfl, rfl⟩
    | .integer => rfl⟩

theorem moneyText (mode : Mode) (h : u < 10 ^ 28) : MoneyText mode (moneyText mode u) u :=
  ⟨h, match mode with
    | .decimal => .inl ⟨false, by simp, fromUnits_natCast u⟩
    | .integer => rfl⟩

theorem ne_nil (h : MoneyText mode s u) : s ≠ [] := by
  cases mode with
  | decimal =>
    obtain ⟨-, ⟨neg, -, rfl⟩ | ⟨n, rfl, -⟩⟩ := h
    · exact fixedText_ne_nil _ _ _
    · exact natText_ne_nil _
  | integer => obtain ⟨-, rfl⟩ := h; exact natText_ne_nil _

theorem decimal (h : MoneyText .decimal s u) :
    ∃ z, (Py.decimal s : Except (Exc ρ) Number) = .ok (.fin (bis u) z) := by
  obtain ⟨hu, ⟨neg, hneg, rfl⟩ | ⟨n, rfl, rfl⟩⟩ := h
  · have := decimal_fixedText (ρ := ρ) neg (k := 8) (by decide) (by decide)
      (hu.trans (by norm_num) : u < 10 ^ 100)
    exact ⟨neg, by rw [this, fixedVal_eight hneg]⟩
  · have hd := decimal_natText (ρ := ρ) (n := n) (by omega)
    have hb : bis ((n * 10 ^ 8 : Nat) : ℤ) = n := by rw [bis]; push_cast; ring
    exact ⟨false, by rw [hd, hb]; rfl⟩

theorem quantizeEight (h : MoneyText .decimal s u) :
    ∃ x, (quantizeEight (.str s) : Except (Exc ρ) Number) = .ok x ∧ IsBis x u := by
  obtain ⟨z, hd⟩ := h.decimal (ρ := ρ)
  have hb : IsBis (.fin (bis u) z) u := ⟨by simpa using (by exact_mod_cast h.1), z, rfl⟩
  obtain ⟨x, hx, hbx⟩ := hb.quantize (ρ := ρ)
  refine ⟨x, ?_, hbx⟩
  have ht : (Val.str s).truthy = true := by simp [Val.truthy, h.ne_nil]
  simp only [Bismuth.quantizeEight, ht, if_true, Val.toDecimal, hd, Except.ok_bind, hx]

theorem toUnits (h : MoneyText .decimal s u) : (toUnits (.str s) : Except (Exc ρ) Int) = .ok u := by
  obtain ⟨x, hx, hb⟩ := h.quantizeEight (ρ := ρ)
  exact toUnits_of_quantize hx hb

theorem units (h : MoneyText mode s u) : (units mode (.str s) : Except (Exc ρ) Int) = .ok u := by
  have hne : Val.str s ≠ .str [] := by simpa using h.ne_nil
  cases mode with
  | decimal => simp only [Bismuth.units, if_neg hne, h.toUnits]
  | integer =>
    obtain ⟨hu, rfl⟩ := h
    have := decimal_natText (ρ := ρ) (hu.trans (by norm_num) : u < 10 ^ 100)
    simp only [Bismuth.units, if_neg hne, Val.text, this, Except.ok_bind]
    simp [truncate, Number.ofRat]

theorem numUnits (h : MoneyText mode s u) : (numUnits mode s : Except (Exc ρ) Int) = .ok u := by
  cases mode with
  | decimal => exact h.toUnits
  | integer => obtain ⟨hu, rfl⟩ := h; exact int_natText u

theorem ledgerValue (h : MoneyText mode s u) :
    ∃ x, (ledgerValue mode (.str s) : Except (Exc ρ) Number) = .ok x ∧ IsBis x u := by
  cases mode with
  | decimal => exact h.quantizeEight
  | integer =>
    obtain ⟨hu, rfl⟩ := h
    have hu' : |(u : ℤ)| < 10 ^ 28 := by simpa using (by exact_mod_cast hu)
    have ht : (Val.str (natText u)).truthy = true := by simp [Val.truthy, natText_ne_nil]
    have hb : IsBis (.ofRat (bis u)) u := ⟨hu', _, rfl⟩
    obtain ⟨x, hx, hbx⟩ := hb.quantize (ρ := ρ)
    refine ⟨x, ?_, hbx⟩
    simp only [Bismuth.ledgerValue, ht, if_true, Val.toInt, int_natText, Except.ok_bind, toDecimal,
      div, Number.ofRat, cast_satoshisPerBis]
    rw [if_neg (by norm_num)]
    have := rounded_bis (ρ := ρ) hu'
    rw [bis] at this
    rw [this, Except.ok_bind, ← hx, bis]

end MoneyText

/-! ## What the indexes read of a row -/

theorem toDouble_isZero {q : ℚ} (h : q ≠ 0 → (2 : ℚ) ^ (-30 : ℤ) ≤ q) (z : Bool) :
    (toDouble q z).isZero = decide (q = 0) := by
  rcases eq_or_ne q 0 with rfl | h0
  · simp [toDouble, Number.isZero]
  · have hr : ((2 : ℕ) : ℚ) ^ (-30 : ℤ) ≤ binary64.round q :=
      binary64.zpow_le_round (by exact_mod_cast h h0) (by decide)
    have hne : binary64.round q ≠ 0 := fun h => by rw [h] at hr; norm_num at hr
    simp only [toDouble]
    split <;> simp [Number.isZero, hne, h0]

theorem two_zpow_le_bis (h : bis u ≠ 0) : (2 : ℚ) ^ (-30 : ℤ) ≤ bis u := by
  have h1 : (1 : ℚ) ≤ u := by
    exact_mod_cast Nat.one_le_iff_ne_zero.2 fun h0 => h (by simp [bis, h0])
  rw [bis, le_div_iff₀ (by norm_num)]
  exact le_trans (by norm_num) h1

theorem bis_eq_zero {u : Int} : bis u = 0 ↔ u = 0 := by simp [bis]

/-- One is above the small numbers that `float` could take for zero. -/
theorem two_zpow_le_natCast {n : Nat} (h : (n : ℚ) ≠ 0) : (2 : ℚ) ^ (-30 : ℤ) ≤ n := by
  have h1 : (1 : ℚ) ≤ n := by
    exact_mod_cast Nat.one_le_iff_ne_zero.2 fun h0 => h (by exact_mod_cast h0)
  exact le_trans (by norm_num) h1

theorem MoneyText.float (h : MoneyText mode s u) : ∃ q z,
    (Py.float s : Except Err Number) = .ok (toDouble q z) ∧ (q ≠ 0 → (2 : ℚ) ^ (-30 : ℤ) ≤ q) ∧
      (q = 0 ↔ u = 0) := by
  cases mode with
  | decimal =>
    obtain ⟨-, ⟨neg, hneg, he⟩ | ⟨n, he, rfl⟩⟩ := h
    · refine ⟨bis u, neg, ?_, two_zpow_le_bis, by rw [bis_eq_zero]; simp⟩
      rw [he, float_fixedText neg (by decide), fixedVal_eight hneg]
    · exact ⟨(n : Nat), false, by rw [he, float_natText], two_zpow_le_natCast, by simp⟩
  | integer =>
    obtain ⟨-, he⟩ := h
    exact ⟨u, false, by rw [he, float_natText], two_zpow_le_natCast, by simp⟩

theorem isCoinbaseRow_eq (h : MoneyText mode r.reward u) : isCoinbaseRow r = decide (u ≠ 0) := by
  obtain ⟨q, z, hf, hq, hu⟩ := h.float
  simp [isCoinbaseRow, hf, toDouble_isZero hq, h.ne_nil, hu]

/-- The units of `'%.8f'` of an amount of `u` units. -/
def floatUnits (u : Nat) : Nat := (Rat.halfEven (|binary64.round (bis u)| * 10 ^ 8)).natAbs

theorem round_bis_pos (h0 : u ≠ 0) : 0 < binary64.round (bis u) := by
  have h : bis u ≠ 0 := by rw [Ne, bis_eq_zero]; exact_mod_cast h0
  have hr : ((2 : ℕ) : ℚ) ^ (-30 : ℤ) ≤ binary64.round (bis u) :=
    binary64.zpow_le_round (by exact_mod_cast two_zpow_le_bis h) (by decide)
  exact lt_of_lt_of_le (by norm_num) hr

theorem percentFixed_bis (hu : u < 10 ^ 28) (z : Bool) : (percentFixed 8 (.fin (bis u) z) : Except (Exc ρ) Text) =
      .ok (fixedText (decide (u = 0) && z) 8 (floatUnits u)) := by
  have hlog : Int.log 2 |binary64.round (bis u)| < 1024 := by
    refine log_round_lt ?_
    have h1 : (u : ℚ) < 10 ^ 28 := by exact_mod_cast hu
    rw [bis, abs_of_nonneg (by positivity), div_lt_iff₀ (by norm_num)]
    exact h1.trans_le (by norm_num)
  have hneg : isNeg (binary64.round (bis u)) (isNeg (bis u) z) = (decide (u = 0) && z) := by
    rcases eq_or_ne u 0 with rfl | h0
    · simp [bis, isNeg]
    · have := round_bis_pos h0
      simp [isNeg, this.not_gt, this.ne', h0]
  simp only [percentFixed, Number.toFloat, toDouble]
  rw [if_neg (not_le.2 hlog)]
  simp [Except.map, formatFixed, hneg, floatUnits]

theorem floatUnits_of_round (q : ℚ) :
    floatUnits (Rat.halfEven (|binary64.round q| * 10 ^ 8)).natAbs =
      (Rat.halfEven (|binary64.round q| * 10 ^ 8)).natAbs := by
  have habs : |binary64.round q| = binary64.round |q| := by
    rcases le_total 0 q with h | h
    · rw [abs_of_nonneg h, abs_of_nonneg (binary64.round_nonneg h)]
    · rw [abs_of_nonpos h, FloatFormat.round_neg, abs_of_nonpos]
      simpa using binary64.round_mono h
  rw [habs, floatUnits]
  have hn : 0 ≤ Rat.halfEven (binary64.round |q| * 10 ^ 8) :=
    Rat.halfEven_nonneg (mul_nonneg (binary64.round_nonneg (abs_nonneg q)) (by norm_num))
  have hbis : bis ((Rat.halfEven (binary64.round |q| * 10 ^ 8)).natAbs : Nat) =
      Rat.halfEven (binary64.round |q| * 10 ^ 8) / 10 ^ 8 := by
    rw [bis, Int.natCast_natAbs, abs_of_nonneg hn]
  rw [hbis, abs_of_nonneg (binary64.round_nonneg (by positivity)),
    binary64.halfEven_round_halfEven |q| (by norm_num : (0 : ℚ) < 10 ^ 8)]

theorem floatUnits_zero : floatUnits 0 = 0 := by
  have : Rat.halfEven 0 = 0 := Rat.halfEven_zero
  simp [floatUnits, bis, this]

/-- Reading `'%.8f'` of an amount back does not see the sign of a zero. -/
theorem v2Units_percentFixed (hu : u < 10 ^ 28) (z : Bool) :
    (percentFixed 8 (.fin (bis u) z) >>= v2Units : Except (Exc ρ) Int) =
      v2Units (fixedText false 8 (floatUnits u)) := by
  rw [percentFixed_bis hu, Except.ok_bind]
  rcases eq_or_ne u 0 with rfl | h0
  · rw [floatUnits_zero, v2Units, v2Units, scaledInt_fixedText _ (by decide) (by decide) (by simp),
      scaledInt_fixedText _ (by decide) (by decide) (by simp)]
    simp
  · simp [h0]

/-- `txidOf` at or above the fork height, through what the amount and the timestamp stand for. -/
theorem txidOf_postFork (P : Prims) (hf : postFork forkHeight r.height)
    (ha : MoneyText mode r.amount u) : txidOf P mode r forkHeight = (do
      let cs ← v2TsCs r.timestamp
      let units ← v2Units (fixedText false 8 (floatUnits u))
      let pre ← signatureBufferV2 cs r.address r.recipient units r.operation r.openfield
      pure (P.blake2bHex pre)) := by
  obtain ⟨x, hx, -, z, rfl⟩ := ha.ledgerValue (ρ := Reject)
  have h := v2Units_percentFixed (ρ := Reject) ha.1 z
  rw [percentFixed_bis ha.1, Except.ok_bind] at h
  rw [txidOf, hx, Except.ok_bind, percentFixed_bis ha.1, Except.ok_bind, txIdAt, if_pos hf, txIdV2S,
    h]

/-! ## Column types -/

theorem mem_dropSign (h : c ∈ s) (h1 : c ≠ '+') (h2 : c ≠ '-') : c ∈ dropSign s := by
  rw [dropSign.eq_def]
  split
  · exact (List.mem_cons.1 h).resolve_left h1
  · exact (List.mem_cons.1 h).resolve_left h2
  · exact h

theorem matchesInt_fixedText (neg : Bool) (k u : Nat) : matchesInt (fixedText neg k u) = false := by
  have hdot : '.' ∈ dropSign (fixedText neg k u) :=
    mem_dropSign (by simp [fixedText]) (by decide) (by decide)
  have hd : asciiDigit? '.' = none := by decide
  rw [matchesInt, strip_plain fun c hc => isPlain_of_mem_fixedText hc, isDigits,
    Bool.and_eq_false_iff, List.all_eq_false]
  exact .inr ⟨'.', hdot, by simp [hd]⟩

theorem numeric_ok (hi : matchesInt s → ∃ i x, Py.int s = (.ok i : Except Err Int) ∧
      (Val.int i).toFloat = (.ok x : Except Err Number))
    (hf : ∃ x, float s = (.ok x : Except Err Number)) : ∃ v, numeric s = (.ok v : Except Err Val) := by
  rw [numeric]
  split
  · obtain ⟨i, x, h1, h2⟩ := hi ‹_›
    rw [h1, Except.ok_bind, h2]
    split <;> exact ⟨_, rfl⟩
  · split
    · obtain ⟨x, hx⟩ := hf
      rw [hx, Except.ok_bind]
      split <;> exact ⟨_, rfl⟩
    · exact ⟨_, rfl⟩

theorem numeric_fixedText (neg : Bool) (hk : 0 < k) (u : Nat) :
    ∃ v, numeric (fixedText neg k u) = (.ok v : Except Err Val) :=
  numeric_ok (by simp [matchesInt_fixedText]) ⟨_, float_fixedText neg hk u⟩

theorem toFloat_natCast {n : Nat} (h : n < 10 ^ 28) :
    ∃ x, (Val.int n).toFloat = (.ok x : Except Err Number) := by
  have hlog : Int.log 2 |binary64.round (((n : ℤ) : ℚ))| < 1024 := by
    refine log_round_lt ?_
    have h1 : (n : ℚ) < 10 ^ 28 := by exact_mod_cast h
    rw [Int.cast_natCast, abs_of_nonneg (by positivity)]
    exact h1.trans_le (by norm_num)
  have hfin : toDouble ((n : ℤ) : ℚ) false = .fin _ _ := if_neg (not_le.2 hlog)
  rw [Val.toFloat, hfin]
  exact ⟨_, rfl⟩

theorem numeric_natText {n : Nat} (h : n < 10 ^ 28) :
    ∃ v, numeric (natText n) = (.ok v : Except Err Val) := by
  obtain ⟨x, hx⟩ := toFloat_natCast h
  exact numeric_ok (fun _ => ⟨n, x, int_natText n, hx⟩) ⟨_, float_natText n⟩

theorem MoneyText.numeric (h : MoneyText mode s u) :
    ∃ v, numeric s = (.ok v : Except Err Val) := by
  cases mode with
  | decimal =>
    obtain ⟨hu, ⟨neg, -, rfl⟩ | ⟨n, rfl, rfl⟩⟩ := h
    · exact numeric_fixedText neg (by decide) u
    · exact numeric_natText (by omega)
  | integer => obtain ⟨hu, rfl⟩ := h; exact numeric_natText hu

def StoredAddress (a : Text) : Prop := a ≠ [] ∧ a.length ≤ 56

/-- A row of the block `hash` at height `h` as the digester writes it. -/
structure Row.Stored (mode : Mode) (h : Nat) (hash : Text) (r : Row) : Prop where
  height : r.height = h
  blockHash : r.blockHash = hash
  timestamp : StampText r.timestamp
  address : StoredAddress r.address
  recipient : StoredAddress r.recipient
  amount : ∃ u, MoneyText mode r.amount u
  fee : ∃ u, MoneyText mode r.fee u
  reward : ∃ u, MoneyText mode r.reward u

/-- The indexes cannot tell `r` from `r'`. -/
structure Row.Same (P : Prims) (mode : Mode) (forkHeight : Option Nat) (r r' : Row) : Prop where
  address : r'.address = r.address
  recipient : r'.recipient = r.recipient
  signature : r'.signature = r.signature
  publicKey : r'.publicKey = r.publicKey
  amount : units mode (.str r'.amount) = (units mode (.str r.amount) : Except Err Int)
  fee : units mode (.str r'.fee) = (units mode (.str r.fee) : Except Err Int)
  reward : units mode (.str r'.reward) = (units mode (.str r.reward) : Except Err Int)
  txid : txidOf P mode r' forkHeight = txidOf P mode r forkHeight
  coinbase : isCoinbaseRow r' = isCoinbaseRow r

variable {P : Prims}

theorem Row.Same.refl (r : Row) : Row.Same P mode forkHeight r r :=
  ⟨rfl, rfl, rfl, rfl, rfl, rfl, rfl, rfl, rfl⟩

theorem Row.Same.indexEntry (h : Row.Same P mode forkHeight r r') (height idx : Nat) :
    indexEntry P mode height forkHeight idx r' = indexEntry P mode height forkHeight idx r := by
  simp only [Bismuth.indexEntry, h.address, h.recipient, h.signature, h.amount, h.fee, h.reward,
    h.txid]

def Row.repacked (mode : Mode) (cs amount fee reward : Nat) (r : Row) : Row :=
  { r with
    timestamp := timestampText cs, amount := moneyText mode amount, fee := moneyText mode fee
    reward := moneyText mode reward }

/-- `r'` is what reading the body of its block gives for `r`. -/
def Row.ReadsBack (mode : Mode) (forkHeight : Option Nat) (r r' : Row) : Prop :=
  if postFork forkHeight r.height then
    ∃ cs ua uf ur : Nat, v2TsCs r.timestamp = (.ok cs : Except Err Int) ∧
      numUnits mode r.amount = (.ok ua : Except Err Int) ∧
      numUnits mode r.fee = (.ok uf : Except Err Int) ∧
      numUnits mode r.reward = (.ok ur : Except Err Int) ∧ r' = r.repacked mode cs ua uf ur
  else r' = r

theorem Row.ReadsBack.unique (h : Row.ReadsBack mode forkHeight r r₁)
    (h' : Row.ReadsBack mode forkHeight r r₂) : r₁ = r₂ := by
  simp only [ReadsBack] at h h'
  split at h
  · rename_i hf
    rw [if_pos hf] at h'
    obtain ⟨cs, ua, uf, ur, h1, h2, h3, h4, rfl⟩ := h
    obtain ⟨cs', ua', uf', ur', h1', h2', h3', h4', rfl⟩ := h'
    rw [h1] at h1'; rw [h2] at h2'; rw [h3] at h3'; rw [h4] at h4'
    simp only [Except.ok.injEq, Nat.cast_inj] at h1' h2' h3' h4'
    rw [h1', h2', h3', h4']
  · rename_i hf
    rw [if_neg hf] at h'
    rw [h, h']

namespace Row.Stored

/-- What the record of a packed row holds are the row's own units. -/
theorem units_eq (h : Row.Stored mode n bh r)
    (ha : numUnits mode r.amount = (.ok (ua : Nat) : Except Err Int))
    (hf : numUnits mode r.fee = (.ok (uf : Nat) : Except Err Int))
    (hr : numUnits mode r.reward = (.ok (ur : Nat) : Except Err Int)) :
    MoneyText mode r.amount ua ∧ MoneyText mode r.fee uf ∧ MoneyText mode r.reward ur := by
  have key : ∀ {s : Text} {u : Nat}, (∃ v, MoneyText mode s v) →
      numUnits mode s = (.ok (u : Nat) : Except Err Int) → MoneyText mode s u := by
    rintro s u ⟨v, hv⟩ hu
    rw [hv.numUnits] at hu
    obtain rfl : v = u := by simpa using hu
    exact hv
  exact ⟨key h.amount ha, key h.fee hf, key h.reward hr⟩

theorem repacked_same (h : Row.Stored mode n bh r) (hfork : postFork forkHeight n)
    (hcs : v2TsCs r.timestamp = (.ok (cs : Nat) : Except Err Int))
    (ha : MoneyText mode r.amount ua) (hf : MoneyText mode r.fee uf)
    (hr : MoneyText mode r.reward ur) :
    Row.Same P mode forkHeight r (r.repacked mode cs ua uf ur) where
  address := rfl
  recipient := rfl
  signature := rfl
  publicKey := rfl
  amount := (MoneyText.moneyText mode ha.1).units.trans ha.units.symm
  fee := (MoneyText.moneyText mode hf.1).units.trans hf.units.symm
  reward := (MoneyText.moneyText mode hr.1).units.trans hr.units.symm
  txid := by
    have hlt : cs < 10 ^ 28 := by simpa using (of_scaledInt hcs).1
    rw [← h.height] at hfork
    rw [txidOf_postFork P hfork ha, txidOf_postFork P (r := r.repacked mode cs ua uf ur) hfork
      (.moneyText mode ha.1), hcs]
    simp only [repacked, v2TsCs_timestampText hlt]
  coinbase := by
    rw [isCoinbaseRow_eq hr, isCoinbaseRow_eq (r := r.repacked mode cs ua uf ur) (.moneyText mode hr.1)]

theorem repacked (h : Row.Stored mode n bh r)
    (hcs : v2TsCs r.timestamp = (.ok (cs : Nat) : Except Err Int))
    (ha : MoneyText mode r.amount ua) (hf : MoneyText mode r.fee uf)
    (hr : MoneyText mode r.reward ur) :
    Row.Stored mode n bh (r.repacked mode cs ua uf ur) where
  height := h.height
  blockHash := h.blockHash
  timestamp := by
    have hlt : cs < 10 ^ 28 := by simpa using (of_scaledInt hcs).1
    exact ⟨false, cs, hlt.trans (by norm_num), rfl⟩
  address := h.address
  recipient := h.recipient
  amount := ⟨_, .moneyText mode ha.1⟩
  fee := ⟨_, .moneyText mode hf.1⟩
  reward := ⟨_, .moneyText mode hr.1⟩

theorem typedRow (h : Row.Stored mode n bh r) : ∃ t, typedRow r = (.ok t : Except Err TypedRow) := by
  obtain ⟨neg, cs, -, hts⟩ := h.timestamp
  obtain ⟨v1, h1⟩ := numeric_fixedText neg (k := 2) (by decide) cs
  obtain ⟨_, ha⟩ := h.amount
  obtain ⟨_, hf⟩ := h.fee
  obtain ⟨_, hr⟩ := h.reward
  obtain ⟨v2, h2⟩ := ha.numeric
  obtain ⟨v3, h3⟩ := hf.numeric
  obtain ⟨v4, h4⟩ := hr.numeric
  rw [← hts] at h1
  simp only [Bismuth.typedRow, h1, h2, h3, h4, Except.ok_bind]
  exact ⟨_, rfl⟩

end Row.Stored

end Bismuth
