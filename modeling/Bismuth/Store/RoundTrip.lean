import Bismuth.Store.Heights
import Bismuth.Store.History

/-!
# Bodies that come back

`get_block_raw` gives back the rows that `commit_block` was given, for as long as the block is in the store,
except that a packed body does not keep the sign of a timestamp `-0.00`.
-/

namespace Bismuth
open Py

variable {P : Prims} {mode : Mode} {keys : Text → Prop}

/-! ## Timestamps and amounts -/

/-- The text `'%.2f'` gives back the centiseconds that it was read to, but for the sign of a zero. -/
theorem timestampText_of_v2TsCs {s : Text} (hs : ∃ x, s = formatFixed 2 x)
    (h : (v2TsCs s : Except Err Int) = .ok (cs : Nat)) :
    timestampText cs = s ↔ s ≠ "-0.00".toList := by
  obtain ⟨-, q, z, hd, hcs⟩ := of_scaledInt h
  obtain ⟨x, rfl⟩ := hs
  cases x with
  | fin p w =>
    rw [formatFixed] at hd ⊢
    generalize isNeg p w = neg at hd ⊢
    generalize (Rat.halfEven (|p| * 10 ^ 2)).natAbs = u at hd ⊢
    obtain ⟨rfl, rfl⟩ := Number.fin.inj (decimal_of_fixedText (by decide) hd)
    have hu : fixedVal z 2 u * 10 ^ 2 = ((if z then -(u : ℤ) else u : ℤ) : ℚ) := by
      cases z <;> simp [fixedVal]
    rw [hu, Rat.halfEven_intCast] at hcs
    cases z with
    | false =>
      obtain rfl : cs = u := by simpa using hcs
      refine iff_of_true rfl fun heq => ?_
      have hneg : (signOf (fixedText false 2 cs)).1 = true := by
        rw [heq]
        rfl
      rw [signOf_fixedText] at hneg
      cases hneg
    | true =>
      obtain ⟨rfl, rfl⟩ : u = 0 ∧ cs = 0 := by
        simp only [if_true] at hcs
        omega
      exact iff_of_false (by decide) (by decide)
  | inf a => cases a <;> cases hd
  | nan => cases hd
  | snan => cases hd

theorem numUnits_moneyText (h : (numUnits mode s : Except Err Int) = .ok (u : Nat)) :
    (numUnits mode (moneyText mode u) : Except Err Int) = .ok u := by
  cases mode with
  | integer => exact int_natText u
  | decimal =>
    have hlt := toUnits_lt h
    exact (MoneyText.moneyText .decimal (by simpa using hlt)).numUnits

/-! ## Rows -/

/-- `r'` is `r` with its text fields, and its amounts in units. -/
structure Row.Kept (mode : Mode) (r r' : Row) : Prop where
  height : r'.height = r.height
  timestamp : r'.timestamp = r.timestamp
  address : r'.address = r.address
  recipient : r'.recipient = r.recipient
  amount : (numUnits mode r'.amount : Except Err Int) = numUnits mode r.amount
  signature : r'.signature = r.signature
  publicKey : r'.publicKey = r.publicKey
  blockHash : r'.blockHash = r.blockHash
  fee : (numUnits mode r'.fee : Except Err Int) = numUnits mode r.fee
  reward : (numUnits mode r'.reward : Except Err Int) = numUnits mode r.reward
  operation : r'.operation = r.operation
  openfield : r'.openfield = r.openfield

/-- What is read back is kept unless the sign of a zero timestamp is lost. -/
theorem Row.ReadsBack.kept_iff (h : Row.ReadsBack mode forkHeight r r') (hts : ∃ x, r.timestamp = formatFixed 2 x) :
    Row.Kept mode r r' ↔ (postFork forkHeight r.height → r.timestamp ≠ "-0.00".toList) := by
  rw [Row.ReadsBack] at h
  split at h <;> rename_i hfork
  · obtain ⟨cs, ua, uf, ur, hcs, ha, hf, hr, rfl⟩ := h
    have hback := timestampText_of_v2TsCs hts hcs
    refine ⟨fun hkept _ => hback.1 hkept.timestamp, fun hne => ?_⟩
    exact ⟨rfl, hback.2 (hne hfork), rfl, rfl, (numUnits_moneyText ha).trans ha.symm, rfl, rfl, rfl,
      (numUnits_moneyText hf).trans hf.symm, (numUnits_moneyText hr).trans hr.symm, rfl, rfl⟩
  · cases h
    exact iff_of_true ⟨rfl, rfl, rfl, rfl, rfl, rfl, rfl, rfl, rfl, rfl, rfl, rfl⟩ fun hf => absurd hf hfork

/-! ## Later writes -/

theorem rollbackBlock_keys (h : rollbackBlock P mode fh st acc removed k = .ok (st', acc', removed')) :
    st'.pk = st.pk ∧ st'.pkr = st.pkr := by
  rw [rollbackBlock] at h
  split at h
  · cases h
  · simp only [Except.bind_eq_ok, Prod.exists] at h
    obtain ⟨rows, -, st₁, acc₁, hidx, txcount, -, typed, -, h⟩ := h
    obtain ⟨es, pkref, -, -, -, rfl⟩ := indexRows_ok hidx
    cases h
    exact ⟨rfl, rfl⟩

theorem rollbackBlocks_keys (h : rollbackBlocks P mode fh st acc removed ks = .ok (st', acc', removed')) :
    st'.pk = st.pk ∧ st'.pkr = st.pkr := by
  induction ks generalizing st acc removed with
  | nil =>
    cases h
    exact ⟨rfl, rfl⟩
  | cons k ks ih =>
    simp only [rollbackBlocks, Except.bind_eq_ok, Prod.exists] at h
    obtain ⟨st₁, acc₁, removed₁, h1, h⟩ := h
    rw [(ih h).1, (ih h).2]
    exact rollbackBlock_keys h1

theorem rollback_keys (h : rollback P mode st k forkHeight = .ok (st', removed)) :
    st'.pk = st.pk ∧ st'.pkr = st.pkr := by
  simp only [rollback, Except.bind_eq_ok, Prod.exists] at h
  obtain ⟨start, -, st₁, acc, removed₁, hblocks, bal, -, h⟩ := h
  obtain ⟨hpk, hpkr⟩ := rollbackBlocks_keys hblocks
  split at h <;> cases h <;> exact ⟨hpk, hpkr⟩

/-- A commit of any rows, or a rollback that leaves what is at or below `floor`. -/
inductive Writes (P : Prims) (mode : Mode) (keys : Text → Prop) (floor : Int) : Store → Store → Prop
  | commit {hash : Text} {difficulty : Option Val} : (∀ r ∈ rows, keys r.publicKey) →
    commitBlock P mode st n hash rows difficulty forkHeight = .ok st' → Writes P mode keys floor st st'
  | rollback : floor ≤ k → rollback P mode st k forkHeight = .ok (st', removed) → Writes P mode keys floor st st'

def Store.Built (P : Prims) (mode : Mode) (keys : Text → Prop) (st : Store) : Prop :=
  Relation.ReflTransGen (Writes P mode keys (-1)) {} st

theorem commitBlock_keys {hash : Text} {difficulty : Option Val} (hst : KeyTable P keys st) (hd : KeysDistinct P keys)
    (hk : ∀ r ∈ rows, keys r.publicKey) (h : commitBlock P mode st n hash rows difficulty forkHeight = .ok st') :
    KeyTable P keys st' ∧ ∀ {i p}, st.pkr.get? i = some p → st'.pkr.get? i = some p := by
  obtain ⟨st₁, es, pkref, bal, m, -, hbody, -, -, -, -, rfl⟩ := commitBlock_ok h
  obtain ⟨hk1, hpkr⟩ := putBody_keys hst hd hk hbody
  exact ⟨⟨hk1.known, hk1.fresh⟩, hpkr⟩

theorem Writes.keyTable {floor : Int} (h : Writes P mode keys floor st st') (hst : KeyTable P keys st)
    (hd : KeysDistinct P keys) :
    KeyTable P keys st' ∧ ∀ {i p}, st.pkr.get? i = some p → st'.pkr.get? i = some p := by
  cases h with
  | commit hk hc => exact commitBlock_keys hst hd hk hc
  | rollback _ hr =>
    obtain ⟨hpk, hpkr⟩ := rollback_keys hr
    refine ⟨⟨?_, ?_⟩, fun h => by rw [hpkr, h]⟩
    · rw [hpk, hpkr]
      exact hst.known
    · rw [hpk, hpkr]
      exact hst.fresh

theorem Store.Built.keyTable {st : Store} (h : st.Built P mode keys) (hd : KeysDistinct P keys) :
    KeyTable P keys st := by
  induction h with
  | refl =>
    constructor
    · rintro d i ⟨⟩
    · rintro i p ⟨⟩
  | tail _ hstep ih => exact (hstep.keyTable ih hd).1

/-- The block at `n` stays where it is. -/
theorem Writes.blocks {st st' : Store} {n : Nat} (h : Writes P mode keys n st st')
    (hbody : st.blocks.get? n = some body) : st'.blocks.get? n = some body := by
  cases h with
  | commit _ hc =>
    obtain ⟨body', htip, -, hblocks, -⟩ := commitBlock_blocks hc
    obtain ⟨tip, htip', hle⟩ := OrdTable.exists_le_lastKey? hbody
    rw [Store.tip, htip', Option.any_some, decide_eq_false_iff_not, not_not] at htip
    rw [hblocks, OrdTable.get?_put, if_neg (by omega), hbody]
  | rollback hk hr =>
    rename_i k _ _
    obtain ⟨k, rfl⟩ := Int.eq_ofNat_of_zero_le (show 0 ≤ k by omega)
    rw [rollback_blocks hr, OrdTable.get?_filter, hbody, Option.filter_some, if_pos]
    simpa using hk

/-- The block at `n` reads back as `rows`, whatever keys are registered later. -/
def Store.Shows (P : Prims) (mode : Mode) (st : Store) (n : Nat) (rows : List Row) : Prop :=
  ∃ body, st.blocks.get? n = some body ∧ Expands P mode st.pkr n body rows

theorem Store.Shows.later {st st' : Store} (H : st.Shows P mode n rows) (hst : KeyTable P keys st)
    (hd : KeysDistinct P keys) (h : Relation.ReflTransGen (Writes P mode keys n) st st') :
    st'.Shows P mode n rows ∧ KeyTable P keys st' := by
  induction h with
  | refl => exact ⟨H, hst⟩
  | tail _ hstep ih =>
    obtain ⟨⟨body, hbody, hexp⟩, hst⟩ := ih
    obtain ⟨hst', hpkr⟩ := hstep.keyTable hst hd
    exact ⟨⟨body, hstep.blocks hbody, hexp.extend hpkr⟩, hst'⟩

theorem Store.Shows.getBlockRaw {st : Store} (H : st.Shows P mode n rows) (hn : n < 2 ^ 64) :
    st.getBlockRaw P mode n = .ok (some rows) := by
  obtain ⟨body, hbody, hexp⟩ := H
  rw [Store.getBlockRaw, heightKey_natCast hn, Except.ok_bind, Store.rawBlock, hbody]
  simp only [hexp st.pubkey st.reads_pubkey, Except.ok_bind, Except.pure_eq_ok]

theorem commitBlock_shows {hash : Text} {difficulty : Option Val} (hst : KeyTable P keys st)
    (hd : KeysDistinct P keys)
    (hhash : ∀ c ∈ hash, isHexLower c)
    (hrows : ∀ r ∈ rows, r.height = n ∧ r.blockHash = hash ∧ keys r.publicKey)
    (h : commitBlock P mode st n hash rows difficulty forkHeight = .ok st') :
    ∃ rows', List.Forall₂ (Row.ReadsBack mode forkHeight) rows rows' ∧ st'.Shows P mode n rows' := by
  obtain ⟨st₁, es, pkref, bal, m, -, hbody, -, -, -, -, rfl⟩ := commitBlock_ok h
  obtain ⟨body, rows', hblocks, hback, hexp⟩ := putBody_reads hd hst (fun r hr => (hrows r hr).2.2)
    (fun r hr => ⟨(hrows r hr).1, (hrows r hr).2.1⟩) (fun b hb => hex_of_fromHex hhash hb) hbody
  exact ⟨rows', hback, body, by rw [hblocks, OrdTable.get?_put_self], hexp⟩

/-- A block that was committed is read back with the same rows, after any writes that leave it in place, exactly
if it is below the fork or none of its timestamps is `-0.00`. -/
theorem getBlockRaw_commit_iff (hd : KeysDistinct P keys) {st st' : Store} (hst : st.Built P mode keys)
    {n : Nat} {hash : Text} {rows : List Row} {difficulty : Option Val} {forkHeight : Option Nat}
    (hhash : ∀ c ∈ hash, isHexLower c)
    (hrows : ∀ r ∈ rows, r.height = n ∧ r.blockHash = hash ∧ keys r.publicKey ∧ ∃ x, r.timestamp = formatFixed 2 x)
    (h : commitBlock P mode st n hash rows difficulty forkHeight = .ok st') :
    (∀ st'', Relation.ReflTransGen (Writes P mode keys n) st' st'' → ∃ rows',
      st''.getBlockRaw P mode n = .ok (some rows') ∧ List.Forall₂ (Row.Kept mode) rows rows') ↔
    (postFork forkHeight n → ∀ r ∈ rows, r.timestamp ≠ "-0.00".toList) := by
  have hkeys := hst.keyTable hd
  obtain ⟨-, -, hn, -⟩ := commitBlock_blocks h
  obtain ⟨rows', hback, hshows⟩ := commitBlock_shows hkeys hd hhash
    (fun r hr => ⟨(hrows r hr).1, (hrows r hr).2.1, (hrows r hr).2.2.1⟩) h
  have hkept : ∀ r r', r ∈ rows → Row.ReadsBack mode forkHeight r r' →
      (Row.Kept mode r r' ↔ (postFork forkHeight n → r.timestamp ≠ "-0.00".toList)) := by
    intro r r' hr hread
    obtain ⟨hheight, -, -, hts⟩ := hrows r hr
    rw [← hheight]
    exact hread.kept_iff hts
  constructor
  · intro hall hfork r hr
    obtain ⟨rows'', hraw, hkeep⟩ := hall st' .refl
    rw [hshows.getBlockRaw hn] at hraw
    cases hraw
    obtain ⟨r', -, hread, hkept'⟩ := (hback.and hkeep).exists_right hr
    exact (hkept r r' hr hread).1 hkept' hfork
  · intro hts st'' hlater
    have hst' := (commitBlock_keys hkeys hd (fun r hr => (hrows r hr).2.2.1) h).1
    refine ⟨rows', (hshows.later hst' hd hlater).1.getBlockRaw hn, ?_⟩
    refine hback.with_mem.imp ?_
    rintro r r' ⟨hr, -, hread⟩
    exact (hkept r r' hr hread).2 fun hfork => hts hfork r hr

/-- A block of one row, at the fork, from the empty store. -/
theorem getBlockRaw_commit_sample : ∃ st',
    commitBlock .toy .decimal {} 1 (hex [1]) [sampleRow 1 [1] 100 0] none (some 1) = .ok st' ∧
    ((∀ st'', Relation.ReflTransGen (Writes .toy .decimal (· = ['k']) (1 : Nat)) st' st'' → ∃ rows',
      st''.getBlockRaw .toy .decimal (1 : Nat) = .ok (some rows') ∧
        List.Forall₂ (Row.Kept .decimal) [sampleRow 1 [1] 100 0] rows') ↔
    (postFork (some 1) 1 → ∀ r ∈ [sampleRow 1 [1] 100 0], r.timestamp ≠ "-0.00".toList)) := by
  have hok : (commitBlock .toy .decimal {} 1 (hex [1]) [sampleRow 1 [1] 100 0] none (some 1)).toBool = true := by
    decide +kernel
  cases h : commitBlock .toy .decimal {} 1 (hex [1]) [sampleRow 1 [1] 100 0] none (some 1) with
  | error e =>
    rw [h] at hok
    cases hok
  | ok st' =>
    refine ⟨st', rfl, getBlockRaw_commit_iff sample_keysDistinct .refl (by decide) ?_ h⟩
    intro r hr
    rw [List.mem_singleton.1 hr]
    exact ⟨rfl, rfl, rfl, .fin 1 false, by decide +kernel⟩

/-- The timestamp of a packed row that was committed with `-0.00`. -/
theorem getBlockRaw_signed_zero :
    (do
      let st ← commitBlock .toy .decimal {} 1 (hex [1])
        [{ sampleRow 1 [1] 0 0 with timestamp := "-0.00".toList }] none (some 1)
      let rows ← st.getBlockRaw .toy .decimal 1
      return rows.map (·.map Row.timestamp) : Except Err (Option (List Text))) =
    .ok (some ["0.00".toList]) := by decide +kernel

end Bismuth
