import Bismuth.Store.Scan
import Bismuth.Token.Backfill

/-!
# The ledger as the plugin scans it

`scan_ledger_operations` reads typed rows from the block store. In a ledger that the digester writes they say
what the rows said that `on_block` was given.
-/

namespace Bismuth
open Py

/-! ## Rewards -/

theorem toFloat_natCast_isZero {n : Nat} (h : ((Val.int n).toFloat : Except Err Number) = .ok x) :
    x.isZero = decide (n = 0) := by
  have hz := toDouble_isZero (q := (n : ℚ)) two_zpow_le_natCast false
  rw [Val.toFloat, Int.cast_natCast] at h
  cases hd : toDouble (n : ℚ) false with
  | inf => rw [hd] at h; cases h
  | fin =>
    rw [hd] at h hz
    cases h
    simpa using hz
  | nan =>
    rw [hd] at h hz
    cases h
    simpa using hz
  | snan =>
    rw [hd] at h hz
    cases h
    simpa using hz

theorem rewardIsZero_natCast {n : Nat} (h : n < 2 ^ 200) : rewardIsZero (.int n) = decide (n = 0) := by
  have hlt : |((n : ℕ) : ℚ)| < 2 ^ 200 := by
    rw [abs_of_nonneg (by positivity)]
    exact_mod_cast h
  have hok : ((Val.int n).toFloat : Except Err Number) =
      .ok (.fin (binary64.round n) (isNeg (n : ℚ) false)) := by
    rw [Val.toFloat, Int.cast_natCast, toDouble_of_lt hlt]
    rfl
  have hz := toFloat_natCast_isZero hok
  rw [rewardIsZero, hok]
  simpa using hz

theorem rewardIsZero_typedFloat {q : ℚ} (h : 0 ≤ q) (z : Bool) :
    rewardIsZero (typedFloat (.fin q z)) = decide (q = 0) := by
  rw [typedFloat]
  split
  · rename_i hint
    rw [Bool.and_eq_true, fitsI64, Bool.and_eq_true] at hint
    have hq : (q.num : ℚ) = q := Rat.coe_int_num_of_den_eq_one (of_decide_eq_true hint.1)
    have hlt : q.num < 2 ^ 63 := by
      have := of_decide_eq_true hint.2.2
      rw [← hq] at this
      exact_mod_cast this
    have hnum : ((q.num.toNat : ℕ) : ℤ) = q.num := Int.toNat_of_nonneg (Rat.num_nonneg.2 h)
    have hz : q.num.toNat = 0 ↔ q = 0 := by
      rw [← Rat.num_eq_zero]
      omega
    rw [← hnum, rewardIsZero_natCast (by omega), decide_eq_decide, hz]
  · rw [rewardIsZero, Val.toFloat]
    simp [Number.isZero]

namespace MoneyText

theorem rewardIsZero (h : MoneyText mode s u) : rewardIsZero (.str s) = decide (u = 0) := by
  obtain ⟨q, z, hf, hq, hu⟩ := h.float
  rw [Bismuth.rewardIsZero, Val.toFloat, hf]
  simp [h.ne_nil, toDouble_isZero hq, hu]

theorem numeric_natText_isZero {n : Nat} (hn : n < 2 ^ 200) (h : Bismuth.numeric (natText n) = .ok v) :
    Bismuth.rewardIsZero v = decide (n = 0) := by
  rw [numeric_natText_eq] at h
  split at h
  · cases h
    exact rewardIsZero_natCast hn
  · cases hx : (Val.int n).toFloat with
    | error => rw [hx] at h; cases h
    | ok x =>
      rw [hx] at h
      cases h
      rw [Bismuth.rewardIsZero, Val.toFloat]
      simpa using toFloat_natCast_isZero hx

theorem numeric_isZero (h : MoneyText mode s u) (hv : Bismuth.numeric s = .ok v) :
    Bismuth.rewardIsZero v = decide (u = 0) := by
  have hsmall : u < 2 ^ 200 := h.1.trans (by norm_num)
  cases mode with
  | integer =>
    obtain ⟨-, rfl⟩ := h
    exact numeric_natText_isZero hsmall hv
  | decimal =>
    obtain ⟨-, ⟨neg, hneg, rfl⟩ | ⟨n, rfl, rfl⟩⟩ := h
    · have hval : fixedVal neg 8 u = bis u := fixedVal_eight hneg
      have hlt : |bis u| < 2 ^ 200 := by
        have : (u : ℚ) < 2 ^ 200 := by exact_mod_cast hsmall
        rw [bis, abs_of_nonneg (by positivity), div_lt_iff₀ (by norm_num)]
        exact this.trans (by norm_num)
      have hzero : binary64.round (bis u) = 0 ↔ u = 0 := by
        constructor
        · intro h0
          by_contra hne
          exact (round_bis_pos hne).ne' h0
        · rintro rfl
          simp [bis]
      rw [numeric_fixedText_eq neg (by decide), hval, toDouble_of_lt hlt] at hv
      cases hv
      rw [rewardIsZero_typedFloat (binary64.round_nonneg (by rw [bis]; positivity)), decide_eq_decide, hzero]
    · rw [numeric_natText_isZero (by omega) hv]
      simp

end MoneyText

/-! ## Rows and blocks -/

namespace TokensAliases
variable {P : Prims} {mode : Mode} {keys : Text → Prop} {forkHeight : Option Nat}

theorem Agree.of_reads (hr : Row.Stored mode n bh r) (h : Row.Reads P mode forkHeight n bh r t) :
    Agree (n, r) t := by
  obtain ⟨r', hrow, ht⟩ := h
  obtain ⟨-, -, -, hreward, heq⟩ := typedRow_ok ht
  obtain ⟨u, hu⟩ := hr.reward
  obtain ⟨u', hu'⟩ := hrow.stored.reward
  have huu : (u' : ℤ) = u := by
    have := hrow.same.reward
    rw [hu'.units, hu.units] at this
    exact Except.ok.inj this
  have hop : r'.operation = r.operation ∧ r'.openfield = r.openfield := by
    have hback := hrow.back
    rw [Row.ReadsBack] at hback
    split at hback
    · obtain ⟨cs, ua, uf, ur, -, -, -, -, rfl⟩ := hback
      exact ⟨rfl, rfl⟩
    · rw [hback]
      exact ⟨rfl, rfl⟩
  rw [heq]
  refine ⟨hrow.stored.height, hrow.same.address, hrow.same.recipient, hrow.same.signature, hop.1, hop.2, ?_⟩
  rw [hu'.numeric_isZero hreward, hu.rewardIsZero, decide_eq_decide]
  omega

theorem exists_mapM_filter {R : α → β → Prop} {S : α → γ → Prop} {f : β → Except ε γ} {p : α → Bool}
    {q : β → Bool} {as : List α} {bs : List β} (hR : List.Forall₂ R as bs)
    (h : ∀ a ∈ as, ∀ b, R a b → p a = q b ∧ ∃ c, f b = .ok c ∧ S a c) :
    ∃ cs, (bs.filter q).mapM f = .ok cs ∧ List.Forall₂ S (as.filter p) cs := by
  induction hR with
  | nil => exact ⟨[], rfl, .nil⟩
  | @cons a b as bs hab _ ih =>
    obtain ⟨cs, hcs, hS⟩ := ih fun a ha => h a (by simp [ha])
    obtain ⟨hpq, c, hc, hac⟩ := h a (by simp) b hab
    cases hp : p a with
    | true =>
      rw [List.filter_cons_of_pos (p := p) hp, List.filter_cons_of_pos (p := q) (hpq ▸ hp), List.mapM_cons, hc, hcs]
      exact ⟨c :: cs, rfl, .cons hac hS⟩
    | false =>
      have hq : q b = false := hpq ▸ hp
      rw [List.filter_cons_of_neg (p := p) (by simp [hp]), List.filter_cons_of_neg (p := q) (by simp [hq])]
      exact ⟨cs, hcs, hS⟩

theorem exists_typedRows (hrows : ∀ r ∈ rows, Row.Stored mode n bh r)
    (h : List.Forall₂ (RowOf P mode forkHeight n bh) rows rows') :
    ∃ ts, rows'.mapM typedRow = .ok ts ∧ List.Forall₂ Agree (rows.map (n, ·)) ts := by
  induction h with
  | nil => exact ⟨[], rfl, .nil⟩
  | @cons r r' rows rows' hr _ ih =>
    obtain ⟨ts, hts, hagree⟩ := ih fun r hr => hrows r (by simp [hr])
    obtain ⟨t, ht, hreads⟩ := hr.exists_reads
    refine ⟨t :: ts, ?_, .cons (.of_reads (hrows r (by simp)) hreads) hagree⟩
    rw [List.mapM_cons, ht, hts]
    rfl

/-- The blocks of a ledger as `on_block` is given them. -/
def blocksOf (l : Ledger) : List (Nat × List Row) := l.chain.map fun b => (b.height, b.rows)

theorem stores_of_good {l : Ledger} (H : l.Good P mode keys forkHeight)
    (hrows : ∀ b ∈ l.chain, ∀ r ∈ b.rows, Row.Stored mode b.height (hex b.digest) r) :
    Stores P mode l.store (blocksOf l) := by
  intro height hh
  have htip := H.exact.tip
  have hsorted := H.sorted
  have hlt := fun b => H.height_lt (b := b)
  cases hlast : l.chain.getLast? with
  | none =>
    rw [htip, hlast, blocksOf, List.getLast?_eq_none_iff.1 hlast]
    exact ⟨[], rfl, .nil⟩
  | some last =>
    have hmem : last ∈ l.chain := List.mem_of_getLast? hlast
    have hle : ∀ b ∈ l.chain, b.height ≤ last.height := by
      intro b hb
      obtain ⟨init, hinit⟩ := List.getLast?_eq_some_iff.1 hlast
      rw [hinit] at hb hsorted
      rcases List.mem_append.1 hb with hb | hb
      · exact ((List.pairwise_append.1 hsorted).2.2 b hb last (by simp)).le
      · rw [List.mem_singleton.1 hb]
    have hlast64 := hlt last hmem
    obtain ⟨read, hread, HI⟩ := H
    have hpairs : List.Forall₂ (fun b e => ∃ b', b.Shows P mode forkHeight b' ∧
        LiveBody P mode l.store.pkr e b') l.chain l.store.blocks.entries :=
      hread.comp HI.blocks.flip fun hs hl => ⟨_, hs, hl⟩
    have hlo : heightKey (max 0 (height : ℤ)) = .ok height := by
      rw [max_eq_right (by omega), heightKey_natCast hh]
    have hhi : heightKey ((last.height : ℤ) + 1) = .ok (last.height + 1) :=
      heightKey_natCast (n := last.height + 1) (by omega)
    obtain ⟨tbs, htbs, hagree⟩ : ∃ tbs, Store.typedBlocks P mode l.store
          (l.store.blocks.entries.filter fun e => height ≤ e.1 ∧ e.1 < last.height + 1) = .ok tbs ∧
        List.Forall₂ (fun b t => List.Forall₂ Agree (b.rows.map (b.height, ·)) t.2)
          (l.chain.filter (height ≤ ·.height)) tbs := by
      refine exists_mapM_filter hpairs ?_
      rintro b hb e ⟨b', hs, hl⟩
      have heq : e.1 = b.height := hl.height.trans hs.height
      have hb' := hle b hb
      refine ⟨by rw [heq, decide_eq_decide]; omega, ?_⟩
      obtain ⟨ts, hts, hagree⟩ := exists_typedRows (hrows b hb) hs.rows
      refine ⟨(e.1, ts), ?_, hagree⟩
      have hexp := hl.expands _ l.store.reads_pubkey
      rw [← hl.height] at hexp
      simp only [hexp, Except.ok_bind, hts]
      rfl
    refine ⟨tbs, ?_, ?_⟩
    · rw [htip, hlast]
      simp only [Option.map_some, Store.blocksInRange, hlo, hhi, Except.ok_bind]
      exact htbs
    · rw [blocksOf, List.filter_map, List.forall₂_map_left_iff]
      exact hagree

open Relation in
theorem stored_of_history {l : Ledger} (h : ReflTransGen (Step P mode keys forkHeight) ∅ l) :
    ∀ b ∈ l.chain, ∀ r ∈ b.rows, Row.Stored mode b.height (hex b.digest) r := by
  induction h with
  | refl => simp [EmptyCollection.emptyCollection]
  | tail _ hs ih =>
    cases hs with
    | commit difficulty hnew =>
      intro b hb
      rcases List.mem_append.1 hb with hb | hb
      · exact ih b hb
      · rw [List.mem_singleton.1 hb]
        exact hnew.stored
    | rollback => exact fun b hb => ih b (List.mem_of_mem_filter hb)
    | setAllocations => exact ih

theorem length_rowsOf (blocks : List (Nat × List Row)) :
    (rowsOf blocks).length = (blocks.flatMap Prod.snd).length := by
  simp [rowsOf, List.length_flatMap]

theorem length_issuePart_le (E : Env) (x : Nat × Row) : (issuePart E x).length ≤ 1 := by
  rw [issuePart, issueRowActs]
  split
  · exact length_issueActs_le ..
  · exact Nat.zero_le _

theorem length_transferPart_le (E : Env) (x : Nat × Row) : (transferPart E x).length ≤ 1 := by
  rw [transferPart]
  split <;> simp

theorem length_legacyPart_le (x : Nat × Row) : (legacyPart x).length ≤ 1 := by
  rw [legacyPart]
  split <;> simp

theorem length_opsPart_le (x : Nat × Row) : (opsPart x).length ≤ 1 := by
  rw [opsPart]
  split
  · exact length_aliasCalls_le ..
  · exact Nat.zero_le _

theorem length_sortedActs_le (E : Env) (blocks : List (Nat × List Row)) :
    (sortedActs E blocks).length ≤ 4 * (rowsOf blocks).length := by
  have h1 := length_flatMap_le_one (length_issuePart_le E) (rowsOf blocks)
  have h2 := length_flatMap_le_one (length_transferPart_le E) (rowsOf blocks)
  have h3 := length_flatMap_le_one length_legacyPart_le (rowsOf blocks)
  have h4 := length_flatMap_le_one length_opsPart_le (rowsOf blocks)
  simp only [sortedActs, List.length_append, List.length_map]
  omega

open Relation in
/-- In every ledger whose rows are orderly, `backfill` of an empty store gives the registrations, the balances
and the owners that `on_block` gives block after block. -/
theorem backfill_eq_onBlocks (E : Env) (hd : KeysDistinct P keys) {l : Ledger}
    (h : ReflTransGen (Step P mode keys forkHeight) ∅ l) (ho : Orderly E (blocksOf l))
    (hcount : (rowsOf (blocksOf l)).length < 2 ^ 62) :
    ∃ ti, backfill E P mode l.store {} = .ok ti ∧ ti.tokreg = (onBlocks E (blocksOf l)).tokreg ∧
      (∀ token party, NulFree token → NulFree party →
        ti.tokenBalance token party = (onBlocks E (blocksOf l)).tokenBalance token party) ∧
      ∀ name, ti.aliasOwner name = (onBlocks E (blocksOf l)).aliasOwner name := by
  have hst : Stores P mode l.store (blocksOf l) := stores_of_good (good_of_history hd h) (stored_of_history h)
  have hempty : ({} : TokenIndex).seq = 0 := rfl
  have hlen := length_chainActs_le (E := E) (blocksOf l)
  rw [← length_rowsOf] at hlen
  have hlive := Tracks.empty.applyAll (chainActs E (blocksOf l)) (by omega) (asks_chainActs ho)
  rw [← onBlocks_eq] at hlive
  have hlen' := length_sortedActs_le E (blocksOf l)
  have hsorted := Tracks.empty.applyAll (sortedActs E (blocksOf l)) (by omega) (asks_sortedActs ho)
  have hperm := (sortedActs_ledger ho).symm
  have hnames := hlive.names
  rw [sortedActs_names ho] at hnames
  exact ⟨_, backfill_eq hst fun x hx hop => (ho.transfers x hx hop).1,
    hsorted.follows.tokreg_eq hlive.follows hperm,
    fun _ _ => hsorted.follows.tokenBalance_eq hlive.follows hperm,
    hsorted.names.aliasOwner_eq hnames⟩

/-! ## Two blocks -/

/-- The rows of a block as the digester writes them, by party, operation and openfield. -/
def tokenRows (n : Nat) (digest : Bytes) (xs : List (Char × Text × Text)) : List Row :=
  xs.mapIdx fun i x => { sampleRow n digest 100 0 with
    address := hexAddress x.1, recipient := hexAddress x.1
    signature := ['s', Nat.digitChar n, Nat.digitChar i], operation := x.2.1, openfield := x.2.2 }

theorem tokenRows_new (n : Nat) (digest : Bytes) {xs : List (Char × Text × Text)} (h : xs ≠ []) :
    NewBlock .decimal (· = ['k']) n digest (tokenRows n digest xs) := by
  have hs : Row.Stored .decimal n (hex digest) (sampleRow n digest 100 0) :=
    sampleRow_stored (by norm_num) (by norm_num)
  refine ⟨by simpa [tokenRows] using h, fun r hr => ?_, fun r hr => ?_⟩
  · obtain ⟨i, hi, rfl⟩ := List.mem_mapIdx.1 hr
    exact ⟨hs.height, hs.blockHash, hs.timestamp, ⟨by simp [hexAddress], by simp [hexAddress]⟩,
      ⟨by simp [hexAddress], by simp [hexAddress]⟩, hs.amount, hs.fee, hs.reward⟩
  · obtain ⟨i, hi, rfl⟩ := List.mem_mapIdx.1 hr
    rfl

def pairStore (xs ys : List (Char × Text × Text)) : Except Err Store := do
  let st ← commitBlock .toy .decimal {} 1 (hex [1]) (tokenRows 1 [1] xs) none none
  commitBlock .toy .decimal st 2 (hex [2]) (tokenRows 2 [2] ys) none none

def pairBlocks (xs ys : List (Char × Text × Text)) : List (Nat × List Row) :=
  [(1, tokenRows 1 [1] xs), (2, tokenRows 2 [2] ys)]

open Relation in
theorem pair_history {xs ys : List (Char × Text × Text)} (hx : xs ≠ []) (hy : ys ≠ [])
    (h : pairStore xs ys = .ok st) : ∃ l : Ledger, l.store = st ∧ blocksOf l = pairBlocks xs ys ∧
      ReflTransGen (Step .toy .decimal (· = ['k']) none) ∅ l := by
  obtain ⟨st₁, h₁, h₂⟩ := Except.bind_eq_ok.1 h
  refine ⟨_, ?_, ?_, .tail (.single (.commit none (tokenRows_new _ _ hx) (by simp) h₁))
    (.commit none (tokenRows_new _ _ hy) (by simp) h₂)⟩
  · rfl
  · rfl

def spentPair : List (Nat × List Row) :=
  pairBlocks [('a', opIssue, "t:9".toList)] [('a', opTransfer, "t:3".toList)]

theorem spentPair_orderly : Orderly .ascii spentPair :=
  ⟨by decide, by decide +kernel, by decide +kernel, by decide +kernel, by decide +kernel⟩

open Relation in
theorem backfill_eq_onBlocks_sample : ∃ l ti,
    ReflTransGen (Step .toy .decimal (· = ['k']) none) ∅ l ∧ blocksOf l = spentPair ∧
    backfill .ascii .toy .decimal l.store {} = .ok ti ∧
    ti.tokreg = (onBlocks .ascii (blocksOf l)).tokreg ∧
    ti.tokenBalance ['t'] (hexAddress 'a') = (onBlocks .ascii (blocksOf l)).tokenBalance ['t'] (hexAddress 'a') ∧
    ti.aliasOwner ['x'] = (onBlocks .ascii (blocksOf l)).aliasOwner ['x'] := by
  have hok : (pairStore [('a', opIssue, "t:9".toList)] [('a', opTransfer, "t:3".toList)]).toBool = true := by
    decide +kernel
  cases hst : pairStore [('a', opIssue, "t:9".toList)] [('a', opTransfer, "t:3".toList)] with
  | error => rw [hst] at hok; cases hok
  | ok st =>
    obtain ⟨l, -, hblocks, hhist⟩ := pair_history (by simp) (by simp) hst
    obtain ⟨ti, hback, hreg, hbal, hown⟩ := backfill_eq_onBlocks .ascii sample_keysDistinct hhist
      (hblocks ▸ spentPair_orderly) (by rw [hblocks]; decide +kernel)
    exact ⟨l, ti, hhist, hblocks, hback, hreg, hbal _ _ (by decide) (by decide), hown _⟩

/-- Who has the name `x` after a backfill, and after indexing block by block. -/
def pairOwners (xs ys : List (Char × Text × Text)) : Except Err (Option Text × Option Text) := do
  let ti ← backfill .ascii .toy .decimal (← pairStore xs ys) {}
  return (← ti.aliasOwner ['x'], ← (onBlocks .ascii (pairBlocks xs ys)).aliasOwner ['x'])

theorem pairOwners_claim : pairOwners [('a', opAliasRegister, ['x'])] [('b', ['0'], "alias=x".toList)] =
    .ok (some (hexAddress 'b'), some (hexAddress 'a')) := by decide +kernel

open Relation in
/-- A legacy claim of a name that was registered before is refused when its block is indexed, and taken first
by a backfill. -/
theorem backfill_takes_claims_first : ∃ l ti,
    ReflTransGen (Step .toy .decimal (· = ['k']) none) ∅ l ∧
    blocksOf l = pairBlocks [('a', opAliasRegister, ['x'])] [('b', ['0'], "alias=x".toList)] ∧
    backfill .ascii .toy .decimal l.store {} = .ok ti ∧
    ti.aliasOwner ['x'] = .ok (some (hexAddress 'b')) ∧
    (onBlocks .ascii (blocksOf l)).aliasOwner ['x'] = .ok (some (hexAddress 'a')) := by
  obtain ⟨st, hst, h⟩ := Except.bind_eq_ok.1 pairOwners_claim
  obtain ⟨ti, hti, h⟩ := Except.bind_eq_ok.1 h
  obtain ⟨o, ho, h⟩ := Except.bind_eq_ok.1 h
  obtain ⟨o', ho', h⟩ := Except.bind_eq_ok.1 h
  cases h
  obtain ⟨l, rfl, hblocks, hhist⟩ := pair_history (by simp) (by simp) hst
  exact ⟨l, ti, hhist, hblocks, hti, ho, hblocks ▸ ho'⟩

end TokensAliases

end Bismuth
