import Bismuth.Store.History
import Bismuth.Store.Typed

/-!
# Scans of the indexes

What the queries that go through the signature and the address index find in a ledger.
-/

namespace Bismuth
open Py

variable {P : Prims} {mode : Mode} {keys : Text → Prop} {forkHeight : Option Nat}

/-! ## Rows at positions -/

/-- The typed row `t` is what a reader gets for `r`. -/
def Row.Reads (P : Prims) (mode : Mode) (forkHeight : Option Nat) (n : Nat) (bh : Text) (r : Row)
    (t : TypedRow) : Prop :=
  ∃ r', RowOf P mode forkHeight n bh r r' ∧ typedRow r' = .ok t

theorem typedRow_ok (h : typedRow r = .ok t) :
    numeric r.timestamp = .ok t.timestamp ∧ numeric r.amount = .ok t.amount ∧
      numeric r.fee = .ok t.fee ∧ numeric r.reward = .ok t.reward ∧
      t = { t with
        height := r.height, address := r.address, recipient := r.recipient
        signature := r.signature, publicKey := r.publicKey, blockHash := r.blockHash
        operation := r.operation, openfield := r.openfield } := by
  simp only [typedRow, Except.bind_eq_ok] at h
  obtain ⟨ts, hts, am, ha, fee, hf, rw, hr, h⟩ := h
  cases h
  exact ⟨hts, ha, hf, hr, rfl⟩

theorem Row.Reads.signature (h : Row.Reads P mode forkHeight n bh r t) : t.signature = r.signature := by
  obtain ⟨r', hr, ht⟩ := h
  obtain ⟨-, -, -, -, h⟩ := typedRow_ok ht
  rw [h, ← hr.same.signature]

theorem RowOf.exists_reads (h : RowOf P mode forkHeight n bh r r') :
    ∃ t, typedRow r' = .ok t ∧ Row.Reads P mode forkHeight n bh r t := by
  obtain ⟨t, ht⟩ := h.stored.typedRow
  exact ⟨t, ht, r', h, ht⟩

namespace Ledger.Good
variable {l : Ledger}

theorem exists_rowAt (H : l.Good P mode keys forkHeight) (hb : b ∈ l.chain)
    {idx : Nat} (hr : b.rows[idx]? = some r) :
    ∃ t, l.store.rowAt P mode (b.height, idx) = .ok (some t) ∧
      Row.Reads P mode forkHeight b.height (hex b.digest) r t := by
  have hlt := H.height_lt hb
  obtain ⟨read, hread, H⟩ := H
  obtain ⟨b', hb', hs⟩ := hread.exists_right hb
  obtain ⟨body, hbody, hl⟩ := H.get? hb'
  obtain ⟨r', hr', hrow⟩ : ∃ r', b'.rows[idx]? = some r' ∧
      RowOf P mode forkHeight b.height (hex b.digest) r r' := by
    have h := List.forall₂_iff_get.1 hs.rows
    obtain ⟨hi, rfl⟩ := List.getElem?_eq_some_iff.1 hr
    have hi' : idx < b'.rows.length := h.1 ▸ hi
    exact ⟨b'.rows[idx], List.getElem?_eq_getElem hi', h.2 idx hi hi'⟩
  obtain ⟨t, ht, hreads⟩ := hrow.exists_reads
  refine ⟨t, ?_, hreads⟩
  have hraw : l.store.getBlockRaw P mode b.height = .ok (some b'.rows) := by
    rw [Store.getBlockRaw, heightKey_natCast (by omega), Except.ok_bind, Store.rawBlock]
    rw [hs.height] at hbody
    rw [hbody, ← hs.height]
    simp only [hl.expands _ l.store.reads_pubkey, Except.ok_bind]
    rfl
  simp only [Store.rowAt, hraw, Except.ok_bind, Option.bind_some, hr', ht]
  rfl

theorem of_rowAt (H : l.Good P mode keys forkHeight) {pos : Pos}
    (h : l.store.rowAt P mode pos = .ok (some t)) :
    ∃ b ∈ l.chain, ∃ r ∈ b.rows, Row.Reads P mode forkHeight b.height (hex b.digest) r t := by
  obtain ⟨n, idx⟩ := pos
  obtain ⟨read, hread, H⟩ := H
  simp only [Store.rowAt, Store.getBlockRaw, Except.bind_eq_ok] at h
  obtain ⟨rows, ⟨k, -, hrows⟩, h⟩ := h
  simp only [Store.rawBlock] at hrows
  split at hrows
  · rename_i body hbody
    simp only [Except.bind_eq_ok] at hrows
    obtain ⟨rows', hexp, hrows⟩ := hrows
    cases hrows
    obtain ⟨b', hb', hl⟩ := H.of_get? hbody
    obtain ⟨b, hb, hs⟩ := hread.exists_left hb'
    obtain rfl : k = b'.height := hl.height
    rw [hl.expands _ l.store.reads_pubkey] at hexp
    cases hexp
    rw [Option.bind_some] at h
    split at h
    · rename_i r' hr'
      simp only [Except.bind_eq_ok] at h
      obtain ⟨t', ht, h⟩ := h
      cases h
      obtain ⟨r, hr, hrow⟩ := hs.rows.exists_left (List.mem_of_getElem? hr')
      exact ⟨b, hb, r, hr, r', hrow, ht⟩
    · cases h
  · cases hrows
    cases h

end Ledger.Good

/-! ## Collecting rows -/

/-- The first `limit` elements, or all of them for the limit zero. -/
def limited (limit : Nat) (l : List α) : List α := if limit = 0 then l else l.take limit

theorem collectRows_of_forall₂ {st : Store} (keep : TypedRow → Bool) {ps : List Pos}
    {ts : List TypedRow} (h : List.Forall₂ (fun pos t => st.rowAt P mode pos = .ok (some t)) ps ts)
    (limit : Nat) : st.collectRows P mode keep limit ps = .ok (limited limit (ts.filter keep)) := by
  induction h generalizing limit with
  | nil => simp [Store.collectRows, limited]
  | @cons pos t ps ts ht _ ih =>
    rw [Store.collectRows, ht, Except.ok_bind]
    cases hk : keep t with
    | false => simp only [Bool.false_eq_true, if_false, ih, List.filter_cons, hk]
    | true =>
      simp only [if_true, List.filter_cons, hk]
      rcases limit with _ | _ | limit
      · simp [ih, limited]
      · simp [limited]
      · simp [ih, limited]

theorem exists_of_mem_collectRows {st : Store} {keep : TypedRow → Bool} {ps : List Pos}
    (h : st.collectRows P mode keep limit ps = .ok ts) (ht : t ∈ ts) :
    ∃ pos ∈ ps, st.rowAt P mode pos = .ok (some t) := by
  induction ps generalizing limit ts with
  | nil =>
    cases h
    cases ht
  | cons pos ps ih =>
    have hrest : ∀ {limit ts}, st.collectRows P mode keep limit ps = .ok ts → t ∈ ts →
        ∃ p ∈ pos :: ps, st.rowAt P mode p = .ok (some t) := fun h ht => by
      obtain ⟨p, hp, hpt⟩ := ih h ht
      exact ⟨p, by simp [hp], hpt⟩
    simp only [Store.collectRows, Except.bind_eq_ok] at h
    obtain ⟨o, ho, h⟩ := h
    cases o with
    | none => exact hrest h ht
    | some t' =>
      dsimp only at h
      split at h
      · split at h
        · cases h
          rw [List.mem_singleton.1 ht]
          exact ⟨pos, by simp, ho⟩
        · simp only [Except.bind_eq_ok] at h
          obtain ⟨ts', hts', h⟩ := h
          cases h
          rcases List.mem_cons.1 ht with rfl | ht
          · exact ⟨pos, by simp, ho⟩
          · exact hrest hts' ht
      · exact hrest h ht

/-! ## Signatures -/

namespace Ledger.Good
variable {l : Ledger}

theorem exists_entries (H : l.Good P mode keys forkHeight) (hb : b ∈ l.chain) :
    ∃ es, indexEntries P mode b.height forkHeight b.rows = .ok es := by
  obtain ⟨read, hread, H⟩ := H
  obtain ⟨b', hb', hs⟩ := hread.exists_right hb
  obtain ⟨es, hes⟩ := (H.ok b' hb').indexed
  exact ⟨es, by rw [← hes, ← hs.height, hs.sameRows.indexEntries]⟩

/-- The positions of the signature index are those of the rows with such a signature. -/
theorem mem_sigScan (H : l.Good P mode keys forkHeight) {pre : Bytes} {pos : Pos} :
    pos ∈ l.store.sigScan pre ↔ ∃ b ∈ l.chain, ∃ (idx : Nat) (r : Row), b.rows[idx]? = some r ∧
      indexableSig r.signature ∧ pos = ((b.height : Int), idx) ∧
      ∃ q, posKey b.height idx = (.ok q : Except Err Bytes) ∧
        pre.isPrefixOf (sigPrefix r.signature ++ q) := by
  have hsig := H.exact.sig
  simp only [Store.sigScan, List.mem_map, List.mem_filter, Prod.exists]
  constructor
  · rintro ⟨k, ⟨⟩, ⟨hk, hpre⟩, rfl⟩
    obtain ⟨b, hb, hkeys⟩ := (hsig k ()).1 (OrdTable.mem_entries.1 hk)
    obtain ⟨e, he, hke⟩ := List.mem_filterMap.1 hkeys
    obtain ⟨idx, r, hr, hi⟩ := LiveBlock.exists_of_mem_entries he
    obtain ⟨q, _, _, _, hq, -, -, -, hs, -⟩ := indexEntry_ok hi
    rw [hke] at hs
    split at hs <;> cases hs
    rename_i hind
    exact ⟨b, hb, idx, r, hr, hind, splitPos_append hq _, q, hq, hpre⟩
  · rintro ⟨b, hb, idx, r, hr, hind, rfl, q, hq, hpre⟩
    refine ⟨sigPrefix r.signature ++ q, (), ⟨?_, hpre⟩, splitPos_append hq _⟩
    rw [OrdTable.mem_entries, hsig]
    obtain ⟨es, hes⟩ := H.exists_entries hb
    obtain ⟨e, he, hi⟩ := LiveBlock.exists_mem_entries hes hr
    obtain ⟨q', _, _, _, hq', -, -, -, hs, -⟩ := indexEntry_ok hi
    obtain rfl : q = q' := Except.ok.inj (hq.symm.trans hq')
    rw [if_pos hind] at hs
    exact ⟨b, hb, List.mem_filterMap.2 ⟨e, by rwa [LiveBlock.entries_eq hes], hs⟩⟩

theorem signatureExists (H : l.Good P mode keys forkHeight) (s : Text) (maxHeight : Option Int) :
    ∃ found, l.store.signatureExists P mode s maxHeight = .ok found ∧
      (found ↔ ∃ b ∈ l.chain, maxHeight.all ((b.height : Int) ≤ ·) ∧ ∃ r ∈ b.rows,
        indexableSig s ∧ r.signature = s) := by
  set ps := (l.store.sigScan (sigPrefix s)).filter fun pos => maxHeight.all (pos.1 ≤ ·) with hps
  have hmem : ∀ pos ∈ ps, ∃ t, l.store.rowAt P mode pos = .ok (some t) ∧ ∃ b ∈ l.chain,
      maxHeight.all ((b.height : Int) ≤ ·) ∧ ∃ r ∈ b.rows, indexableSig r.signature ∧
        t.signature = r.signature := by
    intro pos hpos
    obtain ⟨hscan, hmax⟩ := List.mem_filter.1 hpos
    obtain ⟨b, hb, idx, r, hr, hind, rfl, -⟩ := H.mem_sigScan.1 hscan
    obtain ⟨t, ht, hreads⟩ := H.exists_rowAt hb hr
    exact ⟨t, ht, b, hb, hmax, r, List.mem_of_getElem? hr, hind, hreads.signature⟩
  obtain ⟨ts, hts⟩ := List.Forall₂.exists_of_forall hmem
  have hcol := collectRows_of_forall₂ (·.signature = s) (hts.imp fun _ _ h => h.1) 1
  refine ⟨_, by rw [Store.signatureExists, Store.signatureRows, ← hps, hcol]; rfl, ?_⟩
  have hne : limited 1 (ts.filter (·.signature = s)) ≠ [] ↔ ∃ t ∈ ts, t.signature = s := by
    rw [limited, if_neg one_ne_zero, ne_eq, List.take_eq_nil_iff]
    simp
  rw [decide_eq_true_eq, hne]
  constructor
  · rintro ⟨t, ht, rfl⟩
    obtain ⟨pos, -, -, b, hb, hmax, r, hr, hind, hsig⟩ := hts.exists_left ht
    exact ⟨b, hb, hmax, r, hr, hsig ▸ hind, hsig.symm⟩
  · rintro ⟨b, hb, hmax, r, hr, hind, rfl⟩
    obtain ⟨idx, hidx⟩ := List.mem_iff_getElem?.1 hr
    obtain ⟨es, hes⟩ := H.exists_entries hb
    obtain ⟨e, -, hi⟩ := LiveBlock.exists_mem_entries hes hidx
    obtain ⟨q, _, _, _, hq, -⟩ := indexEntry_ok hi
    have hpos : ((b.height : Int), idx) ∈ ps := by
      refine List.mem_filter.2 ⟨H.mem_sigScan.2 ⟨b, hb, idx, r, hidx, hind, rfl, q, hq, ?_⟩, hmax⟩
      simp
    obtain ⟨t, ht, hrow, -⟩ := hts.exists_right hpos
    obtain ⟨t', hrow', hreads⟩ := H.exists_rowAt hb hidx
    obtain rfl : t = t' := Option.some.inj (Except.ok.inj (hrow.symm.trans hrow'))
    exact ⟨t, ht, hreads.signature⟩

end Ledger.Good

/-! ## Rewards -/

theorem Ledger.Good.rewardUnitsSince_nonneg {l : Ledger} (H : l.Good P mode keys forkHeight)
    (h : l.store.rewardUnitsSince P mode a above = .ok u) : 0 ≤ u := by
  simp only [Store.rewardUnitsSince, Except.bind_eq_ok] at h
  obtain ⟨ps, -, ts, hts, us, hus, h⟩ := h
  cases h
  refine List.sum_nonneg fun w hw => ?_
  obtain ⟨t, ht, hunits⟩ := Except.exists_of_mem_mapM hus hw
  obtain ⟨pos, -, hpos⟩ := exists_of_mem_collectRows hts ht
  obtain ⟨b, -, r, -, r', hrow, htyped⟩ := H.of_rowAt hpos
  obtain ⟨-, -, -, hreward, -⟩ := typedRow_ok htyped
  obtain ⟨u, hu⟩ := hrow.stored.reward
  exact units_nonneg (hu.numeric_nonneg hreward) hunits

end Bismuth
