import Bismuth.Store.Balance
import Bismuth.Store.Query

/-!
# The index entries of a chain

The live blocks as a list, and what each table has to hold for them.
-/

namespace Bismuth
open Py

/-- A live block: the rows are those that reading its body gives. -/
structure LiveBlock where
  height : Nat
  digest : Bytes
  rows : List Row
  difficulty : Option Text

section
variable (P : Prims) (mode : Mode) (forkHeight : Option Nat)

namespace LiveBlock
variable (b : LiveBlock)

def entries : List IndexEntry :=
  match indexEntries P mode b.height forkHeight b.rows with
  | .ok es => es
  | .error _ => []

def sigKeys : List Bytes := (b.entries P mode forkHeight).filterMap (·.sig)
def addrKeys : List Bytes := (b.entries P mode forkHeight).flatMap (·.addr)
def txidKeys : List Bytes := (b.entries P mode forkHeight).filterMap (·.txid)
def deltas : Acc := (b.entries P mode forkHeight).flatMap (·.deltas)

end LiveBlock

def Registers (k : Bytes) (r : Row) : Bool :=
  !isCoinbaseRow r && strip r.publicKey ≠ [] && abytes r.address = k

def postForkRows (chain : List LiveBlock) : List (Nat × Row) :=
  (chain.filter fun b => postFork forkHeight b.height).flatMap fun b => b.rows.map (b.height, ·)

end

def firstKey (k : Bytes) (rows : List (Nat × Row)) : Option (Nat × Text) :=
  (rows.find? fun e => Registers k e.2).map fun e => (e.1, e.2.publicKey)

def allocAcc (alloc : OrdTable Text Int) : Acc := alloc.entries.map fun e => (e.1, 0, e.2, 0, 0)

/-! ## Positions in keys -/

theorem posKey_ok (h : posKey n idx = (.ok k : Except Err Bytes)) :
    n < 2 ^ 63 ∧ idx < 2 ^ 16 ∧ k = beBytes 8 (n + 2 ^ 63) ++ beBytes 2 idx := by
  simp only [posKey, packBE, Except.bind_eq_ok] at h
  obtain ⟨a, ha, b, hb, h⟩ := h
  split at ha <;> cases ha
  split at hb <;> cases hb
  cases h
  exact ⟨by omega, by omega, rfl⟩

theorem splitPos_append (h : posKey n idx = (.ok k : Except Err Bytes)) (p : Bytes) :
    splitPos (p ++ k) = ((n : Int), idx) := by
  obtain ⟨h1, h2, rfl⟩ := posKey_ok h
  have hlen : (p ++ (beBytes 8 (n + 2 ^ 63) ++ beBytes 2 idx)).length - 10 = p.length := by simp
  simp only [splitPos, hlen, List.drop_left]
  rw [List.take_left' (by simp), List.drop_left' (by simp), beVal_beBytes (by omega),
    beVal_beBytes (by omega)]
  simp

theorem addrKey_ok (h : addrKey role a n idx = (.ok k : Except Err Bytes)) :
    ∃ q, posKey n idx = (.ok q : Except Err Bytes) ∧ k = addrPrefix role a ++ q := by
  simp only [addrKey, Except.bind_eq_ok] at h
  obtain ⟨q, hq, h⟩ := h
  cases h
  exact ⟨q, hq, rfl⟩

/-! ## One row's entry -/

variable {P : Prims} {mode : Mode} {forkHeight : Option Nat}

theorem indexEntry_ok (h : indexEntry P mode n forkHeight idx r = .ok e) :
    ∃ q amt reward fee, posKey n idx = (.ok q : Except Err Bytes) ∧
      units mode (.str r.amount) = (.ok amt : Except Err Int) ∧
      units mode (.str r.reward) = (.ok reward : Except Err Int) ∧
      units mode (.str r.fee) = (.ok fee : Except Err Int) ∧
      e.sig = (if indexableSig r.signature then some (sigPrefix r.signature ++ q) else none) ∧
      e.addr = [addrPrefix .sender r.address ++ q, addrPrefix .recipient r.recipient ++ q] ∧
      e.deltas = [(r.recipient, amt, reward, 0, 0), (r.address, 0, 0, amt, fee)] ∧
      (if postFork forkHeight n then
        ∃ t, txidOf P mode r forkHeight = .ok t ∧ e.txid = some (hashKey t) else e.txid = none) := by
  simp only [indexEntry, Except.bind_eq_ok] at h
  obtain ⟨sig, hsig, s, hs, c, hc, amt, ha, reward, hr, fee, hf, txid, ht, h⟩ := h
  cases h
  obtain ⟨q, hq, rfl⟩ := addrKey_ok hs
  obtain ⟨q', hq', rfl⟩ := addrKey_ok hc
  obtain rfl : q = q' := by rw [hq] at hq'; exact Except.ok.inj hq'
  refine ⟨q, amt, reward, fee, hq, ha, hr, hf, ?_, rfl, rfl, ?_⟩
  · split at hsig
    · rename_i hi
      rw [sigKey, hq] at hsig
      cases hsig
      simp [hi]
    · rename_i hi
      cases hsig
      simp [hi]
  · split at ht
    · rename_i hp
      rw [if_pos hp]
      cases hx : txidOf P mode r forkHeight with
      | error e => rw [hx] at ht; cases ht
      | ok t => rw [hx] at ht; cases ht; exact ⟨t, rfl, rfl⟩
    · rename_i hp
      cases ht
      rw [if_neg hp]

/-! ## One block's entries -/

namespace LiveBlock
variable {b : LiveBlock}

theorem entries_eq (h : indexEntries P mode b.height forkHeight b.rows = .ok es) :
    b.entries P mode forkHeight = es := by simp [entries, h]

theorem exists_of_mem_entries (h : e ∈ b.entries P mode forkHeight) :
    ∃ (idx : Nat) (r : Row), b.rows[idx]? = some r ∧
      indexEntry P mode b.height forkHeight idx r = .ok e := by
  simp only [entries] at h
  split at h
  · rename_i es hes
    obtain ⟨⟨r, idx⟩, hmem, he⟩ := Except.exists_of_mem_mapM hes h
    exact ⟨idx, r, List.mem_zipIdx_iff_getElem?.1 hmem, he⟩
  · simp at h

theorem exists_mem_entries {idx : Nat}
    (h : indexEntries P mode b.height forkHeight b.rows = .ok es) (hr : b.rows[idx]? = some r) :
    ∃ e ∈ es, indexEntry P mode b.height forkHeight idx r = .ok e :=
  Except.exists_mem_of_mapM (a := (r, idx)) h (List.mem_zipIdx_iff_getElem?.2 hr)

theorem splitPos_of_mem_sigKeys (h : k ∈ b.sigKeys P mode forkHeight) :
    (splitPos k).1 = b.height := by
  obtain ⟨e, he, hk⟩ := List.mem_filterMap.1 h
  obtain ⟨idx, r, -, hi⟩ := exists_of_mem_entries he
  obtain ⟨q, _, _, _, hq, -, -, -, hs, -⟩ := indexEntry_ok hi
  rw [hk] at hs
  split at hs <;> cases hs
  rw [splitPos_append hq]

theorem splitPos_of_mem_addrKeys (h : k ∈ b.addrKeys P mode forkHeight) :
    (splitPos k).1 = b.height := by
  obtain ⟨e, he, hk⟩ := List.mem_flatMap.1 h
  obtain ⟨idx, r, -, hi⟩ := exists_of_mem_entries he
  obtain ⟨q, _, _, _, hq, -, -, -, -, ha, -⟩ := indexEntry_ok hi
  rw [ha] at hk
  simp only [List.mem_cons, List.not_mem_nil, or_false] at hk
  rcases hk with rfl | rfl <;> rw [splitPos_append hq]

theorem height_lt_of_indexed (h : indexEntries P mode b.height forkHeight b.rows = .ok es)
    (hne : b.rows ≠ []) : b.height < 2 ^ 63 := by
  obtain ⟨r, rows, hr⟩ := List.exists_cons_of_ne_nil hne
  obtain ⟨e, -, he⟩ := exists_mem_entries h (show b.rows[0]? = some r by simp [hr])
  obtain ⟨q, _, _, _, hq, -⟩ := indexEntry_ok he
  exact (posKey_ok hq).1

end LiveBlock

/-! ## Rows that the indexes cannot tell apart -/

abbrev SameRows (P : Prims) (mode : Mode) (forkHeight : Option Nat) (rows rows' : List Row) : Prop :=
  List.Forall₂ (Row.Same P mode forkHeight) rows rows'

theorem SameRows.indexEntries (h : SameRows P mode forkHeight rows rows') (n : Nat) :
    indexEntries P mode n forkHeight rows' = indexEntries P mode n forkHeight rows := by
  have key : ∀ i, (rows'.zipIdx i).mapM (fun x => indexEntry P mode n forkHeight x.2 x.1) =
      (rows.zipIdx i).mapM (fun x => indexEntry P mode n forkHeight x.2 x.1) := by
    induction h with
    | nil => exact fun _ => rfl
    | cons hr _ ih =>
      intro i
      simp only [List.zipIdx_cons, List.mapM_cons, hr.indexEntry, ih]
  exact key 0

/-! ## Registered keys -/

theorem firstKey_cons (k : Bytes) (n : Nat) (r : Row) (l : List (Nat × Row)) :
    firstKey k ((n, r) :: l) = if Registers k r then some (n, r.publicKey) else firstKey k l := by
  simp only [firstKey, List.find?_cons]
  split <;> rename_i hr <;> simp [hr]

theorem SameRows.firstKey (h : SameRows P mode forkHeight rows rows') (k : Bytes) (n : Nat) :
    firstKey k (rows'.map (n, ·)) = firstKey k (rows.map (n, ·)) := by
  induction h with
  | nil => rfl
  | @cons r r' _ _ hr _ ih =>
    have hreg : Registers k r' = Registers k r := by
      simp [Registers, hr.coinbase, hr.publicKey, hr.address]
    rw [List.map_cons, List.map_cons, firstKey_cons, firstKey_cons, hreg, hr.publicKey, ih]

theorem firstKey_append (k : Bytes) (l l' : List (Nat × Row)) :
    firstKey k (l ++ l') = (firstKey k l).or (firstKey k l') := by
  simp only [firstKey, List.find?_append]
  cases l.find? fun e => Registers k e.2 <;> rfl

theorem firstKey_height (h : firstKey k l = some (n, p)) : ∃ e ∈ l, e.1 = n := by
  obtain ⟨e, he, h⟩ := Option.map_eq_some_iff.1 h
  exact ⟨e, List.mem_of_find?_eq_some he, congrArg Prod.fst h⟩

theorem registerKeys_ok (h : registerKeys n t rows = .ok t') (k : Bytes) :
    t'.get? k = (t.get? k).or (firstKey k (rows.map (n, ·))) := by
  induction rows generalizing t with
  | nil => cases h; simp [firstKey]
  | cons r rows ih =>
    rw [List.map_cons, firstKey_cons]
    simp only [registerKeys] at h
    split at h <;> rename_i hr
    · have : Registers k r = false := by
        rcases Bool.or_eq_true_iff.1 hr with hr | hr
        · simp [Registers, hr]
        · simp [Registers, of_decide_eq_true hr]
      rw [ih h, this]; rfl
    · obtain ⟨k', hk', h⟩ := Except.bind_eq_ok.1 h
      obtain ⟨rfl, -⟩ := lmdbKey_ok hk'
      have hreg : Registers k r = decide (abytes r.address = k) := by
        rw [Bool.or_eq_true_iff, not_or] at hr
        simp [Registers, hr.1, of_decide_eq_false (Bool.not_eq_true _ ▸ hr.2)]
      split at h <;> rename_i hs
      · rw [ih h, hreg]
        by_cases he : abytes r.address = k
        · subst he
          obtain ⟨v, hv⟩ := Option.isSome_iff_exists.1 hs
          simp [hv]
        · simp [he]
      · rw [ih h, hreg, OrdTable.get?_put]
        by_cases he : abytes r.address = k
        · subst he
          have : t.get? (abytes r.address) = none := by simpa using hs
          simp [this]
        · simp [he, Ne.symm he]

end Bismuth
