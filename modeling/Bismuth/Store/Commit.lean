import Bismuth.Store.History

/-!
# Commits that cannot fail

Before the fork a block in the digester's form is committed whenever it comes next and no balance gets out of range.
-/

namespace Bismuth
open Py

variable {P : Prims} {mode : Mode} {keys : Text → Prop} {forkHeight : Option Nat}

/-- Every part is at most `B`, in either direction. -/
structure Parts.Within (B : Int) (p : Parts) : Prop where
  credit : |p.1| ≤ B
  reward : |p.2.1| ≤ B
  debit : |p.2.2.1| ≤ B
  fee : |p.2.2.2| ≤ B

namespace Parts.Within

theorem zero (h : 0 ≤ B) : Within B 0 := ⟨by simpa, by simpa, by simpa, by simpa⟩

theorem add (h : Within B p) (h' : Within C q) : Within (B + C) (p + q) :=
  ⟨(abs_add_le ..).trans (add_le_add h.credit h'.credit), (abs_add_le ..).trans (add_le_add h.reward h'.reward),
    (abs_add_le ..).trans (add_le_add h.debit h'.debit), (abs_add_le ..).trans (add_le_add h.fee h'.fee)⟩

theorem mono (h : Within B p) (hle : B ≤ C) : Within C p :=
  ⟨h.credit.trans hle, h.reward.trans hle, h.debit.trans hle, h.fee.trans hle⟩

theorem fits (h : Within B p) (hB : B < 2 ^ 127) : Fits p := by
  have hrange : ∀ {x : Int}, |x| ≤ B → -2 ^ 127 ≤ x ∧ x < 2 ^ 127 := by
    intro x hx
    obtain ⟨hlo, hhi⟩ := abs_le.1 hx
    omega
  exact fits_iff.2 ⟨hrange h.credit, hrange h.reward, hrange h.debit, hrange h.fee⟩

theorem total {acc : Acc} (hC : 0 ≤ C) (h : ∀ e ∈ acc, Within C e.2) (k : Bytes) :
    Within (C * acc.length) (acc.total k) := by
  induction acc with
  | nil => exact .zero (by simp)
  | cons e acc ih =>
    have hrest := ih fun e' he' => h e' (List.mem_cons_of_mem _ he')
    have hlen : C * ((e :: acc).length : Int) = C + C * acc.length := by
      rw [List.length_cons]
      push_cast
      ring
    rw [Acc.total_cons, hlen]
    refine .add ?_ hrest
    split
    · exact h e List.mem_cons_self
    · exact .zero hC

end Parts.Within

/-! ## The entries of a row -/

theorem exists_posKey (hn : n < 2 ^ 63) (hidx : idx < 2 ^ 16) : ∃ k, posKey n idx = (.ok k : Except Err Bytes) := by
  rw [posKey, packBE, if_pos (by omega), packBE, if_pos (by omega)]
  exact ⟨_, rfl⟩

/-- The entry of a row in the digester's form; its deltas are money. -/
theorem exists_indexEntry {r : Row} (hr : Row.Stored mode n bh r) (hfork : postFork forkHeight n = false)
    (hn : n < 2 ^ 63) (hidx : idx < 2 ^ 16) : ∃ e, indexEntry P mode n forkHeight idx r = .ok e := by
  obtain ⟨k, hk⟩ := exists_posKey hn hidx
  obtain ⟨amt, hamt⟩ := hr.amount
  obtain ⟨reward, hreward⟩ := hr.reward
  obtain ⟨fee, hfee⟩ := hr.fee
  obtain ⟨sig, hsig⟩ : ∃ sig, (if indexableSig r.signature then some <$> sigKey r.signature n idx else .ok none) =
      (.ok sig : Except Err (Option Bytes)) := by
    split
    · rw [sigKey, hk]
      exact ⟨_, rfl⟩
    · exact ⟨_, rfl⟩
  rw [indexEntry, hsig, Except.ok_bind, addrKey, hk, Except.ok_bind, addrKey, hk, hamt.units, hreward.units, hfee.units, hfork]
  exact ⟨_, rfl⟩

theorem indexEntry_within {r : Row} (hr : Row.Stored mode n bh r) (h : indexEntry P mode n forkHeight idx r = .ok e) :
    e.deltas.length = 2 ∧ ∀ d ∈ e.deltas, StoredAddress d.1 ∧ Parts.Within (10 ^ 28) d.2 := by
  obtain ⟨q, amt, reward, fee, -, h₁, h₂, h₃, -, -, hdeltas, -⟩ := indexEntry_ok h
  have hmoney : ∀ {s u}, (∃ u, MoneyText mode s u) → units mode (.str s) = (.ok u : Except Err Int) → |u| ≤ 10 ^ 28 := by
    rintro s u ⟨w, hw⟩ hu
    cases (hw.units (ρ := Reject)).symm.trans hu
    have hlt : (w : Int) < 10 ^ 28 := by exact_mod_cast hw.1
    rw [abs_of_nonneg (by omega)]
    exact hlt.le
  have hzero : |(0 : Int)| ≤ 10 ^ 28 := by norm_num
  rw [hdeltas]
  refine ⟨rfl, fun d hd => ?_⟩
  obtain rfl | rfl := List.mem_pair.1 hd
  · exact ⟨hr.recipient, hmoney hr.amount h₁, hmoney hr.reward h₂, hzero, hzero⟩
  · exact ⟨hr.address, hzero, hzero, hmoney hr.amount h₁, hmoney hr.fee h₃⟩

variable {rows : List Row}

theorem exists_indexEntries (hrows : ∀ r ∈ rows, Row.Stored mode n bh r)
    (hfork : postFork forkHeight n = false) (hn : n < 2 ^ 63) (hlen : rows.length ≤ 2 ^ 16) :
    ∃ es, indexEntries P mode n forkHeight rows = .ok es := by
  obtain ⟨es, hes⟩ := List.Forall₂.exists_of_forall (l := rows.zipIdx)
    (R := fun x e => indexEntry P mode n forkHeight x.2 x.1 = .ok e) fun x hx => by
      have hidx := List.snd_lt_of_mem_zipIdx hx
      exact exists_indexEntry (hrows x.1 (List.fst_mem_of_mem_zipIdx hx)) hfork hn (by omega)
  exact ⟨es, Except.mapM_eq_ok.2 hes⟩

theorem indexEntries_within (hrows : ∀ r ∈ rows, Row.Stored mode n bh r)
    (h : indexEntries P mode n forkHeight rows = .ok es) :
    (es.flatMap (·.deltas)).length = 2 * rows.length ∧
      ∀ d ∈ es.flatMap (·.deltas), StoredAddress d.1 ∧ Parts.Within (10 ^ 28) d.2 := by
  have hrel := (Except.mapM_eq_ok.1 h).with_mem
  have hentry : ∀ e ∈ es, e.deltas.length = 2 ∧ ∀ d ∈ e.deltas, StoredAddress d.1 ∧ Parts.Within (10 ^ 28) d.2 := by
    intro e he
    obtain ⟨x, -, hx, -, hxe⟩ := hrel.exists_left he
    exact indexEntry_within (hrows x.1 (List.fst_mem_of_mem_zipIdx hx)) hxe
  have hcount : es.length = rows.length := by rw [← hrel.length_eq, List.length_zipIdx]
  constructor
  · rw [List.length_flatMap, List.map_congr_left (g := fun _ => 2) fun e he => (hentry e he).1, List.map_const',
      List.sum_replicate_nat, hcount, Nat.mul_comm]
  · intro d hd
    obtain ⟨e, he, hd⟩ := List.mem_flatMap.1 hd
    exact (hentry e he).2 d hd

/-! ## The commit -/

theorem exists_putBody (st : Store) (hfork : postFork forkHeight n = false) (hn : n < 2 ^ 64) {digest : Bytes}
    (hdigest : digest ≠ [] ∧ digest.length ≤ 511) (rows : List Row) :
    ∃ st', putBody P mode st n (hex digest) rows forkHeight = .ok st' := by
  have hkey : lmdbKey (hashKey (hex digest)) = (.ok digest : Except Err Bytes) := by
    rw [hashKey_hex, lmdbKey, if_neg (by simp [hdigest.1]; omega)]
  rw [putBody, makeBody, if_neg (by simp [hfork]), Except.ok_bind]
  dsimp only
  rw [heightKey_natCast hn, Except.ok_bind, hkey]
  exact ⟨_, rfl⟩

theorem commitBlock_within {st st' : Store} {digest : Bytes} {difficulty : Option Val}
    (hrows : ∀ r ∈ rows, Row.Stored mode n (hex digest) r)
    (hbal : ∀ k, Parts.Within B (partsAt st.bal k))
    (h : commitBlock P mode st n (hex digest) rows difficulty forkHeight = .ok st') (k : Bytes) :
    Parts.Within (B + 10 ^ 28 * (2 * rows.length)) (partsAt st'.bal k) := by
  obtain ⟨st₁, es, pkref, bal, m, -, hbody, hes, -, happly, -, rfl⟩ := commitBlock_ok h
  obtain ⟨body, -, -, -, hst₁⟩ := putBody_frame hbody
  obtain ⟨hlen, hdeltas⟩ := indexEntries_within hrows hes
  have hbal₁ : st₁.bal = st.bal := by rw [hst₁]
  rw [hbal₁] at happly
  show Parts.Within _ (partsAt bal k)
  rw [(applyBalances_ok happly).1 k, Acc.total_fold_write]
  refine (hbal k).add ?_
  have htotal := Parts.Within.total (by norm_num) (fun d hd => (hdeltas d hd).2) k
  rw [hlen] at htotal
  rw [show Acc.total [] k = 0 from rfl, zero_add]
  exact_mod_cast htotal

theorem exists_commitBlock {st : Store} (difficulty : Option Val) {digest : Bytes}
    (htip : ∀ h, st.tip = some h → n = h + 1) (hfork : postFork forkHeight n = false) (hn : n < 2 ^ 63)
    (hdigest : digest ≠ [] ∧ digest.length ≤ 511) (hrows : ∀ r ∈ rows, Row.Stored mode n (hex digest) r)
    (hlen : rows.length ≤ 2 ^ 16) (hcount : st.txCount + rows.length < 2 ^ 64)
    (hbal : ∀ k, Parts.Within B (partsAt st.bal k)) (hB : B + 10 ^ 28 * (2 * rows.length) < 2 ^ 127) :
    ∃ st', commitBlock P mode st n (hex digest) rows difficulty forkHeight = .ok st' := by
  obtain ⟨st₁, hbody⟩ : ∃ st₁, putBody P mode st n (hex digest) rows forkHeight = .ok st₁ :=
    exists_putBody st hfork (by omega) hdigest rows
  obtain ⟨es, hes⟩ : ∃ es, indexEntries P mode n forkHeight rows = .ok es := exists_indexEntries hrows hfork hn hlen
  obtain ⟨hlength, hdeltas⟩ := indexEntries_within hrows hes
  obtain ⟨body, -, -, -, hst₁⟩ := putBody_frame hbody
  have hbal₁ : st₁.bal = st.bal := by rw [hst₁]
  have hcount₁ : st₁.txcount = st.txcount := by rw [hst₁]
  have hok : Acc.Ok (Acc.fold .write [] (es.flatMap (·.deltas))) := Acc.Ok.nil.fold (fun d hd => (hdeltas d hd).1) .write
  obtain ⟨bal, happly⟩ := applyBalances_of_fits st₁.bal hok fun k => by
    have htotal := Parts.Within.total (by norm_num) (fun d hd => (hdeltas d hd).2) k
    rw [hlength] at htotal
    rw [Acc.total_fold_write, show Acc.total [] k = 0 from rfl, zero_add, hbal₁]
    exact ((hbal k).add htotal).fits (by exact_mod_cast hB)
  obtain ⟨m, hm⟩ : ∃ m, bumpTxcount st₁.txcount rows.length = .ok m := by
    rw [Store.txCount] at hcount
    rw [bumpTxcount, hcount₁, heightKey, if_pos (by omega)]
    exact ⟨_, rfl⟩
  have hany : st.tip.any (n ≠ · + 1) = false := by
    cases ht : st.tip with
    | none => rfl
    | some h => simp [htip h ht]
  obtain ⟨st₂, hindex, hst₂⟩ : ∃ st₂,
      indexRows P mode .write { st₁ with diff := putDifficulty st₁.diff n difficulty } n rows [] forkHeight =
        .ok (st₂, Acc.fold .write [] (es.flatMap (·.deltas))) ∧ st₂.bal = st₁.bal ∧ st₂.txcount = st₁.txcount := by
    unfold indexRows
    rw [hes, Except.ok_bind, hfork, if_neg (by simp)]
    exact ⟨_, rfl, rfl, rfl⟩
  rw [commitBlock, hany, if_neg (by simp)]
  dsimp only
  rw [hbody, Except.ok_bind]
  rw [hindex, Except.ok_bind]
  dsimp only
  rw [hst₂.1, happly, Except.ok_bind, hst₂.2, hm]
  exact ⟨_, rfl⟩

end Bismuth
