import Bismuth.Store.History

/-!
# The full rebuild

`reindex` walks the blocks in ranges of heights and gives the tables that the incremental updates
maintain.
-/

namespace Bismuth
open Py Relation

variable {P : Prims} {mode : Mode} {keys : Text → Prop} {forkHeight : Option Nat}
variable {st₀ st st' : Store} {chain c : List LiveBlock}

section
variable (P : Prims) (mode : Mode) (forkHeight : Option Nat)

def DistinctTxids (chain : List LiveBlock) : Prop :=
  ∀ a ∈ chain, ∀ b ∈ chain, ∀ k, k ∈ a.txidKeys P mode forkHeight →
    k ∈ b.txidKeys P mode forkHeight → a.height = b.height

structure Bodies (st₀ : Store) (chain : List LiveBlock) : Prop where
  blocks : List.Forall₂ (LiveBody P mode st₀.pkr) st₀.blocks.entries chain
  ok : ∀ b ∈ chain, b.Ok P mode forkHeight
  sorted : chain.Pairwise fun a b => a.height < b.height

/-- The tables, rebuilt for the blocks `c`. -/
structure Rebuilt (st₀ : Store) (c : List LiveBlock) (st : Store) (acc : Acc) (ntx : Nat) :
    Prop where
  eq : st = { st₀ with sig := st.sig, addr := st.addr, txid := st.txid, pkref := st.pkref }
  sig : st.sig.Holds fun k _ => ∃ b ∈ c, k ∈ b.sigKeys P mode forkHeight
  addr : st.addr.Holds fun k _ => ∃ b ∈ c, k ∈ b.addrKeys P mode forkHeight
  pkref : ∀ k, st.pkref.get? k = firstKey k (postForkRows forkHeight c)
  txid : DistinctTxids P mode forkHeight c → TxidExact P mode forkHeight st c
  accOk : acc.Ok
  total : ∀ k, acc.total k = chainTotal P mode forkHeight c k
  count : ntx = (c.map fun b => b.rows.length).sum

end

/-! ## One block -/

theorem exists_registerKeys (h : ∀ r ∈ rows, StoredAddress r.address)
    (t : OrdTable Bytes (Nat × Text)) : ∃ t', registerKeys n t rows = .ok t' := by
  induction rows generalizing t with
  | nil => exact ⟨t, rfl⟩
  | cons r rows ih =>
    have ih := ih fun r hr => h r (by simp [hr])
    simp only [registerKeys, lmdbKey_abytes (h r (by simp)).1, Except.ok_bind]
    split
    · exact ih t
    · split
      · exact ih t
      · exact ih _

theorem Rebuilt.block (H : Rebuilt P mode forkHeight st₀ c st acc ntx)
    (hb : b.Ok P mode forkHeight) (hlt : ∀ a ∈ c, a.height ≠ b.height) : ∃ st' acc',
      indexRows P mode .write st b.height b.rows acc forkHeight = .ok (st', acc') ∧
      Rebuilt P mode forkHeight st₀ (c ++ [b]) st' acc' (ntx + b.rows.length) := by
  obtain ⟨es, hes⟩ := hb.indexed
  have hentries := LiveBlock.entries_eq hes
  obtain ⟨pkref, hp⟩ : ∃ pkref, (if postFork forkHeight b.height then
      registerKeys b.height st.pkref b.rows else .ok st.pkref) = .ok pkref := by
    split
    · exact exists_registerKeys (fun r hr => (hb.stored r hr).address) _
    · exact ⟨_, rfl⟩
  refine ⟨_, _, by simp only [indexRows, hes, Except.ok_bind, true_and, hp]; rfl, ?_⟩
  refine { eq := ?_, sig := ?_, addr := ?_, pkref := fun k => ?_, txid := fun hd => ?_,
           accOk := ?_, total := fun k => ?_, count := ?_ }
  · dsimp only
    rw [H.eq]
  · refine (H.sig.putAll (v := ()) fun _ _ _ _ => rfl).congr fun k _ => ?_
    rw [exists_mem_concat]
    simp [LiveBlock.sigKeys, hentries]
  · refine (H.addr.putAll (v := ()) fun _ _ _ _ => rfl).congr fun k _ => ?_
    rw [exists_mem_concat]
    simp [LiveBlock.addrKeys, hentries]
  · rw [postForkRows_append, firstKey_append, ← H.pkref]
    dsimp only
    split at hp <;> rename_i hf
    · rw [registerKeys_ok hp]
      simp [postForkRows, hf]
    · cases hp
      simp [postForkRows, hf, firstKey]
  · have hc := H.txid fun a ha a' ha' => hd a (by simp [ha]) a' (by simp [ha'])
    refine (@OrdTable.Holds.putAll _ _ _ _ _ hc (es.filterMap (·.txid)) b.height
      fun k hk h => ?_).congr fun k h => ?_
    · rintro ⟨a, ha, -, hka⟩
      refine absurd (hd a (by simp [ha]) b (by simp) k hka ?_) (hlt a ha)
      rwa [LiveBlock.txidKeys, hentries]
    · rw [exists_mem_concat]
      simp [LiveBlock.txidKeys, hentries, eq_comm, and_comm]
  · refine H.accOk.fold (fun e he => ?_) .write
    rw [← hentries] at he
    exact (hb.storedAddress he).1
  · rw [Acc.total_fold_write, H.total, chainTotal_append, chainTotal_singleton, LiveBlock.deltas,
      hentries]
  · rw [H.count]
    simp

/-! ## The blocks of a transaction, and all of them -/

theorem Rebuilt.blocks (H : Rebuilt P mode forkHeight st₀ c st acc ntx) {l : List (Nat × Body)}
    (hl : List.Forall₂ (LiveBody P mode st₀.pkr) l bs) (hok : ∀ b ∈ bs, b.Ok P mode forkHeight)
    (hs : (c ++ bs).Pairwise fun a b => a.height < b.height) : ∃ st' acc' ntx',
      reindexBatch P mode forkHeight st acc ntx l = .ok (st', acc', ntx') ∧
      Rebuilt P mode forkHeight st₀ (c ++ bs) st' acc' ntx' := by
  induction hl generalizing c st acc ntx with
  | nil => exact ⟨st, acc, ntx, rfl, by simpa using H⟩
  | @cons e b l bs he _ ih =>
    obtain ⟨n, body⟩ := e
    obtain rfl : n = b.height := he.height
    have hlt : ∀ a ∈ c, a.height ≠ b.height := fun a ha =>
      ((List.pairwise_append.1 hs).2.2 a ha b (by simp)).ne
    obtain ⟨st1, acc1, h1, H1⟩ := H.block (hok b (by simp)) hlt
    have hpkr : st.pkr = st₀.pkr := by rw [H.eq]
    have hexp : expand P mode st.pubkey b.height body = .ok b.rows :=
      he.expands _ (hpkr ▸ st.reads_pubkey)
    rw [List.append_cons] at hs
    obtain ⟨st', acc', ntx', h2, H2⟩ := ih H1 (fun b hb => hok b (by simp [hb])) hs
    refine ⟨st', acc', ntx', ?_, by simpa using H2⟩
    simp only [reindexBatch, hexp, Except.ok_bind, h1, h2]

theorem below_append {h hi : Nat} (hs : chain.Pairwise fun a b => a.height < b.height)
    (hle : h ≤ hi) : below h chain ++ chain.filter (fun b => h ≤ b.height ∧ b.height < hi) =
      below hi chain := by
  have := List.filter_lt_append (hs.filter (p := fun b => decide (b.height < hi))) h
  rw [List.filter_filter, List.filter_filter] at this
  refine .trans ?_ this
  congr 1 <;> refine List.filter_congr fun b _ => ?_
  · rw [← Bool.decide_and, decide_eq_decide]
    omega
  · rw [Bool.decide_and]

theorem Rebuilt.range (Hc : Bodies P mode forkHeight st₀ chain)
    (H : Rebuilt P mode forkHeight st₀ (below h chain) st acc ntx) (hle : h ≤ hi + 1)
    (hhi : hi < 2 ^ 63) : ∃ st' acc' ntx',
      reindexRange P mode forkHeight st acc ntx h hi = .ok (st', acc', ntx') ∧
      Rebuilt P mode forkHeight st₀ (below (hi + 1) chain) st' acc' ntx' := by
  set bs := chain.filter fun b => h ≤ b.height ∧ b.height < hi + 1 with hbs
  have happ : below h chain ++ bs = below (hi + 1) chain := below_append Hc.sorted hle
  have hl : List.Forall₂ (LiveBody P mode st₀.pkr)
      (st₀.blocks.entries.filter fun e => h ≤ e.1 ∧ e.1 < hi + 1) bs :=
    List.rel_filter (fun e b he => by simp only [he.height]) Hc.blocks
  have hblocks : st.blocks = st₀.blocks := by rw [H.eq]
  obtain ⟨st', acc', ntx', h1, H1⟩ := H.blocks hl (fun b hb => Hc.ok b (List.mem_filter.1 hb).1)
    (happ ▸ Hc.sorted.filter _)
  refine ⟨st', acc', ntx', ?_, happ ▸ H1⟩
  have hk1 : heightKey (h : Int) = (.ok h : Except Err Nat) := heightKey_natCast (by omega)
  have hk2 : heightKey ((hi : Int) + 1) = (.ok (hi + 1) : Except Err Nat) :=
    heightKey_natCast (n := hi + 1) (by omega)
  rw [reindexRange, hk1, Except.ok_bind, hk2, Except.ok_bind, hblocks, h1]

/-- The loop reaches the tip: each round passes at least one height. -/
theorem Rebuilt.loop (Hc : Bodies P mode forkHeight st₀ chain)
    (H : Rebuilt P mode forkHeight st₀ (below h chain) st acc ntx) (hbatch : 1 ≤ batch)
    (htip : ∀ b ∈ chain, b.height ≤ tip) (hlt : tip < 2 ^ 63) (hfuel : tip < h + fuel) :
    ∃ st' acc' ntx', reindexLoop (reindexRange P mode forkHeight) batch tip fuel h st acc ntx =
        (st', .ok (acc', ntx')) ∧
      Rebuilt P mode forkHeight st₀ chain st' acc' ntx' := by
  have hall : ∀ {h}, tip < h → below h chain = chain := fun hh =>
    List.filter_eq_self.2 fun b hb => decide_eq_true ((htip b hb).trans_lt hh)
  induction fuel generalizing h st acc ntx with
  | zero =>
    rw [hall (h := h) (by omega)] at H
    exact ⟨st, acc, ntx, rfl, H⟩
  | succ fuel ih =>
    rw [reindexLoop]
    split <;> rename_i hh
    · have hhi : min tip (h + batch - 1) < 2 ^ 63 := (min_le_left _ _).trans_lt hlt
      have hle : h ≤ min tip (h + batch - 1) := le_min hh (by omega)
      obtain ⟨st1, acc1, ntx1, h1, H1⟩ := H.range Hc (hle.trans (Nat.le_succ _)) hhi
      dsimp only
      rw [h1]
      exact ih H1 (by omega)
    · rw [hall (h := h) (by omega)] at H
      exact ⟨st, acc, ntx, rfl, H⟩

theorem TxidExact.distinct (H : TxidExact P mode forkHeight st chain) :
    DistinctTxids P mode forkHeight chain := fun a ha b hb k hka hkb => by
  have h1 := (H k a.height).2 ⟨a, ha, rfl, hka⟩
  have h2 := (H k b.height).2 ⟨b, hb, rfl, hkb⟩
  rw [h1] at h2
  exact Option.some.inj h2

theorem Indexed.reindex (H : Indexed P mode keys forkHeight st chain)
    (hfirst : ∀ b ∈ chain, 1 ≤ b.height) (hbatch : 1 ≤ batch) : ∃ st' n,
      reindex P mode st forkHeight batch = (st', .ok n) ∧ n = st.txCount ∧
      st'.txCount = st.txCount ∧ st'.sig = st.sig ∧ st'.addr = st.addr ∧ st'.bal = st.bal ∧
      st'.pkref = st.pkref ∧ (TxidExact P mode forkHeight st chain → st'.txid = st.txid) := by
  set st₀ : Store :=
    { st with sig := ∅, addr := ∅, bal := ∅, txid := ∅, pkref := ∅, txcount := none } with hst₀
  have hnil : below 1 chain = [] :=
    List.filter_eq_nil_iff.2 fun b hb => by have := hfirst b hb; simp; omega
  have H0 : Rebuilt P mode forkHeight st₀ (below 1 chain) st₀ [] 0 := by
    rw [hnil]
    exact {
      eq := rfl, sig := .empty (by simp), addr := .empty (by simp), pkref := fun _ => rfl
      txid := fun _ => .empty (by simp), accOk := .nil, total := fun _ => rfl, count := rfl }
  have hbodies : Bodies P mode forkHeight st₀ chain := ⟨H.blocks, H.ok, H.sorted⟩
  obtain ⟨st1, acc, ntx, h1, H1⟩ := H0.loop hbodies hbatch H.le_tip H.tip_lt
    (show st.tip.getD 0 < 1 + st.tip.getD 0 by omega)
  have htotal : ∀ k, Acc.total (acc.fold .write (allocAcc st.allocations)) k = partsAt st.bal k :=
    fun k => by rw [Acc.total_fold_write, H1.total, H.bal]
  have hacc : Acc.Ok (acc.fold .write (allocAcc st.allocations)) :=
    H1.accOk.fold (allocAcc_ok H.alloc).stored .write
  obtain ⟨bal, hbal⟩ := applyBalances_of_fits ∅ hacc fun k => by
    rw [htotal]; simpa [partsAt] using H.clean.fits k
  obtain ⟨hb1, hb2⟩ := applyBalances_ok hbal
  have hntx : ntx = st.txCount := H1.count.trans H.txcount.symm
  have hk : heightKey (ntx : Int) = (.ok ntx : Except Err Nat) :=
    heightKey_natCast (hntx ▸ H.txcount_lt)
  refine ⟨{ st1 with bal, txcount := some ntx }, ntx, ?_, hntx, hntx, H1.sig.unique H.sig,
    H1.addr.unique H.addr, ?_, OrdTable.ext_get? fun k => by rw [H1.pkref, H.pkref], fun ht => ?_⟩
  · have hst1 : st1.allocations = st.allocations ∧ st1.bal = ∅ := by rw [H1.eq]; exact ⟨rfl, rfl⟩
    have htip : st₀.tip = st.tip := rfl
    simp only [Bismuth.reindex, ← hst₀, htip, h1, hst1.1, hst1.2]
    rw [allocAcc] at hbal
    rw [hbal, hk]
    rfl
  · refine (hb2 (by simp [Clean])).ext H.clean fun k => ?_
    rw [hb1, htotal]
    simp [partsAt]
  · exact OrdTable.Holds.unique (H1.txid ht.distinct) ht

/-! ## Rebuilding after a history -/

def DistinctStep (P : Prims) (mode : Mode) (keys : Text → Prop) (forkHeight : Option Nat)
    (l l' : Ledger) : Prop :=
  Step P mode keys forkHeight l l' ∧ DistinctTxids P mode forkHeight l'.chain

theorem DistinctStep.fresh (hd : KeysDistinct P keys) (H : l.Good P mode keys forkHeight)
    (h : DistinctStep P mode keys forkHeight l l') : FreshStep P mode keys forkHeight l l' := by
  refine ⟨h.1, fun b hb a ha k hk hka => ?_⟩
  have hs := (h.1.good hd H).sorted
  have he := h.2
  rw [hb] at hs he
  have hlt := (List.pairwise_append.1 hs).2.2 a ha b (by simp)
  exact hlt.ne (he a (by simp [ha]) b (by simp) k hka hk)

theorem fresh_of_distinct (hd : KeysDistinct P keys)
    (h : ReflTransGen (DistinctStep P mode keys forkHeight) ∅ l) :
    ReflTransGen (FreshStep P mode keys forkHeight) ∅ l := by
  induction h with
  | refl => exact .refl
  | tail _ hs ih => exact ih.tail (hs.fresh hd (good_of_history hd (history_of_fresh ih)))

end Bismuth
