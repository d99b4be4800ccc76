import Bismuth.Store.Inv
import Mathlib

/-!
# Rollback and allocations keep the invariant

A rollback cannot fail: the totals it restores lie between the allocation and the totals that are
stored.
-/

namespace Bismuth
open Py

variable {P : Prims} {mode : Mode} {keys : Text → Prop} {forkHeight : Option Nat}
variable {st st' : Store} {chain : List LiveBlock} {c : List LiveBlock} {b : LiveBlock}

theorem indexRows_delete (st : Store) (acc : Acc)
    (h : indexEntries P mode n forkHeight rows = .ok es) :
    indexRows P mode .delete st n rows acc forkHeight = .ok ({ st with
      sig := st.sig.eraseAll (es.filterMap (·.sig))
      addr := st.addr.eraseAll (es.flatMap (·.addr))
      txid := st.txid.eraseAll (es.filterMap (·.txid)) },
      acc.fold .delete (es.flatMap (·.deltas))) := by
  simp [indexRows, h, Dir.all]

theorem bumpTxcount_sub {m : Option Nat} (h : m.getD 0 < 2 ^ 64) (d : Nat) :
    bumpTxcount m (-d) = (.ok (some (m.getD 0 - d)) : Except Err _) := by
  have : max 0 ((m.getD 0 : Int) + -d) = (m.getD 0 - d : Nat) := by omega
  rw [bumpTxcount, this, heightKey_natCast (by omega)]
  rfl

theorem LiveBlock.Ok.storedAddress (h : b.Ok P mode forkHeight)
    (he : e ∈ b.deltas P mode forkHeight) : StoredAddress e.1 ∧ 0 ≤ e.2 := by
  obtain ⟨x, hx, he⟩ := List.mem_flatMap.1 he
  obtain ⟨idx, r, hr, hi⟩ := LiveBlock.exists_of_mem_entries hx
  have hs := h.stored r (List.mem_of_getElem? hr)
  obtain ⟨_, amt, reward, fee, -, ha, hrw, hf, -, -, hd, -⟩ := indexEntry_ok hi
  obtain ⟨_, h1⟩ := hs.amount
  obtain ⟨_, h2⟩ := hs.reward
  obtain ⟨_, h3⟩ := hs.fee
  rw [h1.units] at ha
  rw [h2.units] at hrw
  rw [h3.units] at hf
  cases ha; cases hrw; cases hf
  rw [hd] at he
  simp only [List.mem_cons, List.not_mem_nil, or_false] at he
  rcases he with rfl | rfl
  · exact ⟨hs.recipient, by simp [Prod.le_def]⟩
  · exact ⟨hs.address, by simp [Prod.le_def]⟩

/-- Without the keys `Q` of the last block a table holds what the other blocks give. -/
theorem holds_of_concat [LinearOrder K] {t : OrdTable K V} {R : LiveBlock → K → V → Prop}
    {Q : K → Prop} (h : t.Holds fun k v => (∃ a ∈ c ++ [b], R a k v) ∧ ¬Q k)
    (hb : ∀ k v, R b k v → Q k) (hc : ∀ a ∈ c, ∀ k v, R a k v → ¬Q k) :
    t.Holds fun k v => ∃ a ∈ c, R a k v := by
  refine h.congr fun k v => ?_
  rw [exists_mem_concat]
  constructor
  · rintro ⟨h | h, hne⟩
    · exact h
    · exact absurd (hb k v h) hne
  · rintro ⟨a, ha, h⟩
    exact ⟨.inl ⟨a, ha, h⟩, hc a ha k v h⟩

theorem Core.dropLast (H : Core P mode keys forkHeight st (c ++ [b]))
    (hbody : LiveBody P mode st.pkr (b.height, body) b)
    (hes : b.entries P mode forkHeight = es)
    (hst : st' = { st with
      blocks := st.blocks.erase b.height, hashes := st.hashes.erase body.hashKey
      diff := st.diff.erase b.height, sig := st.sig.eraseAll (es.filterMap (·.sig))
      addr := st.addr.eraseAll (es.flatMap (·.addr)), txid := st'.txid
      txcount := some (st.txcount.getD 0 - b.rows.length) }) :
    Core P mode keys forkHeight st' c := by
  obtain ⟨hc, -, hcb⟩ := List.pairwise_append.1 H.sorted
  have hlt : ∀ a ∈ c, a.height < b.height := fun a ha => hcb a ha b (by simp)
  have hdig : ∀ a ∈ c, a.digest ≠ b.digest := fun a ha =>
    (List.pairwise_append.1 H.distinct).2.2 a ha b (by simp)
  rw [hst]
  refine { keyTable := ⟨H.keyTable.known, H.keyTable.fresh⟩, blocks := ?_
           ok := fun a ha => H.ok a (by simp [ha])
           contiguous := (List.isChain_append.1 H.contiguous).1
           distinct := (List.pairwise_append.1 H.distinct).1
           hashes := ?_, diff := ?_, sig := ?_, addr := ?_, txcount := ?_, txcount_lt := ?_ }
  · obtain ⟨m, e, he, hm, heb⟩ := H.blocks.exists_of_concat
    have hkeep : m.filter (fun e => decide (e.1 ≠ b.height)) = m := by
      rw [List.filter_eq_self]
      intro x hx
      obtain ⟨a, ha, hxa⟩ := hm.exists_right hx
      have := hlt a ha
      rw [← hxa.height] at this
      simpa using this.ne
    show List.Forall₂ _ (st.blocks.erase b.height).entries _
    rw [OrdTable.entries_erase, he, List.filter_append, hkeep,
      List.filter_cons_of_neg (by simpa using heb.height), List.filter_nil, List.append_nil]
    exact hm
  · refine holds_of_concat (H.hashes.erase _) ?_ ?_ <;> rw [hbody.hashKey]
    · exact fun k h hb => hb.1.symm
    · rintro a ha k h ⟨rfl, -⟩
      exact hdig a ha
  · refine holds_of_concat (H.diff.erase _) (fun k d hb => hb.1.symm) ?_
    rintro a ha k h ⟨rfl, -⟩
    exact (hlt a ha).ne
  · subst hes
    refine holds_of_concat (Q := (· ∈ b.sigKeys P mode forkHeight)) (H.sig.eraseAll _)
      (fun k _ h => h) fun a ha k _ hk hkb => (hlt a ha).ne ?_
    have h1 := LiveBlock.splitPos_of_mem_sigKeys hk
    exact_mod_cast h1.symm.trans (LiveBlock.splitPos_of_mem_sigKeys hkb)
  · subst hes
    refine holds_of_concat (Q := (· ∈ b.addrKeys P mode forkHeight)) (H.addr.eraseAll _)
      (fun k _ h => h) fun a ha k _ hk hkb => (hlt a ha).ne ?_
    have h1 := LiveBlock.splitPos_of_mem_addrKeys hk
    exact_mod_cast h1.symm.trans (LiveBlock.splitPos_of_mem_addrKeys hkb)
  · have := H.txcount
    simp only [Store.txCount, List.map_append, List.sum_append, List.map_cons, List.map_nil,
      List.sum_singleton, Option.getD_some] at this ⊢
    omega
  · have := H.txcount_lt
    simp only [Store.txCount, Option.getD_some] at this ⊢
    omega

theorem Core.rollbackBlock (H : Core P mode keys forkHeight st (c ++ [b])) (hacc : Acc.Ok acc)
    (removed : List TypedRow) : ∃ st' acc' removed',
      rollbackBlock P mode forkHeight st acc removed b.height = .ok (st', acc', removed') ∧
      Core P mode keys forkHeight st' c ∧ acc'.Ok ∧
      (∀ k, acc'.total k = acc.total k - (b.deltas P mode forkHeight).total k) ∧
      st' = { st with
        blocks := st.blocks.erase b.height, hashes := st'.hashes, diff := st'.diff, sig := st'.sig
        addr := st'.addr, txid := st.txid.eraseAll (b.txidKeys P mode forkHeight)
        txcount := st'.txcount } := by
  obtain ⟨body, hget, hbody⟩ := H.get? (b := b) (by simp)
  have hok := H.ok b (by simp)
  obtain ⟨es, hes⟩ := hok.indexed
  have hentries := LiveBlock.entries_eq hes
  have hdeltas : b.deltas P mode forkHeight = es.flatMap (·.deltas) := by
    rw [LiveBlock.deltas, hentries]
  obtain ⟨typed, htyped⟩ := Except.exists_mapM_ok fun r hr => (hok.stored r hr).typedRow
  have hrows := hbody.expands st.pubkey st.reads_pubkey
  have htx := H.txcount_lt
  rw [Store.txCount] at htx
  refine ⟨_, _, _, by
    simp only [Bismuth.rollbackBlock, hget, hrows, Except.ok_bind, indexRows_delete st acc hes,
      bumpTxcount_sub htx, htyped]
    rfl, ?_, hacc.fold (fun e he => (hok.storedAddress (hdeltas ▸ he)).1) .delete, fun k => ?_, ?_⟩
  · exact H.dropLast hbody hentries rfl
  · rw [Acc.total_fold_delete, hdeltas]
  · simp only [LiveBlock.txidKeys, hentries]

/-- The rounds of a rollback remove the blocks `suf`, last first. -/
theorem Core.rollbackBlocks {suf : List LiveBlock}
    (H : Core P mode keys forkHeight st (c ++ suf.reverse)) (hacc : Acc.Ok acc)
    (removed : List TypedRow) : ∃ st' acc' removed',
      rollbackBlocks P mode forkHeight st acc removed (suf.map (·.height)) =
        .ok (st', acc', removed') ∧
      Core P mode keys forkHeight st' c ∧ acc'.Ok ∧
      (∀ k, acc'.total k = acc.total k - chainTotal P mode forkHeight suf k) ∧
      st' = { st with
        blocks := st.blocks.eraseAll (suf.map (·.height)), hashes := st'.hashes, diff := st'.diff
        sig := st'.sig, addr := st'.addr
        txid := st.txid.eraseAll (suf.flatMap (·.txidKeys P mode forkHeight))
        txcount := st'.txcount } := by
  induction suf generalizing st acc removed with
  | nil =>
    refine ⟨st, acc, removed, rfl, by simpa using H, hacc, fun k => ?_, rfl⟩
    simp [chainTotal]
  | cons b suf ih =>
    rw [List.reverse_cons, ← List.append_assoc] at H
    obtain ⟨st1, acc1, rem1, h1, H1, hacc1, ht1, he1⟩ := H.rollbackBlock hacc removed
    obtain ⟨st2, acc2, rem2, h2, H2, hacc2, ht2, he2⟩ := ih H1 hacc1 rem1
    refine ⟨st2, acc2, rem2, ?_, H2, hacc2, fun k => ?_, ?_⟩
    · rw [List.map_cons, Bismuth.rollbackBlocks, h1, Except.ok_bind]
      exact h2
    · rw [ht2, ht1, ← List.singleton_append, chainTotal_append, chainTotal_singleton]
      abel
    · rw [he1] at he2
      rw [he2]
      simp [OrdTable.eraseAll]

theorem chainTotal_nonneg (h : ∀ b ∈ c, b.Ok P mode forkHeight) (k : Bytes) :
    0 ≤ chainTotal P mode forkHeight c k := by
  refine List.sum_nonneg fun p hp => ?_
  obtain ⟨b, hb, rfl⟩ := List.mem_map.1 hp
  refine List.sum_nonneg fun p hp => ?_
  obtain ⟨e, he, rfl⟩ := List.mem_map.1 hp
  split
  · exact ((h b hb).storedAddress he).2
  · exact le_rfl

variable {alloc : OrdTable Text Int}

section
variable (h : ∀ {a u}, alloc.get? a = some u → StoredAddress a ∧ fitsMsgpack u)
include h

theorem allocAcc_ok :
    Acc.Ok (allocAcc alloc) := by
  refine ⟨fun e he => ?_, ?_⟩
  · obtain ⟨x, hx, rfl⟩ := List.mem_map.1 he
    exact (h (OrdTable.mem_entries.1 hx)).1
  · have : (allocAcc alloc).map Prod.fst = alloc.entries.map Prod.fst := by
      simp [allocAcc, Function.comp_def]
    rw [this, List.Nodup, List.pairwise_map]
    exact alloc.sorted.imp fun h => h.ne

theorem allocAcc_total (a : Text) :
    (allocAcc alloc).total (abytes a) = (0, (alloc.get? a).getD 0, 0, 0) := by
  cases hu : alloc.get? a with
  | some u =>
    have hmem : (a, ((0, u, 0, 0) : Parts)) ∈ allocAcc alloc :=
      List.mem_map.2 ⟨(a, u), OrdTable.mem_entries.2 hu, rfl⟩
    exact tally_of_mem (allocAcc_ok h).nodup_keys hmem
  | none =>
    refine tally_of_forall_ne fun e he hk => ?_
    obtain ⟨x, hx, rfl⟩ := List.mem_map.1 he
    have hget := OrdTable.mem_entries.1 hx
    obtain rfl := abytes_inj (h hget).1.2 hk
    rw [hu] at hget
    cases hget

theorem fits_allocAcc (k : Bytes) :
    Fits ((allocAcc alloc).total k) := by
  by_cases hk : ∃ e ∈ allocAcc alloc, abytes e.1 = k
  · obtain ⟨e, he, rfl⟩ := hk
    rw [Acc.total, tally_of_mem (allocAcc_ok h).nodup_keys he]
    obtain ⟨x, hx, rfl⟩ := List.mem_map.1 he
    have := (h (OrdTable.mem_entries.1 hx)).2
    simp only [fitsMsgpack, Bool.and_eq_true, decide_eq_true_eq] at this
    rw [fits_iff]
    simp only
    omega
  · rw [Acc.total, tally_of_forall_ne fun e he hke => hk ⟨e, he, hke⟩]
    exact .zero

end

/-! ## The whole rollback -/

def below (start : Nat) (chain : List LiveBlock) : List LiveBlock :=
  chain.filter (·.height < start)

/-- The registrations that a rollback keeps are those of the rows it keeps. -/
theorem firstKey_below {pre suf : List LiveBlock} (hpre : ∀ b ∈ pre, b.height < start)
    (hsuf : ∀ b ∈ suf, start ≤ b.height) (k : Bytes) :
    (firstKey k (postForkRows forkHeight (pre ++ suf))).filter (fun v => v.1 < start) =
      firstKey k (postForkRows forkHeight pre) := by
  have hheight : ∀ {l : List LiveBlock} {n p}, firstKey k (postForkRows forkHeight l) = some (n, p) →
      ∃ b ∈ l, b.height = n := by
    intro l n p h
    obtain ⟨e, he, rfl⟩ := firstKey_height h
    obtain ⟨b, hb, he⟩ := List.mem_flatMap.1 he
    obtain ⟨r, -, rfl⟩ := List.mem_map.1 he
    exact ⟨b, (List.mem_filter.1 hb).1, rfl⟩
  rw [postForkRows_append, firstKey_append]
  cases h : firstKey k (postForkRows forkHeight pre) with
  | some v =>
    obtain ⟨b, hb, hn⟩ := hheight (n := v.1) (p := v.2) h
    simp [← hn, hpre b hb]
  | none =>
    cases h' : firstKey k (postForkRows forkHeight suf) with
    | none => rfl
    | some v =>
      obtain ⟨b, hb, hn⟩ := hheight (n := v.1) (p := v.2) h'
      have := hsuf b hb
      simp [← hn, this]

/-- Where the txid table is exact, deleting the txids of the removed rows spoils no other row. -/
theorem TxidExact.below {pre suf : List LiveBlock} (H : TxidExact P mode forkHeight st (pre ++ suf))
    (hpre : ∀ b ∈ pre, b.height < start) (hsuf : ∀ b ∈ suf, start ≤ b.height) :
    ((st.txid.eraseAll (suf.reverse.flatMap (·.txidKeys P mode forkHeight))).filter
      fun _ h => h < start).Holds
      fun k h => ∃ b ∈ pre, b.height = h ∧ k ∈ b.txidKeys P mode forkHeight := by
  refine ((OrdTable.Holds.eraseAll H _).filter _).congr fun k h => ?_
  simp only [List.mem_flatMap, List.mem_reverse, decide_eq_true_eq, not_exists, not_and]
  constructor
  · rintro ⟨⟨⟨b, hb, rfl, hk⟩, -⟩, hlt⟩
    rcases List.mem_append.1 hb with hb | hb
    · exact ⟨b, hb, rfl, hk⟩
    · exact absurd (hsuf b hb) (not_le.2 hlt)
  · rintro ⟨b, hb, rfl, hk⟩
    refine ⟨⟨⟨b, List.mem_append_left _ hb, rfl, hk⟩, fun a ha hka => ?_⟩, hpre b hb⟩
    -- one txid has one height in the table
    have h1 := (H k b.height).2 ⟨b, List.mem_append_left _ hb, rfl, hk⟩
    have h2 := (H k a.height).2 ⟨a, List.mem_append_right _ ha, rfl, hka⟩
    rw [h1] at h2
    have := hpre b hb
    have := hsuf a ha
    have : b.height = a.height := Option.some.inj h2
    omega

structure RolledBack (P : Prims) (mode : Mode) (keys : Text → Prop) (forkHeight : Option Nat)
    (st st' : Store) (chain : List LiveBlock) (start : Nat) : Prop where
  indexed : Indexed P mode keys forkHeight st' (below start chain)
  blocks : st'.blocks = st.blocks.filter fun h _ => h < start
  pkr : st'.pkr = st.pkr
  alloc : st'.alloc = st.alloc
  txid : TxidExact P mode forkHeight st chain → TxidExact P mode forkHeight st' (below start chain)

theorem chainTotal_reverse (c : List LiveBlock) (k : Bytes) :
    chainTotal P mode forkHeight c.reverse k = chainTotal P mode forkHeight c k := by
  simp [chainTotal, List.sum_reverse]

/-- The totals of an initial part of the chain lie between the allocation and what is stored. -/
theorem Indexed.fits_of_append (H : Indexed P mode keys forkHeight st chain) (h : pre ++ suf = chain)
    (k : Bytes) :
    Fits (chainTotal P mode forkHeight pre k + (allocAcc st.allocations).total k) := by
  have hok : ∀ b ∈ pre ++ suf, b.Ok P mode forkHeight := h ▸ H.ok
  have h1 := chainTotal_nonneg (fun b hb => hok b (List.mem_append_left _ hb)) k
  have h2 := chainTotal_nonneg (fun b hb => hok b (List.mem_append_right _ hb)) k
  refine .of_le (fits_allocAcc H.alloc k) (H.clean.fits k) (le_add_of_nonneg_left h1) ?_
  rw [H.bal k, ← h, chainTotal_append]
  exact add_le_add_left (le_add_of_nonneg_right h2) _

/-- A rollback succeeds and keeps exactly the blocks up to its height. -/
theorem Indexed.rollback (H : Indexed P mode keys forkHeight st chain)
    (hto : heightKey (toHeight + 1) = (.ok start : Except Err Nat)) : ∃ st' removed,
      rollback P mode st toHeight forkHeight = .ok (st', removed) ∧
      RolledBack P mode keys forkHeight st st' chain start := by
  set pre := below start chain with hpre
  set suf := chain.filter (start ≤ ·.height) with hsuf
  have hsplit : pre ++ suf = chain := List.filter_lt_append H.sorted start
  have hpre' : ∀ b ∈ pre, b.height < start := fun b hb => by
    simpa using (List.mem_filter.1 hb).2
  have hsuf' : ∀ b ∈ suf, start ≤ b.height := fun b hb => by
    simpa using (List.mem_filter.1 hb).2
  have hheights : (st.blocks.entries.map Prod.fst).filter (start ≤ ·) = suf.map (·.height) := by
    rw [H.heights, List.filter_map]; rfl
  have hcore : Core P mode keys forkHeight st (pre ++ suf.reverse.reverse) := by
    rw [List.reverse_reverse, hsplit]; exact H.toCore
  obtain ⟨st1, acc, removed, h1, H1, hacc, htot, he1⟩ := hcore.rollbackBlocks .nil []
  rw [List.map_reverse, ← hheights] at h1
  have hbal1 : st1.bal = st.bal := by rw [he1]
  have hparts : ∀ k, partsAt st.bal k + acc.total k =
      chainTotal P mode forkHeight pre k + (allocAcc st.allocations).total k := fun k => by
    rw [H.bal k, htot k, chainTotal_reverse, ← hsplit, chainTotal_append]
    simp only [Acc.total, tally_nil]
    abel
  obtain ⟨bal, hbal⟩ := applyBalances_of_fits st.bal hacc fun k => by
    rw [hparts k]
    exact H.fits_of_append hsplit k
  obtain ⟨hb1, hb2⟩ := applyBalances_ok hbal
  obtain ⟨pkref, txid, hroll, hpkref, htxid⟩ : ∃ pkref txid,
      Bismuth.rollback P mode st toHeight forkHeight =
        .ok ({ st1 with bal, pkref, txid }, removed) ∧
      (∀ k, pkref.get? k = firstKey k (postForkRows forkHeight pre)) ∧
      (TxidExact P mode forkHeight st chain →
        txid.Holds fun k h => ∃ b ∈ pre, b.height = h ∧ k ∈ b.txidKeys P mode forkHeight) := by
    have hpk1 : ∀ k, st1.pkref.get? k = firstKey k (postForkRows forkHeight chain) := by
      rw [he1]; exact H.pkref
    simp only [Bismuth.rollback, hto, Except.ok_bind, h1, hbal1, hbal]
    split <;> rename_i hnil
    · have hs : suf = [] := by simpa [hheights] using hnil
      have hp : pre = chain := by rw [← hsplit, hs, List.append_nil]
      refine ⟨_, _, rfl, hp ▸ hpk1, fun hx => ?_⟩
      rw [he1, hs, hp]
      exact hx
    · refine ⟨_, _, rfl, fun k => ?_, fun hx => ?_⟩
      · rw [OrdTable.get?_filter, hpk1, ← hsplit]
        exact firstKey_below hpre' hsuf' k
      · rw [he1]
        rw [← hsplit] at hx
        exact (hx.below hpre' hsuf')
  refine ⟨_, removed, hroll, ?_, ?_, ?_, ?_, htxid⟩
  · refine { H1 with
      keyTable := ⟨H1.keyTable.known, H1.keyTable.fresh⟩, pkref := hpkref, clean := hb2 H.clean
      bal := fun k => ?_, alloc := ?_ }
    · have : st1.alloc = st.alloc := by rw [he1]
      rw [hb1 k, hparts k]
      simp only [Store.allocations, this]
      rfl
    · have : st1.alloc = st.alloc := by rw [he1]
      simp only [Store.allocations, this]
      intro a u h
      exact H.alloc h
  · show st1.blocks = _
    rw [he1]
    refine OrdTable.ext_get? fun n => ?_
    rw [OrdTable.get?_eraseAll, OrdTable.get?_filter]
    cases hn : st.blocks.get? n with
    | none => simp
    | some body =>
      obtain ⟨b, hb, hbody⟩ := H.of_get? hn
      obtain rfl : n = b.height := hbody.height
      rcases List.mem_append.1 (hsplit ▸ hb : b ∈ pre ++ suf) with hb | hb
      · have hlt := hpre' b hb
        rw [if_neg, Option.filter_some_pos (by simpa using hlt)]
        intro hmem
        obtain ⟨a, ha, he⟩ := List.mem_map.1 hmem
        have := hsuf' a (by simpa using ha)
        omega
      · have hle := hsuf' b hb
        rw [if_pos (List.mem_map.2 ⟨b, by simpa using hb, rfl⟩),
          Option.filter_some_neg (by simpa using hle)]
  · show st1.pkr = _
    rw [he1]
  · show st1.alloc = _
    rw [he1]

/-! ## Allocations -/

theorem total_of_nodup {f : Text → Parts} {l : List Text} (hl : l.Nodup)
    (hs : ∀ a ∈ l, StoredAddress a) (ha : a ∈ l) :
    Acc.total (l.map fun a => (a, f a)) (abytes a) = f a := by
  have hok : Acc.Ok (l.map fun a => (a, f a)) := by
    refine ⟨fun e he => ?_, by simpa [Function.comp_def] using hl⟩
    obtain ⟨x, hx, rfl⟩ := List.mem_map.1 he
    exact hs x hx
  exact tally_of_mem (e := (a, f a)) hok.nodup_keys (List.mem_map.2 ⟨a, ha, rfl⟩)

theorem total_eq_zero {f : Text → Parts} {l : List Text} (h : ∀ a ∈ l, abytes a ≠ k) :
    Acc.total (l.map fun a => (a, f a)) k = 0 := by
  refine tally_of_forall_ne fun e he => ?_
  obtain ⟨x, hx, rfl⟩ := List.mem_map.1 he
  exact h x hx

theorem allocAcc_total_zero (h : ∀ e ∈ alloc.entries, abytes e.1 ≠ k) : (allocAcc alloc).total k = 0 := by
  refine tally_of_forall_ne fun e he => ?_
  obtain ⟨x, hx, rfl⟩ := List.mem_map.1 he
  exact h x hx

/-- The deltas of `set_allocations` are the difference of the two allocations. -/
theorem allocDiff_total {old new : OrdTable Text Int}
    (hold : ∀ {a u}, old.get? a = some u → StoredAddress a ∧ fitsMsgpack u)
    (hnew : ∀ {a u}, new.get? a = some u → StoredAddress a ∧ fitsMsgpack u) (k : Bytes) :
    (allocAcc old).total k + Acc.total ((old.entries.map Prod.fst ++
      (new.entries.map Prod.fst).filter fun a => (old.get? a).isNone).map fun a =>
        (a, 0, (new.get? a).getD 0 - (old.get? a).getD 0, 0, 0)) k = (allocAcc new).total k := by
  set l := old.entries.map Prod.fst ++
    (new.entries.map Prod.fst).filter fun a => (old.get? a).isNone with hl
  have hnd : ∀ t : OrdTable Text Int, (t.entries.map Prod.fst).Nodup := fun t => by
    rw [List.Nodup, List.pairwise_map]
    exact t.sorted.imp fun h => h.ne
  have hkey : ∀ {t : OrdTable Text Int} {a}, a ∈ t.entries.map Prod.fst →
      ∃ u, t.get? a = some u := fun h => by
    obtain ⟨⟨a, u⟩, hmem, rfl⟩ := List.mem_map.1 h
    exact ⟨u, OrdTable.mem_entries.1 hmem⟩
  have hstored : ∀ a ∈ l, StoredAddress a := by
    intro a ha
    rcases List.mem_append.1 ha with ha | ha
    · obtain ⟨u, hu⟩ := hkey ha
      exact (hold hu).1
    · obtain ⟨u, hu⟩ := hkey (List.mem_filter.1 ha).1
      exact (hnew hu).1
  have hlnd : l.Nodup := by
    refine List.nodup_append.2 ⟨hnd old, (hnd new).filter _, fun a ha b hb hab => ?_⟩
    subst hab
    obtain ⟨u, hu⟩ := hkey ha
    have := (List.mem_filter.1 hb).2
    simp [hu] at this
  by_cases h : ∃ a ∈ l, abytes a = k
  · obtain ⟨a, ha, rfl⟩ := h
    rw [total_of_nodup hlnd hstored ha, allocAcc_total hold, allocAcc_total hnew]
    simp
  · have hne : ∀ a ∈ l, abytes a ≠ k := fun a ha hk => h ⟨a, ha, hk⟩
    rw [total_eq_zero hne, allocAcc_total_zero, allocAcc_total_zero, add_zero]
    · intro e he
      by_cases hn : (old.get? e.1).isNone
      · exact hne _ (List.mem_append_right _
          (List.mem_filter.2 ⟨List.mem_map_of_mem he, by simpa using hn⟩))
      · obtain ⟨u, hu⟩ : ∃ u, old.get? e.1 = some u :=
          Option.ne_none_iff_exists'.1 fun h => hn (Option.isNone_iff_eq_none.2 h)
        exact hne _ (List.mem_append_left _
          (List.mem_map.2 ⟨(e.1, u), OrdTable.mem_entries.2 hu, rfl⟩))
    · exact fun e he => hne _ (List.mem_append_left _ (List.mem_map_of_mem he))

/-- Setting the allocations moves every balance by the difference of the two allocations. -/
theorem Indexed.setAllocations {new : OrdTable Text Int}
    (H : Indexed P mode keys forkHeight st chain)
    (hnew : ∀ {a u}, new.get? a = some u → StoredAddress a)
    (h : setAllocations st new = .ok st') :
    Indexed P mode keys forkHeight st' chain ∧
      st' = { st with bal := st'.bal, alloc := some new } := by
  simp only [Bismuth.setAllocations, Except.bind_eq_ok] at h
  obtain ⟨bal, hbal, h⟩ := h
  split at h <;> rename_i hfit
  · cases h
    have hfits : ∀ {a u}, new.get? a = some u → StoredAddress a ∧ fitsMsgpack u := fun h =>
      ⟨hnew h, List.all_eq_true.1 hfit _ (OrdTable.mem_entries.2 h)⟩
    obtain ⟨h1, h2⟩ := applyBalances_ok hbal
    refine ⟨{ H with
      keyTable := ⟨H.keyTable.known, H.keyTable.fresh⟩, clean := h2 H.clean, alloc := hfits
      bal := fun k => ?_ }, rfl⟩
    rw [h1 k, H.bal k, add_assoc, allocDiff_total H.alloc hfits]
    rfl
  · cases h

end Bismuth
