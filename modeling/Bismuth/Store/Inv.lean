import Bismuth.Store.Index

/-!
# The ledger invariant

Every table of the store is determined by the live blocks and the allocations. A commit appends a
block and a rollback removes blocks from the end.
-/

namespace Bismuth
open Py

section
variable (P : Prims) (mode : Mode) (keys : Text → Prop) (forkHeight : Option Nat)

structure LiveBody (pkr : OrdTable Nat Text) (e : Nat × Body) (b : LiveBlock) : Prop where
  height : e.1 = b.height
  hash : e.2.hash = hex b.digest
  hashKey : e.2.hashKey = b.digest
  expands : Expands P mode pkr b.height e.2 b.rows

/-- A block as the digester commits it: it has a coinbase, and its rows could be indexed. -/
structure LiveBlock.Ok (b : LiveBlock) : Prop where
  rows : b.rows ≠ []
  digest : b.digest ≠ []
  stored : ∀ r ∈ b.rows, Row.Stored mode b.height (hex b.digest) r
  indexed : ∃ es, indexEntries P mode b.height forkHeight b.rows = .ok es

/-- The part of the invariant that holds between the rounds of a rollback. -/
structure Core (st : Store) (chain : List LiveBlock) : Prop where
  keyTable : KeyTable P keys st
  blocks : List.Forall₂ (LiveBody P mode st.pkr) st.blocks.entries chain
  ok : ∀ b ∈ chain, b.Ok P mode forkHeight
  contiguous : chain.IsChain fun a b => b.height = a.height + 1
  distinct : chain.Pairwise fun a b => a.digest ≠ b.digest
  hashes : st.hashes.Holds fun k h => ∃ b ∈ chain, b.digest = k ∧ b.height = h
  diff : st.diff.Holds fun h d => ∃ b ∈ chain, b.height = h ∧ b.difficulty = some d
  sig : st.sig.Holds fun k _ => ∃ b ∈ chain, k ∈ b.sigKeys P mode forkHeight
  addr : st.addr.Holds fun k _ => ∃ b ∈ chain, k ∈ b.addrKeys P mode forkHeight
  txcount : st.txCount = (chain.map fun b => b.rows.length).sum
  txcount_lt : st.txCount < 2 ^ 64

def chainTotal (chain : List LiveBlock) (k : Bytes) : Parts :=
  (chain.map fun b => (b.deltas P mode forkHeight).total k).sum

/-- The ledger invariant. -/
structure Indexed (st : Store) (chain : List LiveBlock) : Prop
    extends Core P mode keys forkHeight st chain where
  pkref : ∀ k, st.pkref.get? k = firstKey k (postForkRows forkHeight chain)
  clean : Clean st.bal
  bal : ∀ k, partsAt st.bal k =
    chainTotal P mode forkHeight chain k + (allocAcc st.allocations).total k
  alloc : ∀ {a u}, st.allocations.get? a = some u → StoredAddress a ∧ fitsMsgpack u

def TxidExact (st : Store) (chain : List LiveBlock) : Prop :=
  st.txid.Holds fun k h => ∃ b ∈ chain, b.height = h ∧ k ∈ b.txidKeys P mode forkHeight

end

variable {P : Prims} {mode : Mode} {keys : Text → Prop} {forkHeight : Option Nat}
variable {st st' : Store} {chain : List LiveBlock}

/-! ## Heights -/

section
variable (H : Core P mode keys forkHeight st chain)
include H

theorem Core.heights :
    st.blocks.entries.map Prod.fst = chain.map (·.height) := H.blocks.map_eq fun h => h.height

theorem Core.sorted :
    chain.Pairwise fun a b => a.height < b.height := by
  have := st.blocks.sorted
  rw [← List.pairwise_map (R := (· < ·)), H.heights, List.pairwise_map] at this
  exact this

theorem Core.tip :
    st.tip = chain.getLast?.map (·.height) := by
  rw [Store.tip, OrdTable.lastKey?, ← List.getLast?_map, H.heights, List.getLast?_map]

theorem Core.le_tip :
    ∀ b ∈ chain, b.height ≤ st.tip.getD 0 := by
  intro b hb
  rcases List.eq_nil_or_concat chain with rfl | ⟨l, c, rfl⟩
  · cases hb
  · rw [List.concat_eq_append] at H hb
    rw [H.tip, List.getLast?_concat, Option.map_some, Option.getD_some]
    rcases List.mem_append.1 hb with hb | hb
    · exact ((List.pairwise_append.1 H.sorted).2.2 b hb c (by simp)).le
    · rw [List.mem_singleton.1 hb]

theorem Core.tip_lt : st.tip.getD 0 < 2 ^ 63 := by
  rw [H.tip]
  cases hl : chain.getLast? with
  | none => simp
  | some b =>
    have hb := H.ok b (List.mem_of_getLast? hl)
    obtain ⟨es, hes⟩ := hb.indexed
    exact LiveBlock.height_lt_of_indexed hes hb.rows

theorem Core.of_get?
    (h : st.blocks.get? n = some body) : ∃ b ∈ chain, LiveBody P mode st.pkr (n, body) b :=
  H.blocks.exists_right (OrdTable.mem_entries.2 h)

theorem Core.get? (hb : b ∈ chain) :
    ∃ body, st.blocks.get? b.height = some body ∧ LiveBody P mode st.pkr (b.height, body) b := by
  obtain ⟨⟨n, body⟩, he, h⟩ := H.blocks.exists_left hb
  obtain rfl : n = b.height := h.height
  exact ⟨body, OrdTable.mem_entries.1 he, h⟩

theorem Core.lt_of_tip
    (h : st.tip.any (n ≠ · + 1) = false) (hb : b ∈ chain) : b.height < n := by
  obtain ⟨c, l, hc⟩ : ∃ c l, chain = l ++ [c] := by
    have := List.dropLast_append_getLast (List.ne_nil_of_mem hb)
    exact ⟨_, _, this.symm⟩
  subst hc
  rw [H.tip, List.getLast?_concat, Option.map_some, Option.any_some] at h
  obtain rfl : n = c.height + 1 := by simpa using h
  rcases List.mem_append.1 hb with hb | hb
  · have := (List.pairwise_append.1 H.sorted).2.2 b hb c (by simp)
    omega
  · obtain rfl := List.mem_singleton.1 hb
    omega

end

theorem LiveBody.extend {t t' : OrdTable Nat Text} (h : ∀ {i p}, t.get? i = some p → t'.get? i = some p)
    (H : LiveBody P mode t e b) : LiveBody P mode t' e b :=
  ⟨H.height, H.hash, H.hashKey, H.expands.extend h⟩

/-! ## Commit -/

theorem indexRows_ok (h : indexRows P mode d st n rows acc forkHeight = .ok (st', acc')) :
    ∃ es pkref, indexEntries P mode n forkHeight rows = .ok es ∧
      (if d = .write ∧ postFork forkHeight n then registerKeys n st.pkref rows
        else .ok st.pkref) = .ok pkref ∧
      acc' = acc.fold d (es.flatMap (·.deltas)) ∧
      st' = { st with
        sig := d.all st.sig (es.filterMap (·.sig)) ()
        addr := d.all st.addr (es.flatMap (·.addr)) ()
        txid := d.all st.txid (es.filterMap (·.txid)) n
        pkref } := by
  simp only [indexRows, Except.bind_eq_ok] at h
  obtain ⟨es, hes, pkref, hp, h⟩ := h
  cases h
  exact ⟨es, pkref, hes, hp, rfl, rfl⟩

theorem bumpTxcount_ok (h : bumpTxcount m d = (.ok m' : Except Err _)) :
    ((m'.getD 0 : Nat) : Int) = max 0 (m.getD 0 + d) ∧ m'.getD 0 < 2 ^ 64 := by
  simp only [bumpTxcount] at h
  cases hk : heightKey (max 0 ((m.getD 0 : Nat) + d)) with
  | error e => rw [hk] at h; cases h
  | ok k =>
    rw [hk] at h
    cases h
    obtain ⟨h1, h2, rfl⟩ := heightKey_ok hk
    simp only [Option.getD_some]
    omega

theorem commitBlock_ok {difficulty : Option Val}
    (h : commitBlock P mode st n bh rows difficulty forkHeight = .ok st') :
    ∃ st1 es pkref bal m, st.tip.any (n ≠ · + 1) = false ∧
      putBody P mode st n bh rows forkHeight = .ok st1 ∧
      indexEntries P mode n forkHeight rows = .ok es ∧
      (if postFork forkHeight n then registerKeys n st1.pkref rows else .ok st1.pkref) =
        .ok pkref ∧
      applyBalances st1.bal (Acc.fold .write [] (es.flatMap (·.deltas))) = .ok bal ∧
      bumpTxcount st1.txcount rows.length = .ok m ∧
      st' = { st1 with
        diff := putDifficulty st1.diff n difficulty
        sig := st1.sig.putAll ((es.filterMap (·.sig)).map (·, ()))
        addr := st1.addr.putAll ((es.flatMap (·.addr)).map (·, ()))
        txid := st1.txid.putAll ((es.filterMap (·.txid)).map (·, n))
        pkref, bal, txcount := m } := by
  simp only [commitBlock] at h
  split at h
  · cases h
  · rename_i htip
    simp only [Except.bind_eq_ok, Prod.exists] at h
    obtain ⟨st1, h1, st2, acc, h2, bal, h3, m, h4, h⟩ := h
    obtain ⟨es, pkref, hes, hp, rfl, rfl⟩ := indexRows_ok h2
    cases h
    refine ⟨st1, es, pkref, bal, m, by simpa using htip, h1, hes, by simpa using hp, h3, h4, rfl⟩

structure NewBlock (mode : Mode) (keys : Text → Prop) (n : Nat) (digest : Bytes)
    (rows : List Row) : Prop where
  nonempty : rows ≠ []
  stored : ∀ r ∈ rows, Row.Stored mode n (hex digest) r
  known : ∀ r ∈ rows, keys r.publicKey

theorem chainTotal_append (c c' : List LiveBlock) (k : Bytes) :
    chainTotal P mode forkHeight (c ++ c') k =
      chainTotal P mode forkHeight c k + chainTotal P mode forkHeight c' k := by
  simp [chainTotal]

theorem chainTotal_singleton (b : LiveBlock) (k : Bytes) :
    chainTotal P mode forkHeight [b] k = (b.deltas P mode forkHeight).total k := by
  simp [chainTotal]

theorem postForkRows_append (c c' : List LiveBlock) : postForkRows forkHeight (c ++ c') =
    postForkRows forkHeight c ++ postForkRows forkHeight c' := by
  simp [postForkRows]

theorem exists_mem_concat {p : LiveBlock → Prop} :
    (∃ b ∈ chain ++ [c], p b) ↔ (∃ b ∈ chain, p b) ∨ p c := by
  simp [or_and_right, exists_or]

theorem Indexed.commit {difficulty : Option Val} (H : Indexed P mode keys forkHeight st chain) (hd : KeysDistinct P keys)
    (hnew : NewBlock mode keys n digest rows) (hdistinct : ∀ b ∈ chain, b.digest ≠ digest)
    (h : commitBlock P mode st n (hex digest) rows difficulty forkHeight = .ok st') :
    ∃ rows', List.Forall₂ (RowOf P mode forkHeight n (hex digest)) rows rows' ∧
      Indexed P mode keys forkHeight st'
        (chain ++ [⟨n, digest, rows', difficulty.map columnText⟩]) := by
  obtain ⟨st1, es, pkref, bal, m, htip, h1, hes, hp, hbal, hm, rfl⟩ := commitBlock_ok h
  obtain ⟨pk, pkr, body, rows', hbody, hkt, hpkr, hne, rfl⟩ :=
    putBody_spec hd H.keyTable hnew.known hnew.stored h1
  have hsame : SameRows P mode forkHeight rows rows' := hbody.rows.imp fun _ _ h => h.same
  have hes' : indexEntries P mode n forkHeight rows' = .ok es := (hsame.indexEntries n).trans hes
  have hlen : rows'.length = rows.length := hbody.rows.length_eq.symm
  refine ⟨rows', hbody.rows, ?_⟩
  set b : LiveBlock := ⟨n, digest, rows', difficulty.map columnText⟩ with hb
  have hentries : b.entries P mode forkHeight = es := LiveBlock.entries_eq hes'
  have hbelow : ∀ c ∈ chain, c.height < n := fun c hc => H.lt_of_tip htip hc
  have hkeys : ∀ e ∈ st.blocks.entries, e.1 < n := fun e he => by
    obtain ⟨c, hc, hl⟩ := H.blocks.exists_right he
    exact hl.height ▸ hbelow c hc
  have hok : b.Ok P mode forkHeight := by
    refine ⟨fun h => hnew.nonempty (List.eq_nil_of_length_eq_zero ?_), hne, fun r' hr' => ?_, es,
      hes'⟩
    · rw [← hlen, show rows' = [] from h]; rfl
    · obtain ⟨r, -, h⟩ := hbody.rows.exists_left hr'
      exact h.stored
  obtain ⟨hb1, hb2⟩ := applyBalances_ok hbal
  obtain ⟨hm1, hm2⟩ := bumpTxcount_ok hm
  refine { keyTable := ⟨hkt.known, hkt.fresh⟩, blocks := ?_, ok := ?_, contiguous := ?_,
           distinct := ?_, hashes := ?_, diff := ?_, sig := ?_, addr := ?_, txcount := ?_,
           txcount_lt := hm2, pkref := ?_, clean := hb2 H.clean, bal := ?_, alloc := H.alloc }
  · show List.Forall₂ _ (st.blocks.put n body).entries _
    rw [OrdTable.entries_put_of_lt _ hkeys]
    exact (H.blocks.imp fun _ _ h => h.extend hpkr).append
      (.cons ⟨rfl, hbody.hash, hbody.hashKey, hbody.expands⟩ .nil)
  · intro c hc
    rcases List.mem_append.1 hc with hc | hc
    · exact H.ok c hc
    · exact List.mem_singleton.1 hc ▸ hok
  · refine List.isChain_append.2 ⟨H.contiguous, .singleton _, fun c hc c' hc' => ?_⟩
    obtain rfl : b = c' := by simpa using hc'
    rw [H.tip, hc] at htip
    simpa using htip
  · exact List.pairwise_append.2 ⟨H.distinct, List.pairwise_singleton _ _,
      fun c hc c' hc' => List.mem_singleton.1 hc' ▸ hdistinct c hc⟩
  · refine (H.hashes.put (k := digest) (v := n) ?_).congr fun k h => ?_
    · rintro h ⟨c, hc, he, -⟩
      exact absurd he (hdistinct c hc)
    · rw [exists_mem_concat]
      simp [hb, eq_comm]
  · show (putDifficulty st.diff n difficulty).Holds _
    cases difficulty with
    | none => exact H.diff.congr fun h d => by rw [exists_mem_concat]; simp [hb]
    | some v =>
      refine (H.diff.put (k := n) (v := columnText v) ?_).congr fun h d => ?_
      · rintro d ⟨c, hc, he, -⟩
        exact absurd he (hbelow c hc).ne
      · rw [exists_mem_concat]
        simp [hb, eq_comm]
  · refine (H.sig.putAll (v := ()) fun _ _ _ _ => rfl).congr fun k _ => ?_
    rw [exists_mem_concat]
    simp [LiveBlock.sigKeys, hentries]
  · refine (H.addr.putAll (v := ()) fun _ _ _ _ => rfl).congr fun k _ => ?_
    rw [exists_mem_concat]
    simp [LiveBlock.addrKeys, hentries]
  · have := H.txcount
    simp only [Store.txCount] at this hm1 ⊢
    simp only [List.map_append, List.sum_append, List.map_cons, List.map_nil, List.sum_singleton, hb,
      hlen]
    omega
  · intro k
    rw [postForkRows_append, firstKey_append, ← H.pkref]
    split at hp <;> rename_i hf
    · rw [registerKeys_ok hp, ← hsame.firstKey]
      simp [postForkRows, hb, hf]
    · cases hp
      simp [postForkRows, hb, hf, firstKey]
  · intro k
    rw [chainTotal_append, chainTotal_singleton, hb1 k, Acc.total_fold_write, LiveBlock.deltas,
      hentries]
    have := H.bal k
    simp only [Store.allocations] at this ⊢
    rw [this]
    simp only [Acc.total, tally_nil]
    abel

end Bismuth
