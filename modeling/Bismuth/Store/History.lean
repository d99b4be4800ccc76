import Bismuth.Store.Answers
import Bismuth.Store.Rollback
import Mathlib

/-!
# Histories of the store

Any sequence of commits, rollbacks and allocations from the empty store. The blocks that were
committed and not rolled back determine what the store holds and what it answers.
-/

namespace Bismuth
open Py Relation

section
variable (P : Prims) (mode : Mode) (keys : Text → Prop) (forkHeight : Option Nat)

structure Ledger where
  store : Store
  chain : List LiveBlock

instance : EmptyCollection Ledger := ⟨⟨{}, []⟩⟩

def upTo (h : Int) (chain : List LiveBlock) : List LiveBlock :=
  chain.filter fun b => (b.height : Int) ≤ h

/-- One call that succeeds. A call that raises aborts its transaction and leaves the store as it
was. -/
inductive Step : Ledger → Ledger → Prop
  | commit (difficulty : Option Val) : NewBlock mode keys n digest rows →
    (∀ b ∈ chain, b.digest ≠ digest) →
    commitBlock P mode st n (hex digest) rows difficulty forkHeight = .ok st' →
    Step ⟨st, chain⟩ ⟨st', chain ++ [⟨n, digest, rows, difficulty.map columnText⟩]⟩
  | rollback : rollback P mode st h forkHeight = .ok (st', removed) →
    Step ⟨st, chain⟩ ⟨st', upTo h chain⟩
  | setAllocations {alloc : OrdTable Text Int} : (∀ a u, alloc.get? a = some u → StoredAddress a) →
    setAllocations st alloc = .ok st' → Step ⟨st, chain⟩ ⟨st', chain⟩

/-- A step that commits no txid of a row in an earlier live block. -/
def FreshStep (l l' : Ledger) : Prop :=
  Step P mode keys forkHeight l l' ∧ ∀ b, l'.chain = l.chain ++ [b] →
    ∀ a ∈ l.chain, ∀ k ∈ b.txidKeys P mode forkHeight, k ∉ a.txidKeys P mode forkHeight

/-- `b'` is the block `b` as the store gives it back. -/
structure LiveBlock.Shows (b b' : LiveBlock) : Prop where
  height : b'.height = b.height
  digest : b'.digest = b.digest
  difficulty : b'.difficulty = b.difficulty
  rows : List.Forall₂ (RowOf P mode forkHeight b.height (hex b.digest)) b.rows b'.rows

end

variable {P : Prims} {mode : Mode} {keys : Text → Prop} {forkHeight : Option Nat}

namespace LiveBlock.Shows
variable {b b' : LiveBlock}

section
variable (H : b.Shows P mode forkHeight b')
include H

theorem sameRows : SameRows P mode forkHeight b.rows b'.rows :=
  H.rows.imp fun _ _ h => h.same

theorem entries :
    b'.entries P mode forkHeight = b.entries P mode forkHeight := by
  simp only [LiveBlock.entries, H.height, H.sameRows.indexEntries]

theorem sigKeys :
    b'.sigKeys P mode forkHeight = b.sigKeys P mode forkHeight := by
  simp only [LiveBlock.sigKeys, H.entries]

theorem addrKeys :
    b'.addrKeys P mode forkHeight = b.addrKeys P mode forkHeight := by
  simp only [LiveBlock.addrKeys, H.entries]

theorem txidKeys :
    b'.txidKeys P mode forkHeight = b.txidKeys P mode forkHeight := by
  simp only [LiveBlock.txidKeys, H.entries]

theorem unique {c : LiveBlock}
    (H' : b.Shows P mode forkHeight c) : b' = c := by
  have hrows : b'.rows = c.rows := by
    have h := H.rows
    have h' := H'.rows
    generalize b.rows = l, b'.rows = l₁, c.rows = l₂ at h h'
    induction h generalizing l₂ with
    | nil => cases h'; rfl
    | cons hr _ ih =>
      obtain ⟨r', l', hr', hl', rfl⟩ := List.forall₂_cons_left_iff.1 h'
      rw [hr.back.unique hr'.back, ih l' hl']
  obtain ⟨_, _, _, _⟩ := b'
  obtain ⟨_, _, _, _⟩ := c
  have h1 := H.height.trans H'.height.symm
  have h2 := H.digest.trans H'.digest.symm
  have h3 := H.difficulty.trans H'.difficulty.symm
  simp_all

end

end LiveBlock.Shows

/-- Blocks, and the same blocks as the store gives them back. -/
abbrev ShowsAll (P : Prims) (mode : Mode) (forkHeight : Option Nat) :
    List LiveBlock → List LiveBlock → Prop :=
  List.Forall₂ (LiveBlock.Shows P mode forkHeight)

namespace ShowsAll
variable {chain read : List LiveBlock}

theorem exists_iff (H : ShowsAll P mode forkHeight chain read) {p q : LiveBlock → Prop}
    (hpq : ∀ {b b'}, b.Shows P mode forkHeight b' → (p b' ↔ q b)) :
    (∃ b ∈ read, p b) ↔ ∃ b ∈ chain, q b := by
  constructor
  · rintro ⟨b', hb', hp⟩
    obtain ⟨b, hb, h⟩ := H.exists_left hb'
    exact ⟨b, hb, (hpq h).1 hp⟩
  · rintro ⟨b, hb, hq⟩
    obtain ⟨b', hb', h⟩ := H.exists_right hb
    exact ⟨b', hb', (hpq h).2 hq⟩

theorem unique {read' : List LiveBlock} (H : ShowsAll P mode forkHeight chain read)
    (H' : ShowsAll P mode forkHeight chain read') : read = read' := by
  induction H generalizing read' with
  | nil => cases H'; rfl
  | cons hb _ ih =>
    obtain ⟨b', l', hb', hl', rfl⟩ := List.forall₂_cons_left_iff.1 H'
    rw [hb.unique hb', ih hl']

theorem upTo (H : ShowsAll P mode forkHeight chain read) (h : Int) :
    ShowsAll P mode forkHeight (upTo h chain) (Bismuth.upTo h read) :=
  List.rel_filter (fun b b' hb => by simp only [hb.height]) H

end ShowsAll

theorem below_eq_upTo {start : Nat} (h : heightKey (n + 1) = (.ok start : Except Err Nat))
    (chain : List LiveBlock) : below start chain = upTo n chain := by
  obtain ⟨h0, -, rfl⟩ := heightKey_ok h
  refine List.filter_congr fun b _ => ?_
  rw [decide_eq_decide]
  omega

/-! ## The invariant of a history -/

/-- The store holds the ledger's blocks, as it gives them back. -/
def Ledger.Good (P : Prims) (mode : Mode) (keys : Text → Prop) (forkHeight : Option Nat)
    (l : Ledger) : Prop :=
  ∃ read, ShowsAll P mode forkHeight l.chain read ∧ Indexed P mode keys forkHeight l.store read

theorem Indexed.empty : Indexed P mode keys forkHeight {} [] where
  keyTable := ⟨by simp, by simp⟩
  blocks := .nil
  ok := by simp
  contiguous := .nil
  distinct := .nil
  hashes := .empty (by simp)
  diff := .empty (by simp)
  sig := .empty (by simp)
  addr := .empty (by simp)
  txcount := rfl
  txcount_lt := by simp [Store.txCount]
  pkref := fun k => rfl
  clean := by simp [Clean]
  bal := fun k => rfl
  alloc := by simp [Store.allocations]

variable {l : Ledger}

theorem Ledger.Good.keyTable (H : l.Good P mode keys forkHeight) : KeyTable P keys l.store := by
  obtain ⟨_, _, H⟩ := H
  exact H.keyTable

theorem Ledger.Good.empty : Ledger.Good P mode keys forkHeight ∅ := ⟨[], .nil, .empty⟩

theorem Step.good (hd : KeysDistinct P keys) (h : Step P mode keys forkHeight l l')
    (H : l.Good P mode keys forkHeight) : l'.Good P mode keys forkHeight := by
  obtain ⟨read, hread, H⟩ := H
  cases h with
  | commit difficulty hnew hdist hc =>
    have hdist' : ∀ b' ∈ read, b'.digest ≠ _ := fun b' hb' => by
      obtain ⟨b, hb, hs⟩ := hread.exists_left hb'
      exact hs.digest ▸ hdist b hb
    obtain ⟨rows', hrows, H'⟩ := H.commit hd hnew hdist' hc
    refine ⟨_, hread.append (.cons ?_ .nil), H'⟩
    exact ⟨rfl, rfl, rfl, hrows⟩
  | @rollback st n st' removed chain hr =>
    cases hk : heightKey (n + 1) with
    | error e => simp [Bismuth.rollback, hk] at hr
    | ok start =>
      obtain ⟨st'', removed', hr', H'⟩ := H.rollback hk
      obtain ⟨rfl, rfl⟩ : st'' = st' ∧ removed' = removed := by
        rw [hr] at hr'; simpa [eq_comm] using hr'
      exact ⟨_, below_eq_upTo hk read ▸ hread.upTo n, H'.indexed⟩
  | setAllocations hnew ha =>
    exact ⟨read, hread, (H.setAllocations (fun h => hnew _ _ h) ha).1⟩

variable {chain read : List LiveBlock}

theorem ShowsAll.txidExact (H : ShowsAll P mode forkHeight chain read) :
    TxidExact P mode forkHeight st read ↔ TxidExact P mode forkHeight st chain := by
  have : ∀ k h, (∃ b ∈ read, b.height = h ∧ k ∈ b.txidKeys P mode forkHeight) ↔
      ∃ b ∈ chain, b.height = h ∧ k ∈ b.txidKeys P mode forkHeight :=
    fun k h => H.exists_iff fun hs => by rw [hs.height, hs.txidKeys]
  exact ⟨fun h => h.congr this, fun h => h.congr fun k h => (this k h).symm⟩

theorem commitBlock_txid {difficulty : Option Val} (hd : KeysDistinct P keys) (hst : KeyTable P keys st)
    (hnew : NewBlock mode keys n digest rows)
    (h : commitBlock P mode st n (hex digest) rows difficulty forkHeight = .ok st') :
    st'.txid = st.txid.putAll
      (((⟨n, digest, rows, d⟩ : LiveBlock).txidKeys P mode forkHeight).map (·, n)) := by
  obtain ⟨st1, es, pkref, bal, m, -, h1, hes, -, -, -, rfl⟩ := commitBlock_ok h
  obtain ⟨pk, pkr, body, rows', -, -, -, -, rfl⟩ := putBody_spec hd hst hnew.known hnew.stored h1
  simp only [LiveBlock.txidKeys, LiveBlock.entries_eq (b := ⟨n, digest, rows, d⟩) hes]

theorem commitBlock_alloc {difficulty : Option Val} (hd : KeysDistinct P keys) (hst : KeyTable P keys st)
    (hnew : NewBlock mode keys n digest rows)
    (h : commitBlock P mode st n (hex digest) rows difficulty forkHeight = .ok st') :
    st'.alloc = st.alloc := by
  obtain ⟨st1, es, pkref, bal, m, -, h1, -, -, -, -, rfl⟩ := commitBlock_ok h
  obtain ⟨pk, pkr, body, rows', -, -, -, -, rfl⟩ := putBody_spec hd hst hnew.known hnew.stored h1
  rfl

theorem Ledger.Good.rollback_alloc (H : l.Good P mode keys forkHeight)
    (h : Bismuth.rollback P mode l.store n forkHeight = .ok (st', removed)) :
    st'.alloc = l.store.alloc := by
  obtain ⟨read, -, H⟩ := H
  cases hk : heightKey (n + 1) with
  | error e => simp [Bismuth.rollback, hk] at h
  | ok start =>
    obtain ⟨_, _, hr, H'⟩ := H.rollback hk
    rw [h] at hr
    cases hr
    exact H'.alloc

theorem FreshStep.txidExact (hd : KeysDistinct P keys) (h : FreshStep P mode keys forkHeight l l')
    (H : l.Good P mode keys forkHeight) (hex : TxidExact P mode forkHeight l.store l.chain) :
    TxidExact P mode forkHeight l'.store l'.chain := by
  obtain ⟨read, hread, H⟩ := H
  obtain ⟨h, hfresh⟩ := h
  cases h with
  | @commit n digest rows chain st st' difficulty hnew hdist hc =>
    set b : LiveBlock := ⟨n, digest, rows, difficulty.map columnText⟩ with hb
    have hf := hfresh b rfl
    rw [TxidExact, commitBlock_txid (d := difficulty.map columnText) hd H.keyTable hnew hc]
    refine (OrdTable.Holds.putAll hex fun k hk h => ?_).congr fun k h => ?_
    · rintro ⟨a, ha, -, hka⟩
      exact absurd hka (hf a ha k hk)
    · rw [exists_mem_concat]
      simp [hb, eq_comm, and_comm]
  | @rollback st n st' removed chain hr =>
    cases hk : heightKey (n + 1) with
    | error e => simp [Bismuth.rollback, hk] at hr
    | ok start =>
      obtain ⟨st'', removed', hr', H'⟩ := H.rollback hk
      obtain ⟨rfl, rfl⟩ : st'' = st' ∧ removed' = removed := by
        rw [hr] at hr'; simpa [eq_comm] using hr'
      refine ((hread.upTo n).txidExact).1 ?_
      exact below_eq_upTo hk read ▸ H'.txid (hread.txidExact.2 hex)
  | setAllocations hnew ha =>
    obtain ⟨-, he⟩ := H.setAllocations (fun h => hnew _ _ h) ha
    have : _ = _ := congrArg Store.txid he
    rw [TxidExact, this]
    exact hex

theorem good_of_history (hd : KeysDistinct P keys)
    (h : ReflTransGen (Step P mode keys forkHeight) ∅ l) : l.Good P mode keys forkHeight := by
  induction h with
  | refl => exact .empty
  | tail _ hs ih => exact hs.good hd ih

theorem history_of_fresh (h : ReflTransGen (FreshStep P mode keys forkHeight) ∅ l) :
    ReflTransGen (Step P mode keys forkHeight) ∅ l :=
  ReflTransGen.mono (fun _ _ (hs : FreshStep P mode keys forkHeight _ _) => hs.1) _ _ h

theorem txidExact_of_history (hd : KeysDistinct P keys)
    (h : ReflTransGen (FreshStep P mode keys forkHeight) ∅ l) :
    TxidExact P mode forkHeight l.store l.chain := by
  induction h with
  | refl => exact .empty (by simp [EmptyCollection.emptyCollection])
  | tail hr hs ih => exact hs.txidExact hd (good_of_history hd (history_of_fresh hr)) ih

/-! ## What the tables hold -/

/-- The units of a money column; zero if it does not read as a number. -/
def unitsOf (mode : Mode) (s : Text) : Int :=
  match (units mode (.str s) : Except Err Int) with
  | .ok u => u
  | .error _ => 0

def Row.partsFor (mode : Mode) (a : Text) (r : Row) : Parts :=
  (if r.recipient = a then (unitsOf mode r.amount, unitsOf mode r.reward, 0, 0) else 0) +
    if r.address = a then (0, 0, unitsOf mode r.amount, unitsOf mode r.fee) else 0

/-- The tables of the store hold the entries of the ledger's blocks and no others. -/
structure Ledger.Exact (P : Prims) (mode : Mode) (forkHeight : Option Nat) (l : Ledger) : Prop where
  heights : l.store.blocks.entries.map Prod.fst = l.chain.map (·.height)
  contiguous : l.chain.IsChain fun a b => b.height = a.height + 1
  tip : l.store.tip = l.chain.getLast?.map (·.height)
  heightByHash : ∀ (n : Nat) x, l.store.blockHash n = .ok (some x) →
    l.store.heightByHash x = .ok (some n)
  blockHash : ∀ d n, l.store.heightByHash (hex d) = .ok (some n) →
    l.store.blockHash n = .ok (some (hex d))
  live : ∀ b ∈ l.chain, l.store.blockHash b.height = .ok (some (hex b.digest))
  sig : l.store.sig.Holds fun k _ => ∃ b ∈ l.chain, k ∈ b.sigKeys P mode forkHeight
  addr : l.store.addr.Holds fun k _ => ∃ b ∈ l.chain, k ∈ b.addrKeys P mode forkHeight
  diff : l.store.diff.Holds fun h d => ∃ b ∈ l.chain, b.height = h ∧ b.difficulty = some d
  txCount : l.store.txCount = (l.chain.map fun b => b.rows.length).sum
  pkref : ∀ k, l.store.pkref.get? k = firstKey k (postForkRows forkHeight l.chain)
  parts : ∀ a, StoredAddress a → l.store.balanceParts a =
    .ok (((l.chain.flatMap (·.rows)).map (Row.partsFor mode a)).sum +
      (0, (l.store.allocations.get? a).getD 0, 0, 0))

theorem unitsOf_eq (h : units mode (.str s) = (.ok u : Except Err Int)) : unitsOf mode s = u := by
  simp [unitsOf, h]

theorem total_deltas_row (h : indexEntry P mode n forkHeight idx r = .ok e)
    (hr : StoredAddress r.recipient) (hs : StoredAddress r.address) (a : Text) :
    Acc.total e.deltas (abytes a) = r.partsFor mode a := by
  obtain ⟨q, amt, reward, fee, -, h1, h2, h3, -, -, hd, -⟩ := indexEntry_ok h
  have key : ∀ {b}, StoredAddress b → (abytes b = abytes a ↔ b = a) := fun hb =>
    ⟨abytes_inj hb.2, fun h => by rw [h]⟩
  rw [hd, Acc.total_cons, Acc.total_cons]
  simp only [key hr, key hs, Row.partsFor, unitsOf_eq h1, unitsOf_eq h2, unitsOf_eq h3, Acc.total,
    tally_nil, add_zero]

theorem LiveBlock.Ok.total_deltas {b : LiveBlock} (h : b.Ok P mode forkHeight)
    (a : Text) : (b.deltas P mode forkHeight).total (abytes a) =
      (b.rows.map (Row.partsFor mode a)).sum := by
  obtain ⟨es, hes⟩ := h.indexed
  rw [LiveBlock.deltas, LiveBlock.entries_eq hes]
  have hrel : List.Forall₂ (fun (x : Row × Nat) e => indexEntry P mode b.height forkHeight x.2 x.1 =
      .ok e) b.rows.zipIdx es := Except.mapM_eq_ok.1 hes
  have hmem : ∀ x ∈ b.rows.zipIdx, x.1 ∈ b.rows := fun x hx =>
    List.fst_mem_of_mem_zipIdx hx
  rw [← List.zipIdx_map_fst 0 b.rows, List.map_map]
  clear hes
  generalize b.rows.zipIdx = l at hrel hmem ⊢
  induction hrel with
  | nil => rfl
  | @cons x e l es hx _ ih =>
    have hst := h.stored x.1 (hmem x (by simp))
    rw [List.flatMap_cons, Acc.total, tally_append, List.map_cons, List.sum_cons, ← Acc.total,
      ← Acc.total, ih fun y hy => hmem y (by simp [hy]),
      total_deltas_row hx hst.recipient hst.address]
    rfl

theorem SameRows.partsFor (h : SameRows P mode forkHeight rows rows') (a : Text) :
    rows'.map (Row.partsFor mode a) = rows.map (Row.partsFor mode a) :=
  (h.map_eq fun h => by
    simp only [Row.partsFor, unitsOf, h.recipient, h.address, h.amount, h.fee, h.reward]).symm

variable {chain : List LiveBlock}

theorem Core.blockHash_iff (H : Core P mode keys forkHeight st chain) (n : Nat) (x : Text) :
    st.blockHash n = .ok (some x) ↔ ∃ b ∈ chain, b.height = n ∧ hex b.digest = x := by
  constructor
  · intro h
    simp only [Store.blockHash, Except.bind_eq_ok] at h
    obtain ⟨k, hk, h⟩ := h
    obtain ⟨-, -, rfl⟩ := heightKey_ok hk
    obtain ⟨body, hb, hx⟩ := Option.map_eq_some_iff.1 (Except.ok.inj h)
    obtain ⟨b, hb, hl⟩ := H.of_get? hb
    exact ⟨b, hb, hl.height.symm, hl.hash.symm.trans hx⟩
  · rintro ⟨b, hb, rfl, rfl⟩
    obtain ⟨body, hbody, hl⟩ := H.get? hb
    obtain ⟨es, hes⟩ := (H.ok b hb).indexed
    have hlt := LiveBlock.height_lt_of_indexed hes (H.ok b hb).rows
    rw [Store.blockHash, heightKey_natCast (by omega), Except.ok_bind, hbody, Option.map_some,
      hl.hash]
    rfl

theorem Core.heightByHash_iff (H : Core P mode keys forkHeight st chain) (d : Bytes) (n : Nat) :
    st.heightByHash (hex d) = .ok (some n) ↔ ∃ b ∈ chain, b.height = n ∧ b.digest = d := by
  rw [Store.heightByHash, hashKey_hex]
  by_cases hd : d = []
  · simp only [hd, if_true, reduceCtorEq, false_iff, not_exists, not_and]
    exact fun b hb _ => (H.ok b hb).digest
  · rw [if_neg hd, Except.ok.injEq, H.hashes]
    exact exists_congr fun b => and_congr_right fun _ => and_comm

/-- The registrations of the rows committed are those of the rows read back. -/
theorem ShowsAll.firstKey (H : ShowsAll P mode forkHeight chain read) (k : Bytes) :
    firstKey k (postForkRows forkHeight read) = firstKey k (postForkRows forkHeight chain) := by
  induction H with
  | nil => rfl
  | @cons b b' chain read hb _ ih =>
    rw [← List.singleton_append (l := read), ← List.singleton_append (l := chain),
      postForkRows_append, postForkRows_append, firstKey_append, firstKey_append, ih]
    congr 1
    simp only [postForkRows, List.filter_cons, hb.height]
    split
    · simpa [hb.height] using hb.sameRows.firstKey k b.height
    · rfl

theorem chainTotal_rows (hok : ∀ b ∈ chain, b.Ok P mode forkHeight) (a : Text) :
    chainTotal P mode forkHeight chain (abytes a) =
      ((chain.flatMap (·.rows)).map (Row.partsFor mode a)).sum := by
  induction chain with
  | nil => rfl
  | cons b chain ih =>
    rw [← List.singleton_append (l := chain), chainTotal_append, chainTotal_singleton,
      ih fun c hc => hok c (by simp [hc]), (hok b (by simp)).total_deltas, List.singleton_append,
      List.flatMap_cons, List.map_append, List.sum_append]

theorem ShowsAll.partsFor (H : ShowsAll P mode forkHeight chain read)
    (a : Text) : (read.flatMap (·.rows)).map (Row.partsFor mode a) =
      (chain.flatMap (·.rows)).map (Row.partsFor mode a) := by
  induction H with
  | nil => rfl
  | cons hb _ ih =>
    rw [List.flatMap_cons, List.flatMap_cons, List.map_append, List.map_append, ih,
      hb.sameRows.partsFor]

theorem Ledger.Good.exact (H : l.Good P mode keys forkHeight) : l.Exact P mode forkHeight := by
  obtain ⟨read, hread, H⟩ := H
  have hheights : read.map (·.height) = l.chain.map (·.height) :=
    (hread.map_eq fun h => h.height.symm).symm
  refine { heights := H.heights.trans hheights, contiguous := ?_, tip := ?_, heightByHash := ?_,
           blockHash := ?_, live := ?_, sig := ?_, addr := ?_, diff := ?_, txCount := ?_,
           pkref := ?_, parts := ?_ }
  · have := (List.isChain_map (R := fun m n => n = m + 1) LiveBlock.height).2 H.contiguous
    rw [hheights] at this
    exact (List.isChain_map _).1 this
  · rw [H.tip, ← List.getLast?_map, hheights, List.getLast?_map]
  · intro n x h
    obtain ⟨b, hb, hn, rfl⟩ := (H.blockHash_iff n x).1 h
    exact (H.heightByHash_iff b.digest n).2 ⟨b, hb, hn, rfl⟩
  · intro d n h
    obtain ⟨b, hb, hn, rfl⟩ := (H.heightByHash_iff d n).1 h
    exact (H.blockHash_iff n _).2 ⟨b, hb, hn, rfl⟩
  · intro b hb
    obtain ⟨b', hb', hs⟩ := hread.exists_right hb
    exact (H.blockHash_iff _ _).2 ⟨b', hb', hs.height, by rw [hs.digest]⟩
  · exact H.sig.congr fun k _ => hread.exists_iff fun h => by rw [h.sigKeys]
  · exact H.addr.congr fun k _ => hread.exists_iff fun h => by rw [h.addrKeys]
  · exact H.diff.congr fun n d => hread.exists_iff fun h => by rw [h.height, h.difficulty]
  · have : read.map (fun b => b.rows.length) = l.chain.map fun b => b.rows.length :=
      (hread.map_eq fun h => h.rows.length_eq).symm
    rw [H.txcount, this]
  · exact fun k => (H.pkref k).trans (hread.firstKey k)
  · intro a ha
    rw [Store.balanceParts, if_neg (abytes_ne_nil ha.1)]
    congr 1
    have hb := H.bal (abytes a)
    rw [partsAt, allocAcc_total H.alloc] at hb
    rw [hb, chainTotal_rows H.ok, hread.partsFor]

/-! ## Going back -/

theorem upTo_of_isPrefix {chain c : List LiveBlock} {b : LiveBlock}
    (hs : chain.Pairwise fun a b => a.height < b.height) (h : c ++ [b] <+: chain) :
    upTo b.height chain = c ++ [b] := by
  obtain ⟨t, rfl⟩ := h
  obtain ⟨h1, -, h3⟩ := List.pairwise_append.1 hs
  obtain ⟨-, -, h2⟩ := List.pairwise_append.1 h1
  rw [upTo, List.filter_append, List.filter_eq_self.2, List.filter_eq_nil_iff.2, List.append_nil]
  · intro a ha
    have := h3 b (by simp) a ha
    simpa using this
  · intro a ha
    rcases List.mem_append.1 ha with ha | ha
    · have := h2 a ha b (by simp)
      simp; omega
    · rw [List.mem_singleton.1 ha]
      simp

theorem upTo_isPrefix (hs : chain.Pairwise fun a b => a.height < b.height) (h : Int) : upTo h chain <+: chain := by
  have hup : upTo h chain = chain.filter (·.height < (h + 1).toNat) :=
    List.filter_congr fun b _ => by rw [decide_eq_decide]; omega
  rw [hup]
  exact ⟨_, List.filter_lt_append hs _⟩

theorem Ledger.Good.sorted (H : l.Good P mode keys forkHeight) : l.chain.Pairwise fun a b => a.height < b.height := by
  obtain ⟨read, hread, H⟩ := H
  have := List.pairwise_map.2 H.sorted
  rw [← hread.map_eq fun h => h.height.symm, List.pairwise_map] at this
  exact this

theorem Ledger.Good.height_lt (H : l.Good P mode keys forkHeight) (hb : b ∈ l.chain) : b.height < 2 ^ 63 := by
  obtain ⟨read, hread, H⟩ := H
  obtain ⟨b', hb', hs⟩ := hread.exists_right hb
  obtain ⟨es, hes⟩ := (H.ok b' hb').indexed
  exact hs.height ▸ LiveBlock.height_lt_of_indexed hes (H.ok b' hb').rows

/-- A rollback to the last block of an earlier ledger gives that ledger's store again, but for the
txid table. -/
theorem Ledger.Good.rollback {l l₁ : Ledger} (H : l.Good P mode keys forkHeight)
    (H₁ : l₁.Good P mode keys forkHeight) (hc : l₁.chain = c ++ [b]) (hpre : l₁.chain <+: l.chain)
    (ha : l₁.store.allocations = l.store.allocations) : ∃ st' removed,
      Bismuth.rollback P mode l.store b.height forkHeight = .ok (st', removed) ∧
      SameView P mode l₁.store st' ∧
      (TxidExact P mode forkHeight l.store l.chain → TxidExact P mode forkHeight st' l₁.chain) := by
  have hlt := H₁.height_lt (b := b) (by simp [hc])
  have hk : heightKey ((b.height : Int) + 1) = (.ok (b.height + 1) : Except Err Nat) :=
    heightKey_natCast (n := b.height + 1) (by omega)
  have hup : upTo b.height l.chain = l₁.chain := by
    rw [hc] at hpre ⊢
    exact upTo_of_isPrefix H.sorted hpre
  obtain ⟨read, hread, H⟩ := H
  obtain ⟨read₁, hread₁, H₁⟩ := H₁
  obtain ⟨st', removed, hr, HR⟩ := H.rollback hk
  have hread' : ShowsAll P mode forkHeight l₁.chain (below (b.height + 1) read) := by
    rw [below_eq_upTo hk, ← hup]
    exact hread.upTo _
  have hindexed := HR.indexed
  rw [← hread₁.unique hread'] at hindexed
  refine ⟨st', removed, hr, H₁.sameView hindexed ?_,
    fun ht => hread'.txidExact.1 (HR.txid (hread.txidExact.2 ht))⟩
  rw [ha, Store.allocations, HR.alloc, Store.allocations]

/-- In every history the tables hold exactly the entries of the live blocks. A rollback to the last
block of an earlier state answers every query as that state did, except that the queries of the txid
table do so when no commit of either history repeated a txid of a live block. -/
theorem ledger_exact (hd : KeysDistinct P keys)
    (h : ReflTransGen (Step P mode keys forkHeight) ∅ l) :
    l.Exact P mode forkHeight ∧
    ∀ l₁ c b, ReflTransGen (Step P mode keys forkHeight) ∅ l₁ → l₁.chain = c ++ [b] →
      l₁.chain <+: l.chain → l₁.store.allocations = l.store.allocations →
      ∃ st' removed, rollback P mode l.store b.height forkHeight = .ok (st', removed) ∧
        (∀ {α : Type} (q : Query α), q.readsTxid = false →
          q.answer P mode st' = q.answer P mode l₁.store) ∧
        (ReflTransGen (FreshStep P mode keys forkHeight) ∅ l →
          ReflTransGen (FreshStep P mode keys forkHeight) ∅ l₁ →
          ∀ {α : Type} (q : Query α), q.answer P mode st' = q.answer P mode l₁.store) := by
  have H := good_of_history hd h
  refine ⟨H.exact, fun l₁ c b h₁ hc hpre ha => ?_⟩
  obtain ⟨st', removed, hr, hview, htxid⟩ := H.rollback (good_of_history hd h₁) hc hpre ha
  refine ⟨st', removed, hr, fun q hq => ?_, fun hf hf₁ α q => ?_⟩
  · exact hview.answer q fun h => absurd h (by simp [hq])
  · exact hview.answer q fun _ =>
      (txidExact_of_history hd hf₁).unique (htxid (txidExact_of_history hd hf))

/-! ## A txid of two live blocks -/

/-- A row of the block `digest` in which `a` sends nothing to itself. -/
def sampleRow (n : Nat) (digest : Bytes) (cs : Nat) (reward : Nat) : Row where
  height := n
  timestamp := fixedText false 2 cs
  address := ['a']
  recipient := ['a']
  amount := ['0']
  signature := ['s']
  publicKey := ['k']
  blockHash := hex digest
  fee := ['0']
  reward := fixedText false 8 reward
  operation := ['0']
  openfield := ['0']

/-- A row and its coinbase, and then a coinbase with the content of that row. -/
def sampleBlocks : List Row × List Row :=
  ([sampleRow 1 [1] 100 0, sampleRow 1 [1] 200 100000000], [sampleRow 2 [2] 100 100000000])

theorem sampleRow_stored (h : cs < 10 ^ 100) (h' : reward < 10 ^ 28) :
    Row.Stored .decimal n (hex digest) (sampleRow n digest cs reward) where
  height := rfl
  blockHash := rfl
  timestamp := ⟨false, cs, h, rfl⟩
  address := ⟨by simp [sampleRow], by simp [sampleRow]⟩
  recipient := ⟨by simp [sampleRow], by simp [sampleRow]⟩
  amount := ⟨0, .zero _⟩
  fee := ⟨0, .zero _⟩
  reward := ⟨reward, h', .inl ⟨false, by simp, rfl⟩⟩

theorem sampleBlocks_new :
    NewBlock .decimal (· = ['k']) 1 [1] sampleBlocks.1 ∧
      NewBlock .decimal (· = ['k']) 2 [2] sampleBlocks.2 := by
  refine ⟨⟨by simp [sampleBlocks], ?_, ?_⟩, ⟨by simp [sampleBlocks], ?_, ?_⟩⟩
  all_goals simp only [sampleBlocks, List.forall_mem_cons, List.not_mem_nil, false_implies,
    implies_true, and_true]
  · exact ⟨sampleRow_stored (by norm_num) (by norm_num), sampleRow_stored (by norm_num) (by norm_num)⟩
  · exact ⟨rfl, rfl⟩
  · exact sampleRow_stored (by norm_num) (by norm_num)
  · rfl

/-- The height of the first row's txid after its block, after the next one and after going back. -/
def sampleTxids : Except Err (List (Option Nat)) := do
  let st₁ ← commitBlock .toy .decimal {} 1 (hex [1]) sampleBlocks.1 none (some 0)
  let st₂ ← commitBlock .toy .decimal st₁ 2 (hex [2]) sampleBlocks.2 none (some 0)
  let (st₃, _) ← rollback .toy .decimal st₂ 1 (some 0)
  let t ← txidOf .toy .decimal (sampleRow 1 [1] 100 0) (some 0)
  return [← st₁.txidHeight t, ← st₂.txidHeight t, ← st₃.txidHeight t]

theorem sampleTxids_eq : sampleTxids = .ok [some 1, some 2, none] := by decide +kernel

theorem sample_keysDistinct : KeysDistinct .toy (· = ['k']) := by
  rintro p q rfl rfl _
  rfl

theorem sample_step (h : commitBlock .toy .decimal {} 1 (hex [1]) sampleBlocks.1 none (some 0) = .ok st) :
    Step .toy .decimal (· = ['k']) (some 0) ∅ ⟨st, [⟨1, [1], sampleBlocks.1, none⟩]⟩ :=
  .commit none sampleBlocks_new.1 (by simp) h

/-- The second block's coinbase has the txid of a row of the first block. Going back to the first
block deletes that txid, although its row is live. -/
theorem rollback_loses_txid : KeysDistinct .toy (· = ['k']) ∧
    ∃ l₁ l₂ b st' removed t,
      ReflTransGen (Step .toy .decimal (· = ['k']) (some 0)) ∅ l₁ ∧
      ReflTransGen (Step .toy .decimal (· = ['k']) (some 0)) l₁ l₂ ∧
      l₁.chain = [b] ∧ l₁.chain <+: l₂.chain ∧ l₁.store.allocations = l₂.store.allocations ∧
      rollback .toy .decimal l₂.store b.height (some 0) = .ok (st', removed) ∧
      (Query.txidHeight t).answer .toy .decimal l₁.store = .ok (some 1) ∧
      (Query.txidHeight t).answer .toy .decimal st' = .ok none := by
  have h := sampleTxids_eq
  simp only [sampleTxids, Except.bind_eq_ok, Except.pure_eq_ok, Except.ok.injEq, List.cons.injEq,
    Prod.exists] at h
  obtain ⟨st₁, h₁, st₂, h₂, st₃, removed, h₃, t, -, x, hx, y, -, z, hz, rfl, -, rfl, -⟩ := h
  have hs₁ := sample_step h₁
  have hs₂ : Step .toy .decimal (· = ['k']) (some 0) ⟨st₁, [⟨1, [1], sampleBlocks.1, none⟩]⟩
      ⟨st₂, _⟩ := .commit none sampleBlocks_new.2 (by simp) h₂
  have ha : st₁.allocations = st₂.allocations := by
    rw [Store.allocations, Store.allocations, commitBlock_alloc sample_keysDistinct
      (good_of_history sample_keysDistinct (.single hs₁)).keyTable sampleBlocks_new.2 h₂]
  exact ⟨sample_keysDistinct, ⟨st₁, _⟩, ⟨st₂, _⟩, _, st₃, removed, t, .single hs₁, .single hs₂, rfl,
    List.prefix_append _ _, ha, h₃, hx, hz⟩

/-- The first block alone is a history without a repeated txid. -/
theorem ledger_exact_sample : ∃ (l : Ledger) (b : LiveBlock) (st' : Store)
    (removed : List TypedRow), l.Exact .toy .decimal (some 0) ∧ l.chain = [b] ∧
      rollback .toy .decimal l.store b.height (some 0) = .ok (st', removed) ∧
      ∀ {α : Type} (q : Query α), q.answer .toy .decimal st' = q.answer .toy .decimal l.store := by
  have h := sampleTxids_eq
  simp only [sampleTxids, Except.bind_eq_ok] at h
  obtain ⟨st₁, h₁, -⟩ := h
  have hs₁ := sample_step h₁
  obtain ⟨hexact, hback⟩ := ledger_exact sample_keysDistinct (.single hs₁)
  obtain ⟨st', removed, hr, -, hq⟩ := hback _ [] _ (.single hs₁) rfl List.prefix_rfl rfl
  have hf : FreshStep .toy .decimal (· = ['k']) (some 0) ∅ ⟨st₁, _⟩ :=
    ⟨hs₁, fun b _ a ha => absurd ha List.not_mem_nil⟩
  exact ⟨_, _, st', removed, hexact, rfl, hr, hq (.single hf) (.single hf)⟩

end Bismuth
