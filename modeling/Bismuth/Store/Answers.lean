import Bismuth.Store.Inv

/-!
# What the store answers

Every read of the store is determined by the live blocks and the allocations, as long as the txid
table is exact.
-/

namespace Bismuth
open Py

/-- The read methods of the store, with their arguments and the type of their answers. -/
inductive Query : Type → Type 1 where
  | getBlockRaw (h : Int) : Query (Option (List Row))
  | getBlock (h : Int) : Query (Option (List TypedRow))
  | lastOpenfield (h : Int) : Query (Option Text)
  | blocksInRange (start stop : Int) : Query (List (Nat × List TypedRow))
  | blocksDesc (start : Option Int) : Query (List (Nat × List TypedRow))
  | blockHash (h : Int) : Query (Option Text)
  | heightByHash (hash : Text) : Query (Option Nat)
  | tip : Query (Option Nat)
  | first : Query (Option Nat)
  | count : Query Nat
  | txCount : Query Nat
  | coinbase (h : Int) : Query (Option TypedRow)
  | recentBlockWeights (tipHeight window wUnit : Nat) (strict : Bool) : Query (List Nat)
  | difficulty (h : Int) : Query (Option Text)
  | lastDifficulty : Query (Option (Nat × Text))
  | difficultyRange (start stop : Int) : Query (List (Nat × Text))
  | signatureRows (s : Text) (maxHeight : Option Int) (limit : Nat) : Query (List TypedRow)
  | signatureExists (s : Text) (maxHeight : Option Int) : Query Bool
  | rowsBySigPrefix (p : Text) (limit : Nat) : Query (List TypedRow)
  | addressRows (a : Text) (role : Option Role) (reverse : Bool) (limit : Nat)
      (lo hi : Option Int) (skip : Nat) : Query (List TypedRow)
  | addressTxCount (a : Text) (role : Option Role) : Query Nat
  | firstPubkey (a : Text) : Query (Option Text)
  | rewardUnitsSince (a : Text) (aboveHeight : Int) : Query Int
  | balanceParts (a : Text) : Query Parts
  | balanceUnits (a : Text) : Query Int
  | balance (a : Text) : Query Number
  | addressCount : Query Nat
  | iterBalances : Query (List (Bytes × Parts))
  | txidHeight (txid : Text) : Query (Option Nat)
  | txidCount : Query Nat
  | pkrefEntry (a : Text) : Query (Option (Nat × Text))
  | pkrefGet (a : Text) : Query (Option Text)
  | pkrefCount : Query Nat
  | allocations : Query (OrdTable Text Int)

def Query.answer (P : Prims) (mode : Mode) (st : Store) : Query α → Except Err α
  | .getBlockRaw h => st.getBlockRaw P mode h
  | .getBlock h => st.getBlock P mode h
  | .lastOpenfield h => st.lastOpenfield mode h
  | .blocksInRange start stop => st.blocksInRange P mode start stop
  | .blocksDesc start => st.blocksDesc P mode start
  | .blockHash h => st.blockHash h
  | .heightByHash bh => st.heightByHash bh
  | .tip => .ok st.tip
  | .first => .ok st.first
  | .count => .ok st.count
  | .txCount => .ok st.txCount
  | .coinbase h => st.coinbase P mode h
  | .recentBlockWeights t w u s => st.recentBlockWeights mode t w u s
  | .difficulty h => st.difficulty h
  | .lastDifficulty => .ok st.lastDifficulty
  | .difficultyRange start stop => st.difficultyRange start stop
  | .signatureRows s m l => st.signatureRows P mode s m l
  | .signatureExists s m => st.signatureExists P mode s m
  | .rowsBySigPrefix p l => st.rowsBySigPrefix P mode p l
  | .addressRows a role rev l lo hi skip => st.addressRows P mode a role rev l lo hi skip
  | .addressTxCount a role => st.addressTxCount a role
  | .firstPubkey a => st.firstPubkey P mode a
  | .rewardUnitsSince a h => st.rewardUnitsSince P mode a h
  | .balanceParts a => st.balanceParts a
  | .balanceUnits a => st.balanceUnits a
  | .balance a => st.balance a
  | .addressCount => .ok st.bal.entries.length
  | .iterBalances => .ok st.bal.entries
  | .txidHeight t => st.txidHeight t
  | .txidCount => .ok st.txid.entries.length
  | .pkrefEntry a => st.pkrefEntry a
  | .pkrefGet a => st.pkrefGet a
  | .pkrefCount => .ok st.pkref.entries.length
  | .allocations => .ok st.allocations

def Query.readsTxid : Query α → Bool
  | .txidHeight _ | .txidCount => true
  | _ => false

section
variable (P : Prims) (mode : Mode)

structure SameBody (st st' : Store) (e e' : Nat × Body) : Prop where
  height : e'.1 = e.1
  hash : e'.2.hash = e.2.hash
  rows : expand P mode st'.pubkey e.1 e'.2 = expand P mode st.pubkey e.1 e.2
  openfields : Store.openfields mode e'.2 = Store.openfields mode e.2
  last : Store.lastOf mode e'.2 = Store.lastOf mode e.2

/-- Two stores that every reader reads alike, but for the txid table. -/
structure SameView (st st' : Store) : Prop where
  blocks : List.Forall₂ (SameBody P mode st st') st.blocks.entries st'.blocks.entries
  hashes : st'.hashes = st.hashes
  diff : st'.diff = st.diff
  sig : st'.sig = st.sig
  addr : st'.addr = st.addr
  bal : st'.bal = st.bal
  pkref : st'.pkref = st.pkref
  txCount : st'.txCount = st.txCount
  allocations : st'.allocations = st.allocations

end

variable {P : Prims} {mode : Mode} {st st' : Store}

/-! ## Stores that are read alike -/

namespace SameView

section
variable (H : SameView P mode st st')
include H

theorem get? (n : Nat) :
    (st.blocks.get? n = none ∧ st'.blocks.get? n = none) ∨
      ∃ b b', st.blocks.get? n = some b ∧ st'.blocks.get? n = some b' ∧
        SameBody P mode st st' (n, b) (n, b') :=
  OrdTable.get?_of_forall₂ H.blocks (fun h => h.height) n

theorem keys :
    st'.blocks.entries.map Prod.fst = st.blocks.entries.map Prod.fst :=
  (H.blocks.map_eq fun h => h.height.symm).symm

theorem rawBlock (n : Nat) :
    st'.rawBlock P mode n = st.rawBlock P mode n := by
  simp only [Store.rawBlock]
  rcases H.get? n with ⟨h, h'⟩ | ⟨b, b', h, h', hb⟩
  · rw [h, h']
  · have : expand P mode st'.pubkey n b' = expand P mode st.pubkey n b := hb.rows
    simp only [h, h', this]

theorem getBlockRaw (h : Int) :
    st'.getBlockRaw P mode h = st.getBlockRaw P mode h := by
  simp only [Store.getBlockRaw, H.rawBlock]

theorem rowAt (pos : Pos) :
    st'.rowAt P mode pos = st.rowAt P mode pos := by
  simp only [Store.rowAt, H.getBlockRaw]

theorem collectRows (keep : TypedRow → Bool) (limit : Nat)
    (ps : List Pos) :
    st'.collectRows P mode keep limit ps = st.collectRows P mode keep limit ps := by
  induction ps generalizing limit with
  | nil => rfl
  | cons pos ps ih => simp only [Store.collectRows, H.rowAt, ih]

theorem typedBlocks
    (h : List.Forall₂ (SameBody P mode st st') bs bs') :
    st'.typedBlocks P mode bs' = st.typedBlocks P mode bs := by
  refine (h.mapM_eq fun {e e'} he => ?_).symm
  obtain ⟨n, b⟩ := e
  obtain ⟨n', b'⟩ := e'
  obtain rfl : n' = n := he.height
  have : expand P mode st'.pubkey n' b' = expand P mode st.pubkey n' b := he.rows
  simp only [this]

theorem filter (p : Nat → Bool) :
    List.Forall₂ (SameBody P mode st st') (st.blocks.entries.filter fun e => p e.1)
      (st'.blocks.entries.filter fun e => p e.1) :=
  List.rel_filter (fun e e' h => by simp only [h.height]) H.blocks

theorem weightsAt (unit : Nat) (strict : Bool) (hs : List Nat) :
    st'.weightsAt mode unit strict hs = st.weightsAt mode unit strict hs := by
  induction hs with
  | nil => rfl
  | cons h hs ih =>
    simp only [Store.weightsAt, ih]
    rcases H.get? h with ⟨h1, h2⟩ | ⟨b, b', h1, h2, hb⟩
    · rw [h1, h2]
    · have : Store.openfields mode b' = Store.openfields mode b := hb.openfields
      simp only [h1, h2, this]

theorem addrIter (role : Role) (a : Text) (reverse : Bool)
    (lo hi : Option Int) : st'.addrIter role a reverse lo hi = st.addrIter role a reverse lo hi := by
  simp only [Store.addrIter, H.addr]

theorem addressPositions (a : Text) (role : Option Role)
    (reverse : Bool) (lo hi : Option Int) :
    st'.addressPositions a role reverse lo hi = st.addressPositions a role reverse lo hi := by
  simp only [Store.addressPositions, H.addrIter]

theorem blocksDesc (start : Option Int) :
    st'.blocksDesc P mode start = st.blocksDesc P mode start := by
  cases start with
  | none =>
    simp only [Store.blocksDesc, Except.ok_bind]
    exact H.typedBlocks (List.forall₂_reverse_iff.2 H.blocks)
  | some s =>
    simp only [Store.blocksDesc]
    cases heightKey (s + 1) with
    | error e => rfl
    | ok hi => exact H.typedBlocks (List.forall₂_reverse_iff.2 (H.filter (· < hi)))

theorem blocksInRange (start stop : Int) :
    st'.blocksInRange P mode start stop = st.blocksInRange P mode start stop := by
  simp only [Store.blocksInRange]
  refine bind_congr fun lo => bind_congr fun hi => ?_
  exact H.typedBlocks (H.filter fun n => lo ≤ n ∧ n < hi)

theorem answer {α : Type} (q : Query α)
    (htxid : q.readsTxid = true → st'.txid = st.txid) :
    q.answer P mode st' = q.answer P mode st := by
  have hget (n : Nat) : (st'.blocks.get? n).map Body.hash = (st.blocks.get? n).map Body.hash := by
    rcases H.get? n with ⟨h1, h2⟩ | ⟨b, b', h1, h2, hb⟩
    · rw [h1, h2]
    · rw [h1, h2, Option.map_some, Option.map_some, show b'.hash = b.hash from hb.hash]
  have hlen : st'.blocks.entries.length = st.blocks.entries.length := H.blocks.length_eq.symm
  cases q with
  | blocksInRange start stop => exact H.blocksInRange start stop
  | blocksDesc start => exact H.blocksDesc start
  | lastOpenfield h =>
    simp only [Query.answer, Store.lastOpenfield]
    cases heightKey h with
    | error e => rfl
    | ok n =>
      simp only [Except.ok_bind]
      rcases H.get? n with ⟨h1, h2⟩ | ⟨b, b', h1, h2, hb⟩
      · rw [h1, h2]
      · rw [h1, h2]
        exact hb.last
  | blockHash h => simp only [Query.answer, Store.blockHash, hget]
  | tip =>
    simp only [Query.answer, Store.tip, OrdTable.lastKey?, ← List.getLast?_map, H.keys]
  | first => simp only [Query.answer, Store.first, ← List.head?_map, H.keys]
  | count => simp only [Query.answer, Store.count, hlen]
  | txidHeight t => simp only [Query.answer, Store.txidHeight, htxid rfl]
  | txidCount => simp only [Query.answer, htxid rfl]
  | recentBlockWeights t w u s => simp only [Query.answer, Store.recentBlockWeights, H.weightsAt]
  | _ =>
    simp only [Query.answer, Store.getBlock, Store.coinbase, Store.heightByHash, Store.difficulty,
      Store.lastDifficulty, Store.difficultyRange, Store.signatureExists, Store.signatureRows,
      Store.rowsBySigPrefix, Store.sigScan, Store.addressRows, Store.addressTxCount,
      Store.firstPubkey, Store.rewardUnitsSince, Store.balance, Store.balanceUnits,
      Store.balanceParts, Store.pkrefGet, Store.pkrefEntry, H.getBlockRaw,
      H.collectRows, H.addrIter, H.addressPositions, H.hashes, H.diff, H.sig, H.bal,
      H.pkref, H.txCount, H.allocations]

end

end SameView

/-! ## Stores with the same live blocks -/

theorem openfields_of_expand (h : expand P mode f n body = .ok rows) :
    Store.openfields mode body = .ok (rows.map (·.openfield)) ∧
      Store.lastOf mode body = .ok (rows.getLast?.map (·.openfield)) := by
  cases body with
  | legacy bh txs =>
    cases h
    simp [Store.openfields, Store.lastOf, IdTx.row, Function.comp_def]
  | packed bh addrs txs =>
    simp only [expand, Except.bind_eq_ok] at h
    obtain ⟨as, -, h⟩ := h
    have hrel : List.Forall₂ (fun b r => ∃ t, unpackRow mode b = (.ok t : Except Err _) ∧
        t.openfield = r.openfield) txs rows := by
      refine (Except.mapM_eq_ok.1 h).imp fun b r hr => ?_
      simp only [UnpackedTx.row, Except.bind_eq_ok] at hr
      obtain ⟨t, ht, _, -, _, -, hr⟩ := hr
      cases hr
      exact ⟨t, ht, rfl⟩
    refine ⟨Except.mapM_eq_ok.2 (List.forall₂_map_right_iff.2 (hrel.imp fun b r hr => ?_)), ?_⟩
    · obtain ⟨t, ht, ho⟩ := hr
      simp [ht, ho]
    · rcases List.eq_nil_or_concat rows with rfl | ⟨l, r, rfl⟩
      · cases hrel
        rfl
      · rw [List.concat_eq_append] at hrel ⊢
        obtain ⟨m, b, rfl, -, t, ht, ho⟩ := hrel.exists_of_concat
        simp [Store.lastOf, ht, ho]

theorem LiveBody.sameBody (H : LiveBody P mode st.pkr e b) (H' : LiveBody P mode st'.pkr e' b) :
    SameBody P mode st st' e e' := by
  have h := H.expands _ st.reads_pubkey
  have h' := H'.expands _ st'.reads_pubkey
  obtain ⟨ho, hl⟩ := openfields_of_expand h
  obtain ⟨ho', hl'⟩ := openfields_of_expand h'
  refine ⟨H'.height.trans H.height.symm, H'.hash.trans H.hash.symm, ?_, ho'.trans ho.symm,
    hl'.trans hl.symm⟩
  rw [H.height, h, h']

variable {keys keys' : Text → Prop} {forkHeight : Option Nat} {chain : List LiveBlock}

/-- The live blocks and the allocations determine every answer but those of the txid table. -/
theorem Indexed.sameView (H : Indexed P mode keys forkHeight st chain)
    (H' : Indexed P mode keys' forkHeight st' chain) (halloc : st'.allocations = st.allocations) :
    SameView P mode st st' where
  blocks := by
    have h := H.blocks
    have h' := H'.blocks
    clear H H'
    generalize st.blocks.entries = l, st'.blocks.entries = l' at h h'
    induction chain generalizing l l' with
    | nil => cases h; cases h'; exact .nil
    | cons b chain ih =>
      obtain ⟨e, l, he, hl, rfl⟩ := List.forall₂_cons_right_iff.1 h
      obtain ⟨e', l', he', hl', rfl⟩ := List.forall₂_cons_right_iff.1 h'
      exact .cons (he.sameBody he') (ih l l' hl hl')
  hashes := H'.hashes.unique H.hashes
  diff := H'.diff.unique H.diff
  sig := H'.sig.unique H.sig
  addr := H'.addr.unique H.addr
  bal := H'.clean.ext H.clean fun k => by rw [H'.bal, H.bal, halloc]
  pkref := OrdTable.ext_get? fun k => by rw [H'.pkref, H.pkref]
  txCount := H'.txcount.trans H.txcount.symm
  allocations := halloc

theorem TxidExact.unique (H : TxidExact P mode forkHeight st chain)
    (H' : TxidExact P mode forkHeight st' chain) : st'.txid = st.txid := OrdTable.Holds.unique H' H

end Bismuth
