import Bismuth.Store.History

/-!
# A fork height above the chain

The store depends on the fork height only through which of its blocks are at or above it.
-/

namespace Bismuth
open Py

variable {P : Prims} {mode : Mode} {keys : Text → Prop} {fh fh' : Option Nat}

def SameFork (fh fh' : Option Nat) (chain : List LiveBlock) : Prop :=
  ∀ b ∈ chain, postFork fh' b.height = postFork fh b.height

theorem txidOf_congr (h : postFork fh' r.height = postFork fh r.height) :
    txidOf P mode r fh' = txidOf P mode r fh := by simp only [txidOf, txIdAt, h]

theorem indexEntry_congr (h : postFork fh' n = postFork fh n) (hr : r.height = n) (idx : Nat) :
    indexEntry P mode n fh' idx r = indexEntry P mode n fh idx r := by
  subst hr
  simp only [indexEntry, h, txidOf_congr h]

theorem indexEntries_congr (h : postFork fh' n = postFork fh n) (hr : ∀ r ∈ rows, r.height = n) :
    indexEntries P mode n fh' rows = indexEntries P mode n fh rows := by
  have hsame : List.Forall₂ (fun x y : Row × Nat => x = y ∧ x.1.height = n) rows.zipIdx rows.zipIdx :=
    List.forall₂_same.2 fun x hx => ⟨rfl, hr _ (List.fst_mem_of_mem_zipIdx hx)⟩
  refine hsame.mapM_eq ?_
  rintro x _ ⟨rfl, hx⟩
  exact indexEntry_congr h hx x.2

theorem RowOf.height (h : RowOf P mode fh n bh r r') : r.height = n := by
  have hback := h.back
  have hr' := h.stored.height
  rw [Row.ReadsBack] at hback
  split at hback
  · obtain ⟨cs, ua, uf, ur, -, -, -, -, rfl⟩ := hback
    exact hr'
  · rwa [← hback]

theorem RowOf.congr (h : RowOf P mode fh n bh r r') (hf : postFork fh' n = postFork fh n) :
    RowOf P mode fh' n bh r r' := by
  have hr := h.height
  have hr' := h.stored.height
  refine ⟨⟨h.same.address, h.same.recipient, h.same.signature, h.same.publicKey, h.same.amount,
    h.same.fee, h.same.reward, ?_, h.same.coinbase⟩, h.stored, ?_⟩
  · have h1 : txidOf P mode r' fh' = txidOf P mode r' fh := txidOf_congr (by rw [hr', hf])
    have h2 : txidOf P mode r fh' = txidOf P mode r fh := txidOf_congr (by rw [hr, hf])
    rw [h1, h2, h.same.txid]
  · have := h.back
    rw [Row.ReadsBack, hr] at this ⊢
    rwa [hf]

theorem LiveBlock.Shows.congr {b b' : LiveBlock} (h : b.Shows P mode fh b')
    (hf : postFork fh' b.height = postFork fh b.height) : b.Shows P mode fh' b' :=
  ⟨h.height, h.digest, h.difficulty, h.rows.imp fun _ _ hr => hr.congr hf⟩

section
variable {b : LiveBlock} (hok : b.Ok P mode fh) (hf : postFork fh' b.height = postFork fh b.height)
include hok hf

theorem LiveBlock.Ok.congr : b.Ok P mode fh' := by
  refine ⟨hok.rows, hok.digest, hok.stored, ?_⟩
  rw [indexEntries_congr hf fun r hr => (hok.stored r hr).height]
  exact hok.indexed

theorem LiveBlock.Ok.entries_congr : b.entries P mode fh' = b.entries P mode fh := by
  rw [entries, entries, indexEntries_congr hf fun r hr => (hok.stored r hr).height]

end

/-- The invariant holds for every fork height that agrees on the chain. -/
theorem Indexed.congr (H : Indexed P mode keys fh st chain) (hf : SameFork fh fh' chain) :
    Indexed P mode keys fh' st chain := by
  have he : ∀ b ∈ chain, b.entries P mode fh' = b.entries P mode fh :=
    fun b hb => (H.ok b hb).entries_congr (hf b hb)
  refine { H with ok := ?_, sig := ?_, addr := ?_, pkref := ?_, bal := ?_ }
  · exact fun b hb => (H.ok b hb).congr (hf b hb)
  · exact H.sig.congr fun k _ => exists_congr fun b => and_congr_right fun hb => by
      rw [LiveBlock.sigKeys, LiveBlock.sigKeys, he b hb]
  · exact H.addr.congr fun k _ => exists_congr fun b => and_congr_right fun hb => by
      rw [LiveBlock.addrKeys, LiveBlock.addrKeys, he b hb]
  · intro k
    rw [H.pkref, postForkRows, postForkRows, List.filter_congr fun b hb => hf b hb]
  · intro k
    have : ∀ b ∈ chain, (b.deltas P mode fh').total k = (b.deltas P mode fh).total k :=
      fun b hb => by rw [LiveBlock.deltas, LiveBlock.deltas, he b hb]
    rw [H.bal, chainTotal, chainTotal, List.map_congr_left this]

theorem Ledger.Good.congr {l : Ledger} (H : l.Good P mode keys fh) (hf : SameFork fh fh' l.chain) :
    l.Good P mode keys fh' := by
  obtain ⟨read, hread, H⟩ := H
  have hf' : SameFork fh fh' read := fun b' hb' => by
    obtain ⟨b, hb, hs⟩ := hread.exists_left hb'
    rw [hs.height]
    exact hf b hb
  have hshow : ∀ {c r : List LiveBlock}, ShowsAll P mode fh c r → SameFork fh fh' c →
      ShowsAll P mode fh' c r := fun h => by
    induction h with
    | nil => exact fun _ => .nil
    | cons hb _ ih =>
      exact fun hf => .cons (hb.congr (hf _ (by simp))) (ih fun b hb => hf b (by simp [hb]))
  exact ⟨read, hshow hread hf, H.congr hf'⟩

theorem TxidExact.congr (H : TxidExact P mode fh st chain) (hok : ∀ b ∈ chain, b.Ok P mode fh)
    (hf : SameFork fh fh' chain) : TxidExact P mode fh' st chain :=
  OrdTable.Holds.congr H fun k h => exists_congr fun b => and_congr_right fun hb => by
    rw [LiveBlock.txidKeys, LiveBlock.txidKeys, (hok b hb).entries_congr (hf b hb)]

theorem Ledger.Good.txidExact_congr {l : Ledger} (H : l.Good P mode keys fh)
    (hf : SameFork fh fh' l.chain) (h : TxidExact P mode fh l.store l.chain) :
    TxidExact P mode fh' l.store l.chain := by
  obtain ⟨read, hread, hi⟩ := H
  have hf' : SameFork fh fh' read := by
    intro b hb
    obtain ⟨b', hb', hs⟩ := hread.exists_left hb
    rw [hs.height]
    exact hf b' hb'
  have hread' : ShowsAll P mode fh' l.chain read :=
    hread.with_mem.imp fun b b' h => h.2.2.congr (hf b h.1)
  exact hread'.txidExact.1 ((hread.txidExact.2 h).congr hi.ok hf')

theorem Ledger.Good.txidExact_rollback {l : Ledger} (H : l.Good P mode keys fh)
    (hd : KeysDistinct P keys) (hr : Bismuth.rollback P mode l.store h fh = .ok (st', removed))
    (hx : TxidExact P mode fh l.store l.chain) : TxidExact P mode fh st' (upTo h l.chain) := by
  refine FreshStep.txidExact hd ⟨.rollback hr, fun b hb => ?_⟩ H hx
  have := (upTo_isPrefix H.sorted h).length_le
  rw [show upTo h l.chain = l.chain ++ [b] from hb, List.length_append] at this
  simp at this

end Bismuth
