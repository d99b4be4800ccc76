import Bismuth.Store.AddressRows

/-!
# Ranges of blocks

The blocks as a reader gets them. A range is a part of them, and later blocks come after them.
-/

namespace Bismuth
open Py

variable {P : Prims} {mode : Mode} {keys : Text → Prop} {forkHeight : Option Nat}

/-- A block as a reader gets it: its height and its rows. -/
abbrev TypedBlock := Nat × List TypedRow

def Store.typedChain (P : Prims) (mode : Mode) (st : Store) : Except Err (List TypedBlock) :=
  st.typedBlocks P mode st.blocks.entries

def between (lo hi : Int) (tbs : List TypedBlock) : List TypedBlock :=
  tbs.filter fun t => lo ≤ t.1 ∧ t.1 ≤ hi

theorem between_append (lo hi : Int) (tbs tbs' : List TypedBlock) :
    between lo hi (tbs ++ tbs') = between lo hi tbs ++ between lo hi tbs' := List.filter_append ..

theorem between_between {tbs : List TypedBlock} (hsorted : tbs.Pairwise fun a b => a.1 < b.1) {lo mid hi : Int}
    (hlo : lo ≤ mid + 1) (hhi : mid ≤ hi) :
    between lo mid tbs ++ between (mid + 1) hi tbs = between lo hi tbs := by
  have hsplit := List.filter_append_filter (p := fun t : TypedBlock => (t.1 : Int) ≤ mid)
    (q := fun t => mid + 1 ≤ (t.1 : Int)) (l := between lo hi tbs) (fun t => by simp [Int.add_one_le_iff])
    ((hsorted.filter _).imp fun hlt hb => by
      simp only [decide_eq_true_eq] at hb ⊢
      omega)
  rw [← hsplit, between, between, between, List.filter_filter, List.filter_filter]
  congr 1 <;> refine List.filter_congr fun t _ => ?_ <;> rw [← Bool.decide_and, decide_eq_decide] <;> omega

theorem Store.blocksInRange_eq {st : Store} {tbs : List TypedBlock} (h : st.typedChain P mode = .ok tbs)
    {lo hi : Int} (hlo : lo < 2 ^ 64) (hhi : -1 ≤ hi ∧ hi + 1 < 2 ^ 64) :
    st.blocksInRange P mode lo hi = .ok (between lo hi tbs) := by
  have hstart : heightKey (max 0 lo) = (.ok (max 0 lo).toNat : Except Err Nat) := if_pos ⟨le_max_left 0 lo, by omega⟩
  have hstop : heightKey (hi + 1) = (.ok (hi + 1).toNat : Except Err Nat) := if_pos ⟨by omega, hhi.2⟩
  rw [blocksInRange, hstart, hstop, Except.ok_bind, Except.ok_bind]
  refine Except.mapM_filter (fun {e t} het => ?_) h
  obtain ⟨rows, -, het⟩ := Except.bind_eq_ok.1 het
  obtain ⟨ts, -, het⟩ := Except.bind_eq_ok.1 het
  cases het
  rw [decide_eq_decide]
  omega

/-! ## The blocks of a ledger -/

/-- `t` is the block `b` as a reader gets it. -/
structure LiveBlock.Typed (P : Prims) (mode : Mode) (forkHeight : Option Nat) (b : LiveBlock) (t : TypedBlock) :
    Prop where
  height : t.1 = b.height
  rows : List.Forall₂ (Row.Reads P mode forkHeight b.height (hex b.digest)) b.rows t.2

theorem Row.Reads.unique (h : Row.Reads P mode forkHeight n bh r t) (h' : Row.Reads P mode forkHeight n bh r t') :
    t = t' := by
  obtain ⟨r', hrow, ht⟩ := h
  obtain ⟨r'', hrow', ht'⟩ := h'
  rw [hrow.back.unique hrow'.back, ht'] at ht
  cases ht
  rfl

theorem LiveBlock.Typed.unique {b : LiveBlock} (h : b.Typed P mode forkHeight t) (h' : b.Typed P mode forkHeight t') :
    t = t' := by
  have hrows : t.2 = t'.2 := by
    have hboth := h.rows.flip.comp h'.rows fun hr hr' => Row.Reads.unique hr hr'
    exact List.forall₂_eq_eq_eq ▸ hboth
  exact Prod.ext (h.height.trans h'.height.symm) hrows

namespace Ledger.Good
variable {l l' : Ledger}

theorem typedChain (H : l.Good P mode keys forkHeight) :
    ∃ tbs, l.store.typedChain P mode = .ok tbs ∧ List.Forall₂ (LiveBlock.Typed P mode forkHeight) l.chain tbs := by
  obtain ⟨read, hread, HI⟩ := H
  have hpairs : List.Forall₂ (fun b e => ∃ b', b.Shows P mode forkHeight b' ∧
      LiveBody P mode l.store.pkr e b') l.chain l.store.blocks.entries :=
    hread.comp HI.blocks.flip fun hs hl => ⟨_, hs, hl⟩
  refine Except.exists_mapM_of_forall₂ hpairs ?_
  rintro b ⟨n, body⟩ ⟨b', hs, hl⟩
  obtain ⟨ts, hts⟩ := Except.exists_mapM_ok (f := typedRow) (l := b'.rows) fun r hr => by
    obtain ⟨r₀, -, hrow⟩ := hs.rows.exists_left hr
    exact hrow.stored.typedRow
  have hexp := hl.expands _ l.store.reads_pubkey
  rw [← hl.height] at hexp
  refine ⟨(n, ts), ?_, hl.height.trans hs.height, ?_⟩
  · simp only [hexp, Except.ok_bind, hts]
    rfl
  · exact hs.rows.comp (Except.mapM_eq_ok.1 hts) fun hrow ht => ⟨_, hrow, ht⟩

theorem typedChain_isPrefix (H : l.Good P mode keys forkHeight) (H' : l'.Good P mode keys forkHeight)
    (hgrow : l.chain <+: l'.chain) {tbs tbs' : List TypedBlock} (h : l.store.typedChain P mode = .ok tbs)
    (h' : l'.store.typedChain P mode = .ok tbs') : tbs <+: tbs' := by
  obtain ⟨_, h₁, htyped⟩ := H.typedChain
  cases h.symm.trans h₁
  obtain ⟨_, h₂, htyped'⟩ := H'.typedChain
  cases h'.symm.trans h₂
  obtain ⟨more, hmore⟩ := hgrow
  rw [← hmore] at htyped'
  have htake := (List.forall₂_take_append _ _ _ htyped'.flip).flip
  have heq : tbs = tbs'.take l.chain.length :=
    List.forall₂_eq_eq_eq ▸ htyped.flip.comp htake fun ht ht' => LiveBlock.Typed.unique ht ht'
  rw [heq]
  exact List.take_prefix ..

variable {tbs : List TypedBlock}

section
variable (H : l.Good P mode keys forkHeight)
include H

theorem heights_typedChain
    (h : l.store.typedChain P mode = .ok tbs) : tbs.map Prod.fst = l.chain.map (·.height) := by
  obtain ⟨_, h₁, htyped⟩ := H.typedChain
  cases h.symm.trans h₁
  exact htyped.flip.map_eq fun ht => ht.height

theorem sorted_typedChain
    (h : l.store.typedChain P mode = .ok tbs) : tbs.Pairwise fun a b => a.1 < b.1 := by
  have hsorted : (l.chain.map (·.height)).Pairwise (· < ·) := List.pairwise_map.2 H.sorted
  rw [← H.heights_typedChain h] at hsorted
  exact List.pairwise_map.1 hsorted

theorem tip_eq (h : l.chain = init ++ [last]) :
    l.store.tip = some last.height := by
  rw [H.exact.tip, h, List.getLast?_concat, Option.map_some]

theorem le_tip (hb : b ∈ l.chain) : b.height ≤ l.store.tip.getD 0 := by
  obtain ⟨init, last, hlast⟩ := (List.eq_nil_or_concat' l.chain).resolve_left (List.ne_nil_of_mem hb)
  have hsorted := H.sorted
  rw [H.tip_eq hlast, Option.getD_some]
  rw [hlast] at hb hsorted
  obtain hb | hb := List.mem_append.1 hb
  · exact ((List.pairwise_append.1 hsorted).2.2 b hb last (List.mem_singleton_self last)).le
  · rw [List.mem_singleton.1 hb]

theorem tip_mono (H' : l'.Good P mode keys forkHeight)
    (hgrow : l.chain <+: l'.chain) : l.store.tip.getD 0 ≤ l'.store.tip.getD 0 := by
  obtain hnil | ⟨init, last, hlast⟩ := List.eq_nil_or_concat' l.chain
  · have htip : l.store.tip = none := by rw [H.exact.tip, hnil]; rfl
    rw [htip]
    exact Nat.zero_le _
  · rw [H.tip_eq hlast]
    exact H'.le_tip (hgrow.subset (by rw [hlast]; simp))

theorem between_grow (H' : l'.Good P mode keys forkHeight)
    (hgrow : l.chain <+: l'.chain) {tbs tbs' : List TypedBlock} (h : l.store.typedChain P mode = .ok tbs)
    (h' : l'.store.typedChain P mode = .ok tbs') {n : Nat} (hn : n ≤ l.store.tip.getD 0) :
    between 1 n tbs' = between 1 n tbs := by
  obtain ⟨more, rfl⟩ := H.typedChain_isPrefix H' hgrow h h'
  rw [between_append, List.append_right_eq_self, between, List.filter_eq_nil_iff]
  intro e he hbounds
  obtain ⟨hlo, hhi⟩ := of_decide_eq_true hbounds
  obtain hnil | ⟨init, last, hlast⟩ := List.eq_nil_or_concat' l.chain
  · have htip : l.store.tip = none := by rw [H.exact.tip, hnil]; rfl
    rw [htip, Option.getD_none] at hn
    omega
  · rw [H.tip_eq hlast, Option.getD_some] at hn
    have hmem : last.height ∈ tbs.map Prod.fst := by
      rw [H.heights_typedChain h, hlast]
      simp
    obtain ⟨t, ht, hheight⟩ := List.mem_map.1 hmem
    have hlt := (List.pairwise_append.1 (H'.sorted_typedChain h')).2.2 t ht e he
    omega

theorem storedAddress
    (h : l.store.typedChain P mode = .ok tbs) (hb : b ∈ tbs) (ht : t ∈ b.2) :
    StoredAddress t.address ∧ StoredAddress t.recipient := by
  obtain ⟨_, h₁, htyped⟩ := H.typedChain
  cases h.symm.trans h₁
  obtain ⟨b', -, hb'⟩ := htyped.exists_left hb
  obtain ⟨r, -, r', hrow, hr'⟩ := hb'.rows.exists_left ht
  rw [(typedRow_ok hr').2.2.2.2]
  exact ⟨hrow.stored.address, hrow.stored.recipient⟩

end

end Ledger.Good

/-! ## The rows of an address -/

open Relation in
theorem placed_of_history {l : Ledger} (h : ReflTransGen (Step P mode keys forkHeight) ∅ l) :
    ∃ chain, Placed P mode l.store chain := by
  induction h with
  | refl => exact ⟨[], .empty⟩
  | tail _ hstep ih =>
    obtain ⟨chain, H⟩ := ih
    cases hstep with
    | commit difficulty hnew hfresh hcommit => exact ⟨_, H.commit hcommit⟩
    | rollback hrollback =>
      obtain ⟨chain', -, H'⟩ := H.rollback hrollback
      exact ⟨chain', H'⟩
    | setAllocations halloc hset =>
      obtain ⟨bal, -, hset⟩ := Except.bind_eq_ok.1 hset
      split at hset
      · cases hset
        exact ⟨chain, H.blocks, H.fits, H.addr, H.sig⟩
      · cases hset

namespace Shown
variable {st : Store} {blocks : List (Nat × List Row)}

theorem typedChain (H : Shown P mode st blocks) {tbs : List TypedBlock} (h : st.typedChain P mode = .ok tbs) :
    List.Forall₂ (fun b t => t.1 = b.1 ∧ List.Forall₂ (fun r t => typedRow r = .ok t) b.2 t.2) blocks tbs := by
  have hrows := Except.mapM_eq_ok.1 H.chainRows
  have htyped := Except.mapM_eq_ok.1 h
  refine hrows.flip.comp htyped fun {b e t} hb ht => ?_
  obtain ⟨rows, hrows, hb⟩ := Except.bind_eq_ok.1 hb
  cases hb
  obtain ⟨rows', hrows', ht⟩ := Except.bind_eq_ok.1 ht
  cases hrows.symm.trans hrows'
  obtain ⟨ts, hts, ht⟩ := Except.bind_eq_ok.1 ht
  cases ht
  exact ⟨rfl, Except.mapM_eq_ok.1 hts⟩

/-- The rows of one role from a height on, without the last position of all. -/
theorem addressRows_from (H : Shown P mode st blocks) (ha : a.length ≤ 56) (role : Role) {lo : Int} (hlo : BoundFits lo)
    (limit : Nat) : st.addressRows P mode a (some role) false limit (some lo) none 0 =
      (limited limit ((blocks.flatMap (touched fun pos r =>
        inBounds (some lo) none pos.1 && (reachable none pos && touches (some role) a r))).map Prod.snd)).mapM typedRow := by
  have hfit : BoundsFit (some lo) none := ⟨by simpa using hlo, by simp⟩
  obtain ⟨ps, hps, hsorted, hmem⟩ := H.addrIter ha hfit role false
  rw [Store.addressRows, Store.addressPositions, hps, Except.ok_bind]
  dsimp only
  rw [regroup_scan H.sorted hsorted hmem, List.drop_zero, show inDirection false blocks = blocks from rfl]
  refine collectRows_typed ?_ limit
  rw [List.forall₂_map_left_iff, List.forall₂_map_right_iff, List.forall₂_same]
  intro e he
  obtain ⟨b, hb, he⟩ := List.mem_flatMap.1 he
  obtain ⟨hr, hn, -⟩ := mem_touched.1 he
  rw [← H.rowAt b hb e.1.2 e.2 hr, ← hn]

end Shown

end Bismuth
