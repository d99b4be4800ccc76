import Bismuth.Store.Inv

/-!
# The heights of a store

What commits and rollbacks do to the stored blocks, whatever the blocks hold.
-/

namespace Bismuth
open Py

variable {P : Prims} {mode : Mode}

namespace Store

/-- The stored blocks are those from height one up to `tip`. -/
structure Ranged (st : Store) (tip : Nat) : Prop where
  heights : st.blocks.entries.map Prod.fst = List.range' 1 tip
  pos : 1 ≤ tip
  lt : tip < 2 ^ 64

namespace Ranged
variable {st : Store}

theorem tip_eq (H : st.Ranged t) : st.tip = some t := by
  have ht := H.pos
  rw [Store.tip, OrdTable.lastKey?, ← List.getLast?_map, H.heights, List.getLast?_range', if_neg (by omega)]
  congr 1
  omega

theorem le_of_get? (H : st.Ranged t) (h : st.blocks.get? k = some body) : 1 ≤ k ∧ k ≤ t := by
  have hmem : k ∈ st.blocks.entries.map Prod.fst := List.mem_map.2 ⟨_, OrdTable.mem_entries.2 h, rfl⟩
  rw [H.heights, List.mem_range'_1] at hmem
  omega

theorem exists_get? (H : st.Ranged t) (h1 : 1 ≤ k) (hk : k ≤ t) : ∃ body, st.blocks.get? k = some body := by
  have hmem : k ∈ st.blocks.entries.map Prod.fst := by
    rw [H.heights, List.mem_range'_1]
    omega
  obtain ⟨⟨k', body⟩, he, rfl⟩ := List.mem_map.1 hmem
  exact ⟨body, OrdTable.mem_entries.1 he⟩

end Ranged

end Store

/-! ## Commit -/

/-- A commit writes the block at its height; below the fork as a list of fields. -/
theorem commitBlock_blocks {hash : Text}
    (h : commitBlock P mode st n hash rows d forkHeight = .ok st') :
    ∃ body, st.tip.any (n ≠ · + 1) = false ∧ n < 2 ^ 64 ∧ st'.blocks = st.blocks.put n body ∧
      (postFork forkHeight n = false → ∃ txs, body = .legacy hash txs) ∧
      ∀ d, hash = hex d → body.hash = hash := by
  obtain ⟨st₁, es, pkref, bal, m, htip, hbody, -, -, -, -, rfl⟩ := commitBlock_ok h
  obtain ⟨body, hlt, hlegacy, hhash, hst⟩ := putBody_frame hbody
  exact ⟨body, htip, hlt, congrArg Store.blocks hst, hlegacy, hhash⟩

theorem Store.Ranged.commit {st : Store} {hash : Text} (H : st.Ranged t)
    (h : commitBlock P mode st n hash rows d forkHeight = .ok st') : n = t + 1 ∧ st'.Ranged (t + 1) := by
  obtain ⟨body, htip, hlt, hblocks, -⟩ := commitBlock_blocks h
  rw [H.tip_eq] at htip
  obtain rfl : n = t + 1 := by simpa using htip
  refine ⟨rfl, ?_, by omega, hlt⟩
  rw [hblocks, OrdTable.entries_put_of_lt body, List.map_append, H.heights, List.range'_1_concat]
  · simp [add_comm]
  · intro e he
    have := H.le_of_get? (OrdTable.mem_entries.1 he)
    omega

/-! ## Rollback -/

theorem rollbackBlock_blocks (h : rollbackBlock P mode fh st acc removed k = .ok (st', acc', removed')) :
    st'.blocks = st.blocks.erase k := by
  rw [rollbackBlock] at h
  split at h
  · cases h
  · simp only [Except.bind_eq_ok, Prod.exists] at h
    obtain ⟨rows, -, st₁, acc₁, hidx, txcount, -, typed, -, h⟩ := h
    obtain ⟨es, pkref, -, -, -, rfl⟩ := indexRows_ok hidx
    cases h
    rfl

theorem rollbackBlocks_blocks
    (h : rollbackBlocks P mode fh st acc removed ks = .ok (st', acc', removed')) :
    st'.blocks = st.blocks.eraseAll ks := by
  induction ks generalizing st acc removed with
  | nil =>
    cases h
    rfl
  | cons k ks ih =>
    simp only [rollbackBlocks, Except.bind_eq_ok, Prod.exists] at h
    obtain ⟨st₁, acc₁, removed₁, h1, h⟩ := h
    rw [ih h, rollbackBlock_blocks h1]
    rfl

theorem rollback_blocks {k : Nat} (h : rollback P mode st k forkHeight = .ok (st', removed)) :
    st'.blocks = st.blocks.filter fun j _ => j ≤ k := by
  simp only [rollback, Except.bind_eq_ok, Prod.exists] at h
  obtain ⟨start, hstart, st₁, acc, removed₁, hblocks, bal, -, h⟩ := h
  obtain ⟨-, -, rfl⟩ := heightKey_ok hstart
  have hst : st'.blocks = st₁.blocks := by
    split at h <;> cases h <;> rfl
  refine OrdTable.ext_get? fun j => ?_
  rw [hst, rollbackBlocks_blocks hblocks, OrdTable.get?_eraseAll, OrdTable.get?_filter]
  cases hj : st.blocks.get? j with
  | none => simp
  | some body =>
    have hkey : j ∈ st.blocks.entries.map Prod.fst :=
      List.mem_map.2 ⟨_, OrdTable.mem_entries.2 hj, rfl⟩
    have hiff : ((k : Int) + 1).toNat ≤ j ↔ ¬j ≤ k := by omega
    simp only [List.mem_reverse, List.mem_filter, decide_eq_true_eq, hiff, hkey, true_and]
    by_cases hle : j ≤ k <;> simp [hle, Option.filter]

theorem Store.Ranged.rollback {st : Store} (H : st.Ranged t) (h1 : 1 ≤ k) (hk : k ≤ t)
    (h : rollback P mode st k forkHeight = .ok (st', removed)) : st'.Ranged k := by
  have hlt := H.lt
  refine ⟨?_, h1, by omega⟩
  have hsplit : List.range' 1 t = List.range' 1 k ++ List.range' (1 + k) (t - k) := by
    rw [List.range'_append_1, show k + (t - k) = t by omega]
  have hmap : st'.blocks.entries.map Prod.fst =
      (st.blocks.entries.map Prod.fst).filter fun j => j ≤ k := by
    rw [rollback_blocks h, OrdTable.filter, List.filter_map]
    rfl
  rw [hmap, H.heights, hsplit, List.filter_append, List.filter_eq_self.2, List.filter_eq_nil_iff.2,
    List.append_nil]
  · intro j hj
    rw [List.mem_range'_1] at hj
    simp only [decide_eq_true_eq]
    omega
  · intro j hj
    rw [List.mem_range'_1] at hj
    simp only [decide_eq_true_eq]
    omega

/-! ## Rows -/

theorem expand_height {pk : Nat → Text} (h : expand P mode pk k body = .ok rows) (hr : r ∈ rows) :
    r.height = k := by
  cases body with
  | legacy _ txs =>
    cases h
    obtain ⟨t, -, rfl⟩ := List.mem_map.1 hr
    rfl
  | packed _ addrs txs =>
    obtain ⟨as, -, h⟩ := Except.bind_eq_ok.1 h
    obtain ⟨b, -, hb⟩ := Except.exists_of_mem_mapM h hr
    simp only [UnpackedTx.row, Except.bind_eq_ok] at hb
    obtain ⟨t, -, _, -, _, -, hb⟩ := hb
    cases hb
    rfl

end Bismuth
