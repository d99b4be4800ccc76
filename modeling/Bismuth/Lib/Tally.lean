import Bismuth.Lib.OrdTable
import Mathlib

/-!
# Tallies

A list of deltas, each for some `a`, and its total under a key of the `a`s. Several `a`s may have
one key.
-/

variable {α : Type u} {κ : Type v} {M : Type w} [DecidableEq κ] [AddCommGroup M]

/-- The sum of the deltas under the key `k`. -/
def tally (key : α → κ) (l : List (α × M)) (k : κ) : M :=
  (l.map fun e => if key e.1 = k then e.2 else 0).sum

variable {key : α → κ}

@[simp] theorem tally_nil (k : κ) : tally key ([] : List (α × M)) k = 0 := rfl

@[simp] theorem tally_cons (e : α × M) (l : List (α × M)) (k : κ) :
    tally key (e :: l) k = (if key e.1 = k then e.2 else 0) + tally key l k := rfl

@[simp] theorem tally_append (l l' : List (α × M)) (k : κ) :
    tally key (l ++ l') k = tally key l k + tally key l' k := by
  simp [tally]

variable {l : List (α × M)}

/-- With the keys of the list distinct, an entry is the total under its key. -/
theorem tally_of_mem (hl : (l.map fun e => key e.1).Nodup) (he : e ∈ l) : tally key l (key e.1) = e.2 := by
  induction l with
  | nil => simp at he
  | cons x l ih =>
    simp only [List.map_cons, List.nodup_cons] at hl
    have hzero : ∀ l : List (α × M), key x.1 ∉ l.map (fun e => key e.1) →
        tally key l (key x.1) = 0 := fun l hl => by
      induction l with
      | nil => rfl
      | cons y l ih =>
        simp only [List.map_cons, List.mem_cons, not_or] at hl
        rw [tally_cons, if_neg (Ne.symm hl.1), ih hl.2, add_zero]
    rcases List.mem_cons.1 he with rfl | he
    · rw [tally_cons, if_pos rfl, hzero l hl.1, add_zero]
    · have hne : key x.1 ≠ key e.1 := fun h => hl.1 (h ▸ List.mem_map.2 ⟨e, he, rfl⟩)
      rw [tally_cons, if_neg hne, zero_add, ih hl.2 he]

theorem tally_of_forall_ne (h : ∀ e ∈ l, key e.1 ≠ k) : tally key l k = 0 := by
  induction l with
  | nil => rfl
  | cons e l ih =>
    rw [tally_cons, if_neg (h e (by simp)), zero_add, ih fun e' h' => h e' (by simp [h'])]

/-! ## Sums over all keys -/

theorem sum_tally {K : Finset κ} (hl : ∀ e ∈ l, key e.1 ∈ K) : ∑ k ∈ K, tally key l k = (l.map Prod.snd).sum := by
  induction l with
  | nil => simp
  | cons e l ih =>
    have hsingle : ∑ k ∈ K, (if key e.1 = k then e.2 else 0) = e.2 := by
      rw [Finset.sum_ite_eq, if_pos (hl e (by simp))]
    simp only [tally_cons, List.map_cons, List.sum_cons]
    rw [Finset.sum_add_distrib, hsingle, ih fun e' h' => hl e' (by simp [h'])]

/-- The values of a table that has the tally of a list under every key sum up to the list. -/
theorem OrdTable.sum_values_of_tally {κ : Type v} {key : α → κ} [LinearOrder κ] [DecidableEq κ] {t : OrdTable κ M}
    (h : ∀ k, (t.get? k).getD 0 = tally key l k) : (t.entries.map Prod.snd).sum = (l.map Prod.snd).sum := by
  have hentries : ∀ e ∈ t.entries, (t.get? e.1).getD 0 = e.2 := by
    intro e he
    rw [OrdTable.mem_entries.1 he, Option.getD_some]
  let K := (t.entries.map Prod.fst).toFinset ∪ (l.map fun e => key e.1).toFinset
  have hzero : ∀ k ∈ K, k ∉ (t.entries.map Prod.fst).toFinset → (t.get? k).getD 0 = 0 := by
    intro k _ hk
    have hnone : t.get? k = none := OrdTable.get?_eq_none.2 fun v hv => hk (by simp [Prod.exists]; exact ⟨v, hv⟩)
    rw [hnone, Option.getD_none]
  calc (t.entries.map Prod.snd).sum
      = (t.entries.map fun e => (t.get? e.1).getD 0).sum := by rw [List.map_congr_left fun e he => (hentries e he).symm]
    _ = ∑ k ∈ (t.entries.map Prod.fst).toFinset, (t.get? k).getD 0 := by
        rw [List.sum_toFinset _ t.nodup_keys, List.map_map]
        rfl
    _ = ∑ k ∈ K, (t.get? k).getD 0 := Finset.sum_subset Finset.subset_union_left hzero
    _ = ∑ k ∈ K, tally key l k := Finset.sum_congr rfl fun k _ => h k
    _ = (l.map Prod.snd).sum := sum_tally fun e he => Finset.mem_union_right _ (by
        rw [List.mem_toFinset]
        exact List.mem_map_of_mem he)
