import Bismuth.Lib.OrdTable

/-!
# Tables that hold a list of entries, and tables that count one

A table of a log holds one entry for each record that is live, in an order of its own; a table of reference
counts holds the number of records under each key. Both are compared with the list of the live records, up to
its order, so that a record can be taken out wherever it stands.
-/

theorem List.filterMap_cons_toList (f : α → Option β) (a : α) (l : List α) :
    (a :: l).filterMap f = (f a).toList ++ l.filterMap f := by
  rw [List.filterMap_cons]
  cases f a <;> rfl

theorem List.Perm.exists_map_eq {f : α → β} {l : List β} {m : List α} (h : l.Perm (m.map f)) :
    ∃ m' : List α, m'.Perm m ∧ m'.map f = l := by
  obtain ⟨m', hm', hperm⟩ := List.perm_comp_forall₂ (r := fun x y => x = f y) h
    (List.forall₂_map_left_iff.2 (List.forall₂_same.2 fun _ _ => rfl))
  refine ⟨m', hperm, ?_⟩
  clear h hperm
  induction hm' with
  | nil => rfl
  | cons hx _ ih => rw [List.map_cons, ih, hx]

namespace OrdTable
variable {K : Type u} {V : Type v} [LinearOrder K]

/-! ## Entries -/

def Lists (t : OrdTable K V) (l : List (K × V)) : Prop := t.entries.Perm l

theorem Lists.empty : (∅ : OrdTable K V).Lists [] := .nil

namespace Lists
variable {t : OrdTable K V} {l l' : List (K × V)}

theorem perm (h : t.Lists l) (hl : l.Perm l') : t.Lists l' := List.Perm.trans h hl

theorem mem_iff (h : t.Lists l) : (k, v) ∈ l ↔ t.get? k = some v :=
  (List.Perm.mem_iff h).symm.trans mem_entries

theorem get?_eq_none (h : t.Lists l) : t.get? k = none ↔ ∀ e ∈ l, e.1 ≠ k := by
  rw [OrdTable.get?_eq_none]
  constructor
  · rintro hk ⟨k', v⟩ he rfl
    exact hk v ((List.Perm.mem_iff h).2 he)
  · intro hk v hv
    exact hk _ ((List.Perm.mem_iff h).1 hv) rfl

theorem nodup (h : t.Lists l) : (l.map Prod.fst).Nodup := by
  refine (List.Perm.map Prod.fst h).nodup_iff.1 ?_
  exact (List.pairwise_map.2 t.sorted).imp ne_of_lt

theorem put (h : t.Lists l) (v : V) (hk : t.get? k = none) : (t.put k v).Lists ((k, v) :: l) := by
  suffices ∀ l : List (K × V), l.lookup k = none → (putEntry k v l).Perm ((k, v) :: l) from
    (this t.entries hk).trans (List.Perm.cons _ h)
  intro l
  induction l with
  | nil => exact fun _ => .refl _
  | cons e l ih =>
    intro hl
    rw [lookup_cons_ite] at hl
    split at hl
    · cases hl
    · rename_i hne
      rw [putEntry, if_neg hne]
      split
      · exact .refl _
      · exact ((ih hl).cons e).trans (.swap ..)

theorem erase (h : t.Lists ((k, v) :: l)) : (t.erase k).Lists l := by
  have hnodup := (List.nodup_cons.1 h.nodup).1
  have hrest : l.filter (fun e => e.1 ≠ k) = l := by
    refine List.filter_eq_self.2 fun e he => decide_eq_true ?_
    rintro rfl
    exact hnodup (List.mem_map.2 ⟨e, he, rfl⟩)
  have hfilter := List.Perm.filter (fun e : K × V => decide (e.1 ≠ k)) h
  rw [List.filter_cons, if_neg (by simp), hrest] at hfilter
  exact hfilter

theorem unique {u : OrdTable K V} (ht : t.Lists l) (hu : u.Lists l) : t = u :=
  ext_get? fun _ => Option.ext fun _ => ht.mem_iff.symm.trans hu.mem_iff

end Lists

/-! ## Counts -/

/-- Add to a count; one that is not positive is dropped. -/
def bump (t : OrdTable K Int) (k : K) (delta : Int) : OrdTable K Int :=
  let n := (t.get? k).getD 0 + delta
  if 0 < n then t.put k n else t.erase k

def Counts (t : OrdTable K Int) (l : List K) : Prop :=
  ∀ k, t.get? k = if l.count k = 0 then none else some (l.count k : Int)

theorem Counts.empty : (∅ : OrdTable K Int).Counts [] := fun _ => rfl

namespace Counts
variable {t : OrdTable K Int} {l l' : List K}

theorem perm (h : t.Counts l) (hl : l.Perm l') : t.Counts l' := fun k => by
  rw [← hl.count_eq]
  exact h k

theorem getD (h : t.Counts l) (k : K) : (t.get? k).getD 0 = l.count k := by
  rw [h k]
  split <;> simp_all

/-- A table with the counts of the list after `delta` more of `k`. -/
theorem of_bump {delta : Int} (h : t.Counts l) (hk : (l'.count k : Int) = l.count k + delta)
    (hne : ∀ j ≠ k, l'.count j = l.count j) : (t.bump k delta).Counts l' := by
  intro j
  rw [bump, h.getD, ← hk]
  by_cases hj : j = k
  · subst hj
    split
    · rw [get?_put_self, if_neg (by omega)]
    · rw [get?_erase, if_pos rfl, if_pos (by omega)]
  · rw [hne j hj, ← h j]
    split
    · rw [get?_put, if_neg hj]
    · rw [get?_erase, if_neg hj]

theorem bump_one (h : t.Counts l) (k : K) : (t.bump k 1).Counts (k :: l) :=
  h.of_bump (by simp) fun j hj => List.count_cons_of_ne hj.symm

theorem bump_neg_one (h : t.Counts (k :: l)) : (t.bump k (-1)).Counts l :=
  h.of_bump (by simp) fun j hj => (List.count_cons_of_ne hj.symm).symm

theorem unique {u : OrdTable K Int} (ht : t.Counts l) (hu : u.Counts l) : t = u :=
  ext_get? fun k => (ht k).trans (hu k).symm

end Counts

end OrdTable
