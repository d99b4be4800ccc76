import Mathlib

/-!
# Dictionaries

Finite maps that keep their keys in the order in which they came.
-/

structure Dict (K V : Type) where
  entries : List (K × V)
  nodup : (entries.map Prod.fst).Nodup

namespace Dict
variable {K V : Type}

instance : EmptyCollection (Dict K V) := ⟨⟨[], .nil⟩⟩

def keys (d : Dict K V) : List K := d.entries.map Prod.fst

def values (d : Dict K V) : List V := d.entries.map Prod.snd

def size (d : Dict K V) : Nat := d.entries.length

variable [DecidableEq K]

def get? (d : Dict K V) (k : K) : Option V := (d.entries.find? fun e => e.1 = k).map Prod.snd

/-- The entry of `k` gets a new value, or a new one goes to the end. -/
def setEntry (k : K) (v : V) : List (K × V) → List (K × V)
  | [] => [(k, v)]
  | e :: l => if e.1 = k then (k, v) :: l else e :: setEntry k v l

theorem map_fst_setEntry (k : K) (v : V) (l : List (K × V)) :
    (setEntry k v l).map Prod.fst = if k ∈ l.map Prod.fst then l.map Prod.fst else l.map Prod.fst ++ [k] := by
  induction l with
  | nil => rfl
  | cons e l ih =>
    rw [setEntry]
    by_cases h : e.1 = k
    · rw [if_pos h, if_pos (by simp [h]), List.map_cons, List.map_cons, h]
    · have hmem : k ∈ (e :: l).map Prod.fst ↔ k ∈ l.map Prod.fst := by
        rw [List.map_cons, List.mem_cons, or_iff_right (Ne.symm h)]
      rw [if_neg h, List.map_cons, ih]
      by_cases hk : k ∈ l.map Prod.fst
      · rw [if_pos hk, if_pos (hmem.2 hk), List.map_cons]
      · rw [if_neg hk, if_neg (mt hmem.1 hk), List.map_cons, List.cons_append]

def set (d : Dict K V) (k : K) (v : V) : Dict K V where
  entries := setEntry k v d.entries
  nodup := by
    rw [map_fst_setEntry]
    split
    · exact d.nodup
    · rename_i hk
      rw [List.nodup_append]
      refine ⟨d.nodup, List.nodup_singleton k, fun a ha b hb => ?_⟩
      rw [List.mem_singleton.1 hb]
      rintro rfl
      exact hk ha

def erase (d : Dict K V) (k : K) : Dict K V where
  entries := d.entries.filter fun e => e.1 ≠ k
  nodup := d.nodup.sublist (List.filter_sublist.map Prod.fst)

theorem find?_setEntry (k : K) (v : V) (l : List (K × V)) (k' : K) :
    ((setEntry k v l).find? fun e => e.1 = k').map Prod.snd =
      if k = k' then some v else (l.find? fun e => e.1 = k').map Prod.snd := by
  induction l with
  | nil => by_cases h : k = k' <;> simp [setEntry, h]
  | cons e l ih =>
    rw [setEntry]
    by_cases h : e.1 = k
    · rw [if_pos h]
      by_cases hk : k = k'
      · simp [hk]
      · have hne : e.1 ≠ k' := h ▸ hk
        simp [hk, hne]
    · rw [if_neg h]
      by_cases he : e.1 = k'
      · have hk : k ≠ k' := fun hk => h (he.trans hk.symm)
        simp [he, hk]
      · simpa [he] using ih

theorem get?_set (d : Dict K V) (k : K) (v : V) (k' : K) :
    (d.set k v).get? k' = if k = k' then some v else d.get? k' := find?_setEntry k v d.entries k'

variable {d : Dict K V} {k : K}

theorem mem_entries {v : V} : (k, v) ∈ d.entries ↔ d.get? k = some v := by
  constructor
  · intro h
    rw [get?]
    cases hf : d.entries.find? fun e => e.1 = k with
    | none =>
      rw [List.find?_eq_none] at hf
      exact absurd (by simp) (hf _ h)
    | some e =>
      have hk : e.1 = k := by simpa using List.find?_some hf
      have he := List.inj_on_of_nodup_map d.nodup (List.mem_of_find?_eq_some hf) h hk
      rw [he]
      rfl
  · intro h
    obtain ⟨e, hf, rfl⟩ := Option.map_eq_some_iff.1 h
    have hk : e.1 = k := by simpa using List.find?_some hf
    rw [← hk]
    exact List.mem_of_find?_eq_some hf

theorem mem_values {v : V} : v ∈ d.values ↔ ∃ k, d.get? k = some v := by
  rw [values, List.mem_map]
  constructor
  · rintro ⟨⟨k, v⟩, hmem, rfl⟩
    exact ⟨k, mem_entries.1 hmem⟩
  · rintro ⟨k, hget⟩
    exact ⟨(k, v), mem_entries.2 hget, rfl⟩

theorem mem_values_set {v w : V} (h : w ∈ (d.set k v).values) : w = v ∨ w ∈ d.values := by
  obtain ⟨k', hget⟩ := mem_values.1 h
  rw [get?_set] at hget
  split at hget
  · exact .inl (Option.some.inj hget).symm
  · exact .inr (mem_values.2 ⟨k', hget⟩)

theorem entries_set_of_get?_eq_none (v : V) (h : d.get? k = none) : (d.set k v).entries = d.entries ++ [(k, v)] := by
  have hk : ∀ e ∈ d.entries, e.1 ≠ k := by
    intro e he
    have hnone : d.entries.find? (fun e => e.1 = k) = none := Option.map_eq_none_iff.1 h
    simpa using List.find?_eq_none.1 hnone e he
  show setEntry k v d.entries = _
  generalize d.entries = l at hk ⊢
  induction l with
  | nil => rfl
  | cons e l ih =>
    rw [setEntry, if_neg (hk e (by simp)), ih fun e he => hk e (by simp [he]), List.cons_append]

/-- A dictionary whose entries are among those of another has no other values. -/
theorem get?_of_subset {d d' : Dict K V} (h : d.entries ⊆ d'.entries) {v : V} (hget : d.get? k = some v) :
    d'.get? k = some v :=
  mem_entries.1 (h (mem_entries.2 hget))

theorem values_subset {d d' : Dict K V} (h : d.entries ⊆ d'.entries) : d.values ⊆ d'.values :=
  List.map_subset _ h

theorem entries_erase_subset (d : Dict K V) (k : K) : (d.erase k).entries ⊆ d.entries :=
  List.filter_sublist.subset

theorem get?_erase (d : Dict K V) (k k' : K) : (d.erase k).get? k' = if k = k' then none else d.get? k' := by
  have hmem : ∀ v, (k', v) ∈ (d.erase k).entries ↔ (k', v) ∈ d.entries ∧ k' ≠ k := fun v => by
    simp [erase, List.mem_filter]
  ext v
  rw [← mem_entries, hmem, mem_entries]
  split <;> rename_i h
  · simp [h]
  · simp [Ne.symm h]

theorem mem_keys : k ∈ d.keys ↔ ∃ v, d.get? k = some v := by
  rw [keys, List.mem_map]
  constructor
  · rintro ⟨⟨k, v⟩, hmem, rfl⟩
    exact ⟨v, mem_entries.1 hmem⟩
  · rintro ⟨v, hget⟩
    exact ⟨(k, v), mem_entries.2 hget, rfl⟩

theorem get?_eq_none : d.get? k = none ↔ k ∉ d.keys := by
  rw [mem_keys, Option.eq_none_iff_forall_ne_some, not_exists]

theorem entries_foldl_set {l : List (K × V)} (hl : (l.map Prod.fst).Nodup)
    (hd : ∀ e ∈ l, d.get? e.1 = none) : (l.foldl (fun d e => d.set e.1 e.2) d).entries = d.entries ++ l := by
  induction l generalizing d with
  | nil => rw [List.foldl_nil, List.append_nil]
  | cons e l ih =>
    rw [List.map_cons, List.nodup_cons] at hl
    rw [List.foldl_cons, ih hl.2, entries_set_of_get?_eq_none e.2 (hd e List.mem_cons_self), List.append_assoc,
      List.singleton_append]
    intro e' he'
    have hne : e.1 ≠ e'.1 := fun h => hl.1 (h ▸ List.mem_map_of_mem he')
    rw [get?_set, if_neg hne]
    exact hd e' (List.mem_cons_of_mem e he')

/-- At most as many entries satisfy `p` as there are keys of another dictionary among which they all are. -/
theorem countP_le {W : Type} (d : Dict K V) (d' : Dict K W) {p : V → Bool} {q : K → Bool}
    (h : ∀ k v, d.get? k = some v → p v → k ∈ d'.keys ∧ q k) :
    d.values.countP p ≤ d'.keys.countP q := by
  have hcount : d.values.countP p = ((d.entries.filter fun e => p e.2).map Prod.fst).length := by
    rw [values, List.countP_map, List.countP_eq_length_filter, List.length_map]
    rfl
  rw [hcount, List.countP_eq_length_filter]
  refine (List.Nodup.subperm (d.nodup.sublist (List.filter_sublist.map Prod.fst)) ?_).length_le
  intro k hk
  obtain ⟨e, he, rfl⟩ := List.mem_map.1 hk
  obtain ⟨he, hp⟩ := List.mem_filter.1 he
  exact List.mem_filter.2 (h e.1 e.2 (mem_entries.1 he) hp)

end Dict
