import Mathlib

/-!
# Ordered tables

A key-value table as an ordered store keeps it: entries in strictly increasing key order, so that
a scan visits the keys in order and the last entry is the greatest one. A table is determined by
its lookup function (`OrdTable.ext_get?`), which is how two tables are compared.
-/

/-- A finite map from `K` to `V`, its entries in strictly increasing key order. -/
structure OrdTable (K : Type u) (V : Type v) [LT K] where
  entries : List (K × V)
  sorted : entries.Pairwise fun a b => a.1 < b.1

namespace OrdTable
variable {K : Type u} {V : Type v} [LinearOrder K]

instance [DecidableEq V] : DecidableEq (OrdTable K V) := fun a b =>
  decidable_of_iff (a.entries = b.entries) (by cases a; cases b; simp)

/-! ## Operations -/

def empty : OrdTable K V := ⟨[], .nil⟩

instance : EmptyCollection (OrdTable K V) := ⟨empty⟩
instance : Inhabited (OrdTable K V) := ⟨empty⟩

def get? (t : OrdTable K V) (k : K) : Option V := t.entries.lookup k

def putEntry (k : K) (v : V) : List (K × V) → List (K × V)
  | [] => [(k, v)]
  | (k', v') :: t =>
    if k < k' then (k, v) :: (k', v') :: t
    else if k = k' then (k, v) :: t
    else (k', v') :: putEntry k v t

variable {l : List (K × V)}

theorem mem_putEntry {k : K} {v : V} (h : e ∈ putEntry k v l) : e = (k, v) ∨ e ∈ l := by
  induction l with
  | nil => simpa [putEntry] using h
  | cons e' l ih =>
    simp only [putEntry] at h
    split at h
    · simpa using h
    · split at h
      · rcases List.mem_cons.1 h with rfl | h
        · exact .inl rfl
        · exact .inr (.tail _ h)
      · rcases List.mem_cons.1 h with rfl | h
        · exact .inr (.head _)
        · exact (ih h).imp id (.tail _)

theorem putEntry_sorted (k : K) (v : V)
    (H : l.Pairwise fun a b => a.1 < b.1) : (putEntry k v l).Pairwise fun a b => a.1 < b.1 := by
  induction l with
  | nil => simp [putEntry]
  | cons e l ih =>
    obtain ⟨h1, h2⟩ := List.pairwise_cons.1 H
    simp only [putEntry]
    split <;> rename_i hlt
    · refine List.pairwise_cons.2 ⟨fun a ha => ?_, H⟩
      rcases List.mem_cons.1 ha with rfl | ha
      · exact hlt
      · exact hlt.trans (h1 a ha)
    · split <;> rename_i heq
      · subst heq
        exact List.pairwise_cons.2 ⟨h1, h2⟩
      · refine List.pairwise_cons.2 ⟨fun a ha => ?_, ih h2⟩
        rcases mem_putEntry ha with rfl | ha
        · exact lt_of_le_of_ne (not_lt.1 hlt) (Ne.symm heq)
        · exact h1 a ha

/-- Bind `k` to `v`, replacing an earlier value. -/
def put (t : OrdTable K V) (k : K) (v : V) : OrdTable K V :=
  ⟨putEntry k v t.entries, putEntry_sorted k v t.sorted⟩

/-- Keep the entries that satisfy `p`. -/
def filter (t : OrdTable K V) (p : K → V → Bool) : OrdTable K V :=
  ⟨t.entries.filter fun e => p e.1 e.2, t.sorted.filter _⟩

def erase (t : OrdTable K V) (k : K) : OrdTable K V := t.filter fun k' _ => k' ≠ k

def map {W : Type w} (f : V → W) (t : OrdTable K V) : OrdTable K W :=
  ⟨t.entries.map fun e => (e.1, f e.2), List.pairwise_map.2 t.sorted⟩

def putAll (t : OrdTable K V) (es : List (K × V)) : OrdTable K V :=
  es.foldl (fun t e => t.put e.1 e.2) t

def eraseAll (t : OrdTable K V) (ks : List K) : OrdTable K V := ks.foldl erase t

def lastKey? (t : OrdTable K V) : Option K := t.entries.getLast?.map Prod.fst

/-! ## Lookup -/

theorem lookup_cons_ite (k : K) (e : K × V) (l : List (K × V)) :
    (e :: l).lookup k = if k = e.1 then some e.2 else l.lookup k := by
  by_cases h : k = e.1
  · simp [List.lookup, h]
  · simp [List.lookup, beq_false_of_ne h, h]

variable {t : OrdTable K V}

theorem mem_entries : (k, v) ∈ t.entries ↔ t.get? k = some v := by
  obtain ⟨l, hl⟩ := t
  simp only [get?]
  induction l with
  | nil => simp
  | cons e l ih =>
    obtain ⟨h1, h2⟩ := List.pairwise_cons.1 hl
    rw [lookup_cons_ite, List.mem_cons, ih h2]
    split <;> rename_i hk
    · subst hk
      have hn : l.lookup e.1 ≠ some v := fun h => (h1 _ ((ih h2).2 h)).false
      simp [hn, Prod.ext_iff, eq_comm]
    · simp [Prod.ext_iff, hk]

@[simp] theorem get?_empty (k : K) : (∅ : OrdTable K V).get? k = none := rfl

theorem get?_eq_none : t.get? k = none ↔ ∀ v, (k, v) ∉ t.entries := by
  simp [mem_entries, Option.eq_none_iff_forall_ne_some]

theorem ext_get? {t u : OrdTable K V} (H : ∀ k, t.get? k = u.get? k) : t = u := by
  have hmem : ∀ e, e ∈ t.entries ↔ e ∈ u.entries := fun (k, v) => by
    rw [mem_entries, mem_entries, H]
  obtain ⟨l, hl⟩ := t; obtain ⟨l', hl'⟩ := u
  have hnodup : ∀ {l : List (K × V)}, (l.Pairwise fun a b => a.1 < b.1) → l.Nodup :=
    fun h => h.imp fun hlt he => hlt.ne (congrArg Prod.fst he)
  have hperm : l.Perm l' := (List.perm_ext_iff_of_nodup (hnodup hl) (hnodup hl')).2 hmem
  have : l = l' := hperm.eq_of_pairwise (fun a b _ _ h1 h2 => (h1.asymm h2).elim) hl hl'
  subst this; rfl

/-- Tables whose entries are related one by one, keys kept, have related lookups. -/
theorem get?_of_forall₂ {W : Type w} {R : K × V → K × W → Prop}
    {u : OrdTable K W} (h : List.Forall₂ R t.entries u.entries)
    (hR : ∀ {e e'}, R e e' → e'.1 = e.1) (k : K) :
    (t.get? k = none ∧ u.get? k = none) ∨
      ∃ v w, t.get? k = some v ∧ u.get? k = some w ∧ R (k, v) (k, w) := by
  simp only [get?]
  generalize t.entries = l, u.entries = l' at h
  induction h with
  | nil => simp
  | @cons e e' _ _ he _ ih =>
    obtain ⟨a, v⟩ := e
    obtain ⟨a', w⟩ := e'
    obtain rfl : a' = a := hR he
    rw [lookup_cons_ite, lookup_cons_ite]
    by_cases hk : k = a'
    · subst hk
      exact .inr ⟨v, w, by simp, by simp, he⟩
    · simpa [hk] using ih

theorem lookup_putEntry (k : K) (v : V) (l : List (K × V)) (k' : K) :
    (putEntry k v l).lookup k' = if k' = k then some v else l.lookup k' := by
  induction l with
  | nil => simp [putEntry, lookup_cons_ite]
  | cons e l ih =>
    simp only [putEntry]
    split
    · rw [lookup_cons_ite]
    · split <;> rename_i hk
      · subst hk
        simp only [lookup_cons_ite]
        split <;> rfl
      · simp only [lookup_cons_ite, ih]
        split <;> rename_i h
        · rw [if_neg (h ▸ Ne.symm hk)]
        · rfl

theorem get?_put (t : OrdTable K V) (k : K) (v : V) (k' : K) :
    (t.put k v).get? k' = if k' = k then some v else t.get? k' := lookup_putEntry ..

@[simp] theorem get?_put_self (t : OrdTable K V) (k : K) (v : V) :
    (t.put k v).get? k = some v := by simp [get?_put]

theorem get?_filter (t : OrdTable K V) (p : K → V → Bool) (k : K) :
    (t.filter p).get? k = (t.get? k).filter (p k) := by
  ext v
  rw [Option.filter_eq_some_iff, ← mem_entries, ← mem_entries]
  exact List.mem_filter

theorem get?_erase (t : OrdTable K V) (k k' : K) :
    (t.erase k).get? k' = if k' = k then none else t.get? k' := by
  rw [erase, get?_filter]
  by_cases h : k' = k <;> cases t.get? k' <;> simp [h]

theorem get?_map {W : Type w} (f : V → W) (t : OrdTable K V) (k : K) : (t.map f).get? k = (t.get? k).map f := by
  change (t.entries.map fun e => (e.1, f e.2)).lookup k = (t.entries.lookup k).map f
  induction t.entries with
  | nil => rfl
  | cons e l ih =>
    rw [List.map_cons, lookup_cons_ite, lookup_cons_ite, ih]
    split <;> rfl

theorem get?_putAll (t : OrdTable K V) (hl : (l.map Prod.fst).Nodup) (k : K) :
    (t.putAll l).get? k = (l.lookup k).or (t.get? k) := by
  induction l generalizing t with
  | nil => rfl
  | cons e l ih =>
    rw [List.map_cons, List.nodup_cons] at hl
    rw [putAll, List.foldl_cons, ← putAll, ih _ hl.2, get?_put, lookup_cons_ite]
    by_cases hk : k = e.1
    · have hnone : l.lookup k = none := by
        rw [List.lookup_eq_none_iff]
        intro p hp
        rw [hk, bne_iff_ne]
        intro he
        exact hl.1 (he ▸ List.mem_map_of_mem hp)
      rw [if_pos hk, if_pos hk, hnone]
      rfl
    · rw [if_neg hk, if_neg hk]

theorem nodup_keys (t : OrdTable K V) : (t.entries.map Prod.fst).Nodup :=
  List.pairwise_map.2 (t.sorted.imp fun h => h.ne)

theorem get?_putAll_map (t : OrdTable K V) (ks : List K) (v : V) (k : K) :
    (t.putAll (ks.map (·, v))).get? k = if k ∈ ks then some v else t.get? k := by
  induction ks generalizing t with
  | nil => simp [putAll]
  | cons k' ks ih =>
    rw [List.map_cons, putAll, List.foldl_cons]
    refine (ih (t.put k' v)).trans ?_
    by_cases h : k ∈ ks <;> by_cases h' : k = k' <;> simp [h, h', get?_put]

theorem get?_eraseAll (t : OrdTable K V) (ks : List K) (k : K) :
    (t.eraseAll ks).get? k = if k ∈ ks then none else t.get? k := by
  induction ks generalizing t with
  | nil => simp [eraseAll]
  | cons k' ks ih =>
    rw [eraseAll, List.foldl_cons]
    refine (ih (t.erase k')).trans ?_
    by_cases h : k ∈ ks <;> by_cases h' : k = k' <;> simp [h, h', get?_erase]

/-! ## The order of the entries -/

theorem exists_le_lastKey? (h : t.get? k = some v) : ∃ m, t.lastKey? = some m ∧ k ≤ m := by
  have hmem := mem_entries.2 h
  obtain ⟨es, e, hes⟩ := List.eq_nil_or_concat t.entries |>.resolve_left (List.ne_nil_of_mem hmem)
  have hsorted := t.sorted
  rw [List.concat_eq_append] at hes
  rw [hes] at hmem hsorted
  refine ⟨e.1, by rw [lastKey?, hes, List.getLast?_concat]; rfl, ?_⟩
  rcases List.mem_append.1 hmem with hmem | hmem
  · exact ((List.pairwise_append.1 hsorted).2.2 _ hmem e (by simp)).le
  · rw [← List.mem_singleton.1 hmem]

theorem putEntry_of_lt {k : K} (v : V) (h : ∀ e ∈ l, e.1 < k) : putEntry k v l = l ++ [(k, v)] := by
  induction l with
  | nil => rfl
  | cons e l ih =>
    have he := h e (by simp)
    simp only [putEntry, List.cons_append]
    rw [if_neg he.asymm, if_neg he.ne', ih fun e' h' => h e' (List.mem_cons_of_mem _ h')]

theorem entries_put_of_lt {k : K} (v : V) (h : ∀ e ∈ t.entries, e.1 < k) :
    (t.put k v).entries = t.entries ++ [(k, v)] := putEntry_of_lt v h

theorem length_putEntry (v : V) (h : l.lookup k = none) : (putEntry k v l).length = l.length + 1 := by
  induction l with
  | nil => rfl
  | cons e l ih =>
    rw [lookup_cons_ite] at h
    split at h
    · cases h
    · simp only [putEntry]
      split
      · rfl
      · rw [List.length_cons, ih h, List.length_cons]

theorem length_entries_put (v : V) (h : t.get? k = none) :
    (t.put k v).entries.length = t.entries.length + 1 := length_putEntry v h

theorem entries_erase (t : OrdTable K V) (k : K) :
    (t.erase k).entries = t.entries.filter fun e => e.1 ≠ k := rfl

/-! ## Tables that hold a relation -/

/-- The table's entries are the pairs that `R` relates. -/
def Holds (t : OrdTable K V) (R : K → V → Prop) : Prop := ∀ k v, t.get? k = some v ↔ R k v

theorem Holds.empty (h : ∀ k v, ¬R k v) : (∅ : OrdTable K V).Holds R := fun k v => by simp [h k v]

theorem Holds.congr (h : t.Holds R) (hR : ∀ k v, R k v ↔ S k v) : t.Holds S :=
  fun k v => (h k v).trans (hR k v)

theorem Holds.unique {t u : OrdTable K V} (ht : t.Holds R) (hu : u.Holds R) : t = u :=
  ext_get? fun k => Option.ext fun v => (ht k v).trans (hu k v).symm

/-- Putting `v` under keys that are bound to nothing else. -/
theorem Holds.putAll (h : t.Holds R) {ks : List K} {v : V} (hks : ∀ k ∈ ks, ∀ v', R k v' → v' = v) :
    (t.putAll (ks.map (·, v))).Holds fun k v' => R k v' ∨ k ∈ ks ∧ v' = v := by
  intro k v'
  rw [get?_putAll_map]
  split <;> rename_i hk
  · simp only [Option.some.injEq, hk, true_and]
    exact ⟨fun h => .inr h.symm, fun h => (h.elim (hks k hk v') id).symm⟩
  · simp [hk, h k v']

theorem Holds.put (h : t.Holds R) {k : K} {v : V} (hk : ∀ v', R k v' → v' = v) :
    (t.put k v).Holds fun k' v' => R k' v' ∨ k' = k ∧ v' = v := by
  have := @Holds.putAll _ _ _ _ _ h [k] v (by simpa using hk)
  exact this.congr fun k' v' => by simp

theorem Holds.erase (h : t.Holds R) (k : K) : (t.erase k).Holds fun k' v => R k' v ∧ k' ≠ k := by
  intro k' v
  rw [get?_erase]
  split <;> rename_i hk
  · simp [hk]
  · simp [hk, h k' v]

theorem Holds.eraseAll (h : t.Holds R) (ks : List K) : (t.eraseAll ks).Holds fun k v => R k v ∧ k ∉ ks := by
  intro k v
  rw [get?_eraseAll]
  split <;> rename_i hk
  · simp [hk]
  · simp [hk, h k v]

theorem Holds.filter (h : t.Holds R) (p : K → V → Bool) : (t.filter p).Holds fun k v => R k v ∧ p k v := by
  intro k v
  rw [get?_filter, Option.filter_eq_some_iff, h k v]

/-! ## Sums over a table -/

section
variable {M : Type w} [AddCommGroup M] (f : V → M)

/-- The sum of `f` over the values. -/
def sum (t : OrdTable K V) : M := (t.entries.map fun e => f e.2).sum

theorem lookup_eq_none {k : K} {l : List (K × V)} (h : ∀ e ∈ l, k < e.1) : l.lookup k = none := by
  induction l with
  | nil => rfl
  | cons e l ih =>
    rw [lookup_cons_ite, if_neg (h e (by simp)).ne, ih fun e he => h e (by simp [he])]

theorem sum_put (t : OrdTable K V) (k : K) (v : V) :
    (t.put k v).sum f = t.sum f - ((t.get? k).map f).getD 0 + f v := by
  obtain ⟨l, hl⟩ := t
  simp only [sum, put, get?]
  induction l with
  | nil => simp [putEntry]
  | cons e l ih =>
    obtain ⟨h1, h2⟩ := List.pairwise_cons.1 hl
    rw [putEntry, lookup_cons_ite]
    rcases lt_trichotomy k e.1 with hlt | heq | hlt
    · rw [if_pos hlt, if_neg hlt.ne, lookup_eq_none fun e' he' => hlt.trans (h1 e' he')]
      simp [add_comm]
    · rw [if_neg heq.not_lt, if_pos heq, if_pos heq]
      simp [add_comm]
    · rw [if_neg hlt.asymm, if_neg hlt.ne', if_neg hlt.ne', List.map_cons, List.sum_cons, ih h2,
        List.map_cons, List.sum_cons, ← add_assoc, ← add_sub_assoc]

theorem sum_erase (t : OrdTable K V) (k : K) :
    (t.erase k).sum f = t.sum f - ((t.get? k).map f).getD 0 := by
  obtain ⟨l, hl⟩ := t
  simp only [sum, erase, filter, get?]
  induction l with
  | nil => simp
  | cons e l ih =>
    obtain ⟨h1, h2⟩ := List.pairwise_cons.1 hl
    rw [lookup_cons_ite, List.filter_cons]
    by_cases heq : k = e.1
    · have hkeep : l.filter (fun e => decide (e.1 ≠ k)) = l :=
        List.filter_eq_self.2 fun e' he' => decide_eq_true (heq ▸ h1 e' he').ne'
      rw [if_pos heq, if_neg (by simp [heq]), hkeep, List.map_cons, List.sum_cons, Option.map_some,
        Option.getD_some, add_sub_cancel_left]
    · rw [if_neg heq, if_pos (decide_eq_true (Ne.symm heq)), List.map_cons, List.sum_cons, ih h2,
        List.map_cons, List.sum_cons, add_sub_assoc]

end

end OrdTable
