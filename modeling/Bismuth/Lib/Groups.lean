import Mathlib

/-!
# Groups of a list

A list of groups, each with a key of its own, is found again by splitting the concatenation where the key
changes.
-/

namespace List
variable {α κ : Type} [DecidableEq κ] {f : α → κ} {gs : List (List α)}

/-- Every group has one key, and no two groups have the same. -/
structure Keyed (f : α → κ) (gs : List (List α)) : Prop where
  one : ∀ g ∈ gs, ∀ a ∈ g, ∀ b ∈ g, f a = f b
  distinct : gs.Pairwise fun g g' => ∀ a ∈ g, ∀ b ∈ g', f a ≠ f b

theorem Keyed.splitBy_flatten (h : Keyed f gs) (hne : [] ∉ gs) : gs.flatten.splitBy (fun a b => f a = f b) = gs := by
  have hmem : ∀ g ∈ gs, g ≠ [] := fun g hg he => hne (he ▸ hg)
  refine List.splitBy_flatten hne (fun g hg => ?_) ?_
  · refine (List.pairwise_of_forall_mem_list fun a ha b hb => ?_).isChain
    exact decide_eq_true (h.one g hg a ha b hb)
  · refine (h.distinct.imp_of_mem fun {g g'} hg hg' hd => ?_).isChain
    exact ⟨hmem g hg, hmem g' hg', decide_eq_false (hd _ (getLast_mem _) _ (head_mem _))⟩

/-- Reversing a list and then each of its groups reverses the order of the groups. -/
theorem Keyed.regroup (h : Keyed f gs) :
    ((gs.flatten.reverse.splitBy fun a b => f a = f b).map reverse).flatten = gs.reverse.flatten := by
  have hflat : ∀ l : List (List α), (l.filter (· ≠ [])).flatten = l.flatten := fun l => by
    induction l with
    | nil => rfl
    | cons g l ih => by_cases hg : g = [] <;> simp [hg, ← ih]
  have hrev : Keyed f ((gs.filter (· ≠ [])).map reverse).reverse := by
    refine ⟨?_, ?_⟩
    · intro g hg
      obtain ⟨g, hg', rfl⟩ := mem_map.1 (mem_reverse.1 hg)
      intro a ha b hb
      exact h.one g (mem_filter.1 hg').1 a (mem_reverse.1 ha) b (mem_reverse.1 hb)
    · rw [pairwise_reverse, pairwise_map]
      refine (h.distinct.filter _).imp fun {g g'} hd a ha b hb he => ?_
      exact hd b (mem_reverse.1 hb) a (mem_reverse.1 ha) he.symm
  have hne : [] ∉ ((gs.filter (· ≠ [])).map reverse).reverse := by simp
  rw [← hflat gs, reverse_flatten, hrev.splitBy_flatten hne, ← hflat gs.reverse, filter_reverse, map_reverse,
    map_map]
  simp

end List
