import Mathlib

/-!
# The greatest elements of a finite set

A selection of the `k` elements with the greatest scores. Which of the elements with the least selected score it has is
open, so that two selections agree in their scores and not in their elements.
-/

/-- `T` has `k` elements of `B`, or all of them, and none that is left out has a greater score. -/
structure Greatest [LinearOrder β] (k : ℕ) (v : α → β) (B T : Finset α) : Prop where
  subset : T ⊆ B
  card : T.card = min k B.card
  le : ∀ a ∈ T, ∀ b ∈ B, b ∉ T → v b ≤ v a

namespace Greatest
variable [LinearOrder β] {k : ℕ} {v : α → β} {B C T T' : Finset α}

theorem of_take [DecidableEq α] {l : List α} (hnodup : l.Nodup) (hsorted : l.Pairwise fun a b => v b ≤ v a) :
    Greatest k v l.toFinset (l.take k).toFinset where
  subset := by
    intro a ha
    rw [List.mem_toFinset] at ha ⊢
    exact List.mem_of_mem_take ha
  card := by
    rw [List.toFinset_card_of_nodup (hnodup.sublist (List.take_sublist k l)), List.toFinset_card_of_nodup hnodup,
      List.length_take]
  le := by
    intro a ha b hb hb'
    rw [List.mem_toFinset] at ha hb hb'
    rw [← List.take_append_drop k l] at hb hsorted
    exact (List.pairwise_append.1 hsorted).2.2 a ha b ((List.mem_append.1 hb).resolve_left hb')

/-- The first entries after sorting by an order that the scores respect. -/
theorem of_mergeSort [DecidableEq α] {l : List α} (hnodup : l.Nodup) {le : α → α → Bool}
    (htrans : ∀ a b c, le a b = true → le b c = true → le a c = true) (htotal : ∀ a b, (le a b || le b a) = true)
    (hle : ∀ a b, le a b = true → v b ≤ v a) : Greatest k v l.toFinset ((l.mergeSort le).take k).toFinset := by
  have hperm := List.mergeSort_perm l le
  rw [← List.toFinset_eq_of_perm _ _ hperm]
  exact of_take (hperm.nodup_iff.2 hnodup) ((List.pairwise_mergeSort htrans htotal l).imp fun h => hle _ _ h)

/-- A selection has as many scores in an upper set as there is room for. -/
theorem card_filter (h : Greatest k v B T) {p : β → Prop} [DecidablePred p] (hp : ∀ {x y}, x ≤ y → p x → p y) :
    (T.filter fun a => p (v a)).card = min k (B.filter fun a => p (v a)).card := by
  by_cases hall : ∀ a ∈ T, p (v a)
  · have hsub : T ⊆ B.filter fun a => p (v a) := fun a ha => Finset.mem_filter.2 ⟨h.subset ha, hall a ha⟩
    have hle := Finset.card_le_card hsub
    have hle' := Finset.card_filter_le B fun a => p (v a)
    have hcard := h.card
    rw [Finset.filter_true_of_mem hall]
    omega
  · push Not at hall
    obtain ⟨a, ha, hpa⟩ := hall
    -- every score in the upper set is above one that was selected
    have heq : (T.filter fun a => p (v a)) = B.filter fun a => p (v a) := by
      ext b
      rw [Finset.mem_filter, Finset.mem_filter]
      refine ⟨fun hb => ⟨h.subset hb.1, hb.2⟩, fun hb => ⟨?_, hb.2⟩⟩
      by_contra hbT
      exact hpa (hp (h.le a ha b hb.1 hbT) hb.2)
    have hle : (T.filter fun a => p (v a)).card ≤ T.card := Finset.card_filter_le ..
    have hcard := h.card
    rw [heq] at hle ⊢
    omega

theorem of_map_eq (hT : T ⊆ B) (h : Greatest k v B T') (heq : T.val.map v = T'.val.map v) : Greatest k v B T where
  subset := hT
  card := by
    have hcard := congrArg Multiset.card heq
    rw [Multiset.card_map, Multiset.card_map] at hcard
    exact hcard.trans h.card
  le := by
    intro a ha b hb hbT
    by_contra hlt
    rw [not_le] at hlt
    have hcount : (T.filter fun c => v b ≤ v c).card = (T'.filter fun c => v b ≤ v c).card := by
      have hmap := congrArg (Multiset.countP fun x => v b ≤ x) heq
      rw [Multiset.countP_map, Multiset.countP_map] at hmap
      exact hmap
    have hcard := congrArg Multiset.card heq
    rw [Multiset.card_map, Multiset.card_map] at hcard
    have htop := h.card_filter (p := fun x => v b ≤ x) fun h₁ h₂ => h₂.trans h₁
    have hT' : T'.card = min k B.card := h.card
    -- `a` is selected and below the score, and `b` has it and is left out
    have hlt₁ : (T.filter fun c => v b ≤ v c).card < T.card :=
      Finset.card_lt_card (Finset.filter_ssubset.2 ⟨a, ha, not_le.2 hlt⟩)
    have hlt₂ : (T.filter fun c => v b ≤ v c).card < (B.filter fun c => v b ≤ v c).card := by
      refine Finset.card_lt_card ⟨Finset.filter_subset_filter _ hT, fun hsub => hbT ?_⟩
      exact (Finset.mem_filter.1 (hsub (Finset.mem_filter.2 ⟨hb, le_rfl⟩))).1
    have hcard' : T.card = T'.card := hcard
    omega

theorem map_eq (h : Greatest k v B T) (h' : Greatest k v B T') : T.val.map v = T'.val.map v := by
  classical
  refine Multiset.ext.2 fun x => ?_
  have hsplit : ∀ S : Finset α, (S.val.map v).count x + (S.filter fun a => x < v a).card =
      (S.filter fun a => x ≤ v a).card := by
    intro S
    rw [Multiset.count_map]
    show (S.filter fun a => x = v a).card + _ = _
    rw [← Finset.card_union_of_disjoint, ← Finset.filter_or]
    · congr 1
      ext a
      rw [Finset.mem_filter, Finset.mem_filter, or_comm, le_iff_lt_or_eq]
    · exact Finset.disjoint_filter.2 fun a _ heq hlt => hlt.ne heq
  have h₁ := hsplit T
  have h₂ := hsplit T'
  rw [h.card_filter (p := fun y => x < y) fun h₁ h₂ => h₂.trans_le h₁,
    h.card_filter (p := fun y => x ≤ y) fun h₁ h₂ => h₂.trans h₁] at h₁
  rw [h'.card_filter (p := fun y => x < y) fun h₁ h₂ => h₂.trans_le h₁,
    h'.card_filter (p := fun y => x ≤ y) fun h₁ h₂ => h₂.trans h₁] at h₂
  omega

/-- A selection from some candidates is one from all elements if and only if enough candidates are as good as each of
the others. -/
theorem iff_of_candidates (hCB : C ⊆ B) (h : Greatest k v C T) :
    Greatest k v B T ↔ ∀ d ∈ B, d ∉ C → k ≤ (C.filter fun c => v d ≤ v c).card := by
  have hcard := h.card
  constructor
  · intro hB d hd hdC
    have hdT : d ∉ T := fun hdT => hdC (h.subset hdT)
    have hsub : T ⊆ C.filter fun c => v d ≤ v c := fun a ha => Finset.mem_filter.2 ⟨h.subset ha, hB.le a ha d hd hdT⟩
    have hle := Finset.card_le_card hsub
    have hlt : C.card < B.card := Finset.card_lt_card ⟨hCB, fun hBC => hdC (hBC hd)⟩
    have hcardB := hB.card
    omega
  · intro hcover
    have hle : C.card ≤ B.card := Finset.card_le_card hCB
    refine ⟨h.subset.trans hCB, ?_, fun a ha b hb hbT => ?_⟩
    · by_cases hBC : B ⊆ C
      · rw [hcard, hCB.antisymm hBC]
      · obtain ⟨d, hd, hdC⟩ := Finset.not_subset.1 hBC
        have hk := (hcover d hd hdC).trans (Finset.card_filter_le ..)
        omega
    · by_cases hbC : b ∈ C
      · exact h.le a ha b hbC hbT
      · -- the candidates that cover `b` fill the selection
        have hfill := h.card_filter (p := fun x => v b ≤ x) fun h₁ h₂ => h₂.trans h₁
        rw [min_eq_left (hcover b hb hbC)] at hfill
        have heq : (T.filter fun c => v b ≤ v c) = T :=
          Finset.eq_of_subset_of_card_le (Finset.filter_subset ..) (by omega)
        rw [← heq] at ha
        exact (Finset.mem_filter.1 ha).2

end Greatest
