import Mathlib

/-!
# Folds whose steps commute

Steps that commute up to an equivalence can be sorted by a predicate.
-/

namespace List
variable {f : β → α → β} {r : β → β → Prop}

theorem foldl_cons_comm (hr : Equivalence r) (hf : ∀ a s s', r s s' → r (f s a) (f s' a)) {l : List α}
    (hcomm : ∀ b ∈ l, ∀ s, r (f (f s a) b) (f (f s b) a)) (s : β) :
    r ((a :: l).foldl f s) (f (l.foldl f s) a) := by
  induction l generalizing s with
  | nil => exact hr.refl _
  | cons b l ih =>
    have hswap : r ((a :: b :: l).foldl f s) ((b :: a :: l).foldl f s) :=
      foldl_rel (hcomm b mem_cons_self s) fun c _ s s' h => hf c s s' h
    exact hr.trans hswap (ih (fun b hb => hcomm b (mem_cons_of_mem _ hb)) (f s b))

/-- The steps with a property first, when each of them commutes with the other steps before it. -/
theorem foldl_partition (hr : Equivalence r) (hf : ∀ a s s', r s s' → r (f s a) (f s' a)) (p : α → Bool)
    {l : List α} (hcomm : l.Pairwise fun a b => p a = false → p b = true → ∀ s, r (f (f s a) b) (f (f s b) a))
    (s : β) : r (l.foldl f s) ((l.filter p ++ l.filter (!p ·)).foldl f s) := by
  induction l generalizing s with
  | nil => exact hr.refl _
  | cons a l ih =>
    rw [pairwise_cons] at hcomm
    have hrest := ih hcomm.2 (f s a)
    cases hp : p a with
    | true =>
      rw [filter_cons_of_pos hp, filter_cons_of_neg (by simp [hp])]
      exact hrest
    | false =>
      rw [filter_cons_of_neg (by simp [hp]), filter_cons_of_pos (by simp [hp])]
      refine hr.trans hrest ?_
      rw [foldl_append, foldl_append, foldl_cons]
      refine foldl_rel ?_ fun c _ s s' h => hf c s s' h
      exact foldl_cons_comm hr hf (fun b hb => hcomm.1 b (mem_filter.1 hb).1 hp (mem_filter.1 hb).2) s

end List
