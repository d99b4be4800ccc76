import Mathlib

/-!
# Lexicographic order

Lists of one length are compared before what follows them, and the lists between one list and its extensions
start with it.
-/

namespace List
variable {α : Type} [LinearOrder α] {a b c d e k p : List α}

theorem append_lt_append_iff (h : a.length = b.length) : a ++ c < b ++ d ↔ a < b ∨ a = b ∧ c < d := by
  induction a generalizing b with
  | nil =>
    cases b with
    | nil => simp
    | cons y b => simp at h
  | cons x a ih =>
    cases b with
    | nil => simp at h
    | cons y b =>
      simp only [cons_append, cons_lt_cons_iff, ih (by simpa using h), cons.injEq]
      tauto

theorem isPrefix_of_between (h : p ≤ k) (h' : k < p ++ e) : p <+: k := by
  induction p generalizing k with
  | nil => exact nil_prefix
  | cons x p ih =>
    cases k with
    | nil => exact absurd h (not_le.2 (nil_lt_cons x p))
    | cons y k =>
      rw [← not_lt, cons_lt_cons_iff, not_or, not_and] at h
      rw [cons_append, cons_lt_cons_iff] at h'
      have hxy : y = x := le_antisymm (h'.elim le_of_lt fun h => h.1.le) (not_lt.1 h.1)
      subst hxy
      have hk : k < p ++ e := h'.elim (fun h => absurd h (lt_irrefl _)) And.right
      exact cons_prefix_cons.2 ⟨rfl, ih (not_lt.1 (h.2 rfl)) hk⟩

end List
