import Mathlib

/-!
# Lists cut at a separator

A part that does not hold the separator ends where the separator first stands, so that a scan for such parts
sees where they end.
-/

namespace List
variable {α : Type u} {z : α} {a b r s : List α}

/-- The parts before the first separator agree, and so does what follows. -/
theorem prefix_sep_iff (ha : z ∉ a) (hb : z ∉ b) : a ++ z :: r <+: b ++ z :: s ↔ a = b ∧ r <+: s := by
  constructor
  · induction a generalizing b with
    | nil =>
      cases b with
      | nil => exact fun h => ⟨rfl, (cons_prefix_cons.1 h).2⟩
      | cons x b =>
        intro h
        obtain ⟨rfl, -⟩ := cons_prefix_cons.1 h
        exact absurd mem_cons_self hb
    | cons x a ih =>
      cases b with
      | nil =>
        intro h
        obtain ⟨rfl, -⟩ := cons_prefix_cons.1 h
        exact absurd mem_cons_self ha
      | cons y b =>
        intro h
        obtain ⟨rfl, h'⟩ := cons_prefix_cons.1 h
        obtain ⟨rfl, hr⟩ := ih (not_mem_of_not_mem_cons ha) (not_mem_of_not_mem_cons hb) h'
        exact ⟨rfl, hr⟩
  · rintro ⟨rfl, t, rfl⟩
    exact ⟨t, by simp⟩

theorem exists_sep_sep [DecidableEq α] {l : List α} (h : 2 ≤ l.count z) :
    ∃ a b c, l = a ++ z :: (b ++ z :: c) ∧ z ∉ a ∧ z ∉ b := by
  obtain ⟨a, l', rfl, ha⟩ := eq_append_cons_of_mem (count_pos_iff.1 (by omega : 0 < l.count z))
  rw [count_append, count_eq_zero.2 ha, count_cons_self] at h
  obtain ⟨b, c, rfl, hb⟩ := eq_append_cons_of_mem (count_pos_iff.1 (by omega : 0 < l'.count z))
  exact ⟨a, b, c, rfl, ha, hb⟩

/-- Two parts with a separator after each are found in the same way in a list with two separators, whatever
is appended to it. -/
theorem sep_sep_prefix_append [DecidableEq α] {l : List α} (ha : z ∉ a) (hb : z ∉ b)
    (h : 2 ≤ l.count z) : a ++ z :: (b ++ [z]) <+: l ++ s ↔ a ++ z :: (b ++ [z]) <+: l := by
  obtain ⟨a', b', c, rfl, ha', hb'⟩ := exists_sep_sep h
  rw [append_assoc, cons_append, append_assoc, cons_append, prefix_sep_iff ha ha',
    prefix_sep_iff hb hb', prefix_sep_iff ha ha', prefix_sep_iff hb hb']
  simp

/-- They are found in two such parts only if they are equal to them. -/
theorem sep_sep_prefix_iff {a' b' : List α} (ha : z ∉ a) (hb : z ∉ b) (ha' : z ∉ a') (hb' : z ∉ b') :
    a ++ z :: (b ++ [z]) <+: a' ++ z :: (b' ++ [z]) ↔ a = a' ∧ b = b' := by
  rw [prefix_sep_iff ha ha', prefix_sep_iff hb hb']
  simp

end List
