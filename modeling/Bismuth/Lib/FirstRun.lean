import Mathlib

/-!
# The first run

A list up to where it first has a given number of consecutive entries with a property.
-/

/-- The number of entries at the end that satisfy `p`. -/
def trailing (p : α → Bool) (l : List α) : ℕ := (l.reverse.takeWhile p).length

theorem trailing_concat (p : α → Bool) (l : List α) (a : α) :
    trailing p (l ++ [a]) = if p a then trailing p l + 1 else 0 := by
  rw [trailing, List.reverse_concat, List.takeWhile_cons]
  split <;> rfl

/-- A run of `k` entries that satisfy `p` ends after the first `n` entries. -/
def RunEnds (p : α → Bool) (k : ℕ) (l : List α) (n : ℕ) : Prop := n ≤ l.length ∧ k ≤ trailing p (l.take n)

/-- The list up to the end of the first run of `k`, where `r` entries of a run came before. -/
def upToRun (p : α → Bool) (k : ℕ) : (r : ℕ) → List α → List α
  | _, [] => []
  | r, a :: l => if k ≤ r then [] else a :: upToRun p k (if p a then r + 1 else 0) l

theorem upToRun_of_le {p : α → Bool} {k r : ℕ} (h : k ≤ r) (l : List α) : upToRun p k r l = [] := by
  cases l with
  | nil => rfl
  | cons a l => rw [upToRun, if_pos h]

/-- `n` is where the first run of `k` ends, or the length if there is none. -/
def IsFirstRun (p : α → Bool) (k : ℕ) (l : List α) (n : ℕ) : Prop :=
  (∀ m < n, ¬RunEnds p k l m) ∧ (RunEnds p k l n ∨ n = l.length)

/-- After some entries without such a run, with the last of them counted. -/
theorem exists_upToRun (p : α → Bool) (k : ℕ) (done l : List α) (h : ∀ m < done.length, ¬RunEnds p k (done ++ l) m) :
    ∃ n, done ++ upToRun p k (trailing p done) l = (done ++ l).take n ∧ IsFirstRun p k (done ++ l) n := by
  induction l generalizing done with
  | nil =>
    rw [upToRun, List.append_nil] at *
    exact ⟨done.length, (List.take_length ..).symm, h, .inr rfl⟩
  | cons a l ih =>
    have htake : (done ++ a :: l).take done.length = done := List.take_left
    by_cases hk : k ≤ trailing p done
    · refine ⟨done.length, by rw [upToRun, if_pos hk, htake, List.append_nil], h, .inl ⟨by simp, ?_⟩⟩
      rwa [htake]
    · have hnext : ∀ m < (done ++ [a]).length, ¬RunEnds p k ((done ++ [a]) ++ l) m := by
        intro m hm hends
        rw [List.append_assoc, List.singleton_append] at hends
        rw [List.length_append, List.length_singleton, Nat.lt_succ_iff_lt_or_eq] at hm
        obtain hm | rfl := hm
        · exact h m hm hends
        · have hle := hends.2
          rw [htake] at hle
          exact hk hle
      obtain ⟨n, heq, hfirst⟩ := ih (done ++ [a]) hnext
      rw [List.append_assoc, List.singleton_append, trailing_concat, List.append_assoc, List.singleton_append] at heq
      rw [List.append_assoc, List.singleton_append] at hfirst
      exact ⟨n, by rw [upToRun, if_neg hk, heq], hfirst⟩

theorem exists_isFirstRun (p : α → Bool) (k : ℕ) (l : List α) :
    ∃ n, upToRun p k 0 l = l.take n ∧ IsFirstRun p k l n := by
  obtain ⟨n, heq, hfirst⟩ := exists_upToRun p k [] l (by simp)
  exact ⟨n, heq, hfirst⟩
