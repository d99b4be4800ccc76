import Mathlib

/-!
# The longest prefix of a list that occurs in another

A loop lengthens a prefix as long as it occurs. It ends at the longest one that does, unless the whole list
occurs: then it has no end.
-/

namespace List
variable {α β : Type} {p s : List α}

theorem take_infix_of_le (h : p.take k <:+: s) (hj : j ≤ k) : p.take j <:+: s :=
  ((List.take_prefix_take_left hj).isInfix).trans h

section
variable [DecidableEq α]

/-- The loop from the length `d` on, for at most `fuel` rounds. -/
def matchLoop (p s : List α) : Nat → Nat → Option Nat
  | 0, _ => none
  | fuel + 1, d => if p.take d <:+: s then matchLoop p s fuel (d + 1) else some (d - 1)

/-- The length of the longest prefix of `p` that occurs in `s`; none when the loop has no end. -/
def longestMatch (p s : List α) : Option Nat := matchLoop p s p.length 1

/-- The loop does not end when the whole list occurs, however many rounds it is given. -/
theorem matchLoop_of_occurs (h : p <:+: s) (fuel d : Nat) : matchLoop p s fuel d = none := by
  induction fuel generalizing d with
  | zero => rfl
  | succ fuel ih =>
    rw [matchLoop, if_pos ((List.take_prefix d p).isInfix.trans h)]
    exact ih (d + 1)

/-- The number of rounds allowed does not change where the loop ends. -/
theorem matchLoop_unique (h : matchLoop p s fuel d = some r) (h' : matchLoop p s fuel' d = some r') : r = r' := by
  induction fuel generalizing d fuel' with
  | zero => cases h
  | succ fuel ih =>
    cases fuel' with
    | zero => cases h'
    | succ fuel' =>
      rw [matchLoop] at h h'
      by_cases htake : p.take d <:+: s
      · rw [if_pos htake] at h h'
        exact ih h h'
      · rw [if_neg htake] at h h'
        exact Option.some.inj (h.symm.trans h')

theorem matchLoop_of_not_infix (h : ¬p <:+: s) (hd : 1 ≤ d) (hfuel : p.length < d + fuel)
    (hprev : p.take (d - 1) <:+: s) :
    ∃ r, matchLoop p s fuel d = some r ∧ ∀ k, k ≤ r ↔ p.take k <:+: s := by
  induction fuel generalizing d with
  | zero =>
    rw [List.take_of_length_le (by omega)] at hprev
    exact absurd hprev h
  | succ fuel ih =>
    rw [matchLoop]
    by_cases htake : p.take d <:+: s
    · rw [if_pos htake]
      exact ih (by omega) (by omega) htake
    · rw [if_neg htake]
      refine ⟨d - 1, rfl, fun k => ⟨take_infix_of_le hprev, fun hk => ?_⟩⟩
      by_contra hlt
      exact htake (take_infix_of_le hk (by omega))

/-- As many rounds as the list is long are enough for the loop to end, if it ends at all. -/
theorem longestMatch_eq_some_iff : longestMatch p s = some d ↔ ∃ fuel, matchLoop p s fuel 1 = some d := by
  refine ⟨fun h => ⟨_, h⟩, ?_⟩
  rintro ⟨fuel, h⟩
  have hs : ¬p <:+: s := fun hs => by
    rw [matchLoop_of_occurs hs] at h
    cases h
  obtain ⟨r, hr, -⟩ := matchLoop_of_not_infix hs le_rfl (show p.length < 1 + p.length by omega) (by simp)
  rw [longestMatch, hr]
  exact congrArg some (matchLoop_unique hr h)

theorem longestMatch_of_occurs (h : p <:+: s) : longestMatch p s = none := matchLoop_of_occurs h _ _

theorem longestMatch_of_not_infix (h : ¬p <:+: s) :
    ∃ r, longestMatch p s = some r ∧ ∀ k, k ≤ r ↔ p.take k <:+: s :=
  matchLoop_of_not_infix h le_rfl (by omega) (by simp)

end

/-! ## Lists of words of one length -/

variable {f : α → List β} {w : Nat}

theorem length_flatMap_const (h : ∀ a ∈ p, (f a).length = w) : (p.flatMap f).length = w * p.length := by
  induction p with
  | nil => rfl
  | cons a p ih =>
    rw [List.flatMap_cons, List.length_append, h a (by simp), ih fun a ha => h a (by simp [ha]), List.length_cons,
      Nat.mul_succ, Nat.add_comm]

theorem take_flatMap_const (h : ∀ a ∈ p, (f a).length = w) (k : Nat) :
    (p.flatMap f).take (w * k) = (p.take k).flatMap f := by
  induction p generalizing k with
  | nil => simp
  | cons a p ih =>
    cases k with
    | zero => simp
    | succ k =>
      have hlen : w * (k + 1) = (f a).length + w * k := by
        rw [h a (by simp), Nat.mul_succ, Nat.add_comm]
      rw [List.flatMap_cons, List.take_succ_cons, List.flatMap_cons, hlen, List.take_length_add_append,
        ih (fun a ha => h a (by simp [ha])) k]

theorem flatMap_inj_of_length (hp : ∀ a ∈ p, (f a).length = w) (hs : ∀ a ∈ s, (f a).length = w)
    (hw : 0 < w) (hf : ∀ a ∈ p, ∀ b ∈ s, f a = f b → a = b) (h : p.flatMap f = s.flatMap f) : p = s := by
  induction p generalizing s with
  | nil =>
    have hlen := congrArg List.length h
    rw [List.flatMap_nil, List.length_nil, length_flatMap_const hs] at hlen
    have hzero : s.length = 0 := by
      rcases Nat.mul_eq_zero.1 hlen.symm with h0 | h0
      · omega
      · exact h0
    exact (List.eq_nil_of_length_eq_zero hzero).symm
  | cons a p ih =>
    cases s with
    | nil =>
      have hlen := congrArg List.length h
      rw [List.flatMap_cons, List.length_append, hp a (by simp)] at hlen
      simp at hlen
      omega
    | cons b s =>
      rw [List.flatMap_cons, List.flatMap_cons] at h
      obtain ⟨hab, htail⟩ := List.append_inj h ((hp a (by simp)).trans (hs b (by simp)).symm)
      rw [hf a (by simp) b (by simp) hab, ih (fun a ha => hp a (by simp [ha])) (fun a ha => hs a (by simp [ha]))
        (fun a ha b hb => hf a (by simp [ha]) b (by simp [hb])) htail]

end List
