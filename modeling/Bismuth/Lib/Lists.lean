import Mathlib

/-!
# Lists related entry by entry, and lists in order
-/

/-- A property of the members of a list is decided member by member, also over types with finitely many
values. -/
instance (priority := 2000) List.decidableForallMem (l : List α) (p : α → Prop) [DecidablePred p] :
    Decidable (∀ a ∈ l, p a) := List.decidableBAll p l

namespace List.Forall₂

variable {R : α → β → Prop}

theorem exists_right (h : Forall₂ R l l') (ha : a ∈ l) : ∃ b ∈ l', R a b := by
  induction h with
  | nil => simp at ha
  | cons h _ ih =>
    rcases mem_cons.1 ha with rfl | ha
    · exact ⟨_, by simp, h⟩
    · obtain ⟨b, hb, hr⟩ := ih ha
      exact ⟨b, by simp [hb], hr⟩

theorem exists_left (h : Forall₂ R l l') (hb : b ∈ l') : ∃ a ∈ l, R a b :=
  exists_right h.flip hb

theorem exists_of_forall {l : List α} (h : ∀ a ∈ l, ∃ b, R a b) : ∃ l', Forall₂ R l l' := by
  induction l with
  | nil => exact ⟨[], .nil⟩
  | cons a l ih =>
    obtain ⟨b, hb⟩ := h a (by simp)
    obtain ⟨l', hl'⟩ := ih fun a ha => h a (by simp [ha])
    exact ⟨b :: l', .cons hb hl'⟩

theorem map_eq {f : α → γ} {g : β → γ} (h : Forall₂ R l l')
    (hR : ∀ {a b}, R a b → f a = g b) : l.map f = l'.map g := by
  induction h with
  | nil => rfl
  | cons h _ ih => rw [map_cons, map_cons, hR h, ih]

theorem mapM_eq [Monad m] [LawfulMonad m] {f : α → m γ} {g : β → m γ} (h : Forall₂ R l l')
    (hR : ∀ {a b}, R a b → f a = g b) : l.mapM f = l'.mapM g := by
  induction h with
  | nil => rw [mapM_nil, mapM_nil]
  | cons h _ ih => rw [mapM_cons, mapM_cons, hR h, ih]

theorem append (h : Forall₂ R l l') (h' : Forall₂ R m m') : Forall₂ R (l ++ m) (l' ++ m') := by
  induction h with
  | nil => exact h'
  | cons h _ ih => exact .cons h ih

theorem comp {S : β → γ → Prop} {T : α → γ → Prop} (h : Forall₂ R l m)
    (h' : Forall₂ S m n) (hT : ∀ {a b c}, R a b → S b c → T a c) : Forall₂ T l n := by
  induction h generalizing n with
  | nil =>
    cases h'
    exact .nil
  | cons h _ ih =>
    obtain ⟨c, n, hc, hn, rfl⟩ := forall₂_cons_left_iff.1 h'
    exact .cons (hT h hc) (ih hn)

theorem with_mem (h : Forall₂ R l l') : Forall₂ (fun a b => a ∈ l ∧ b ∈ l' ∧ R a b) l l' := by
  induction h with
  | nil => exact .nil
  | cons hab _ ih =>
    refine .cons ⟨by simp, by simp, hab⟩ (ih.imp ?_)
    intro a b h
    exact ⟨by simp [h.1], by simp [h.2.1], h.2.2⟩

theorem and {R S : α → β → Prop} (h : Forall₂ R l l') (h' : Forall₂ S l l') :
    Forall₂ (fun a b => R a b ∧ S a b) l l' := by
  induction h with
  | nil => exact .nil
  | cons hab _ ih =>
    obtain ⟨hab', h'⟩ := forall₂_cons.1 h'
    exact .cons ⟨hab, hab'⟩ (ih h')

theorem exists_of_concat (h : Forall₂ R l (l' ++ [b])) : ∃ m a, l = m ++ [a] ∧ Forall₂ R m l' ∧ R a b := by
  induction l' generalizing l with
  | nil =>
    obtain ⟨a, m, hab, hm, rfl⟩ := forall₂_cons_right_iff.1 h
    cases hm
    exact ⟨[], a, rfl, .nil, hab⟩
  | cons b' l' ih =>
    obtain ⟨a, m, hab, hm, rfl⟩ := forall₂_cons_right_iff.1 h
    obtain ⟨m', a', rfl, h1, h2⟩ := ih hm
    exact ⟨a :: m', a', rfl, .cons hab h1, h2⟩

end List.Forall₂

variable {l : List α}

/-- A list in which what `p` takes comes first is that part and then the rest. -/
theorem List.filter_append_filter {p q : α → Bool} (hq : ∀ a, q a ↔ ¬p a)
    (h : l.Pairwise fun a b => p b → p a) : l.filter p ++ l.filter q = l := by
  induction l with
  | nil => rfl
  | cons a l ih =>
    obtain ⟨h1, h2⟩ := pairwise_cons.1 h
    by_cases ha : p a
    · rw [filter_cons_of_pos ha, filter_cons_of_neg fun h => (hq a).1 h ha, cons_append, ih h2]
    · have hnone : ∀ b ∈ a :: l, ¬p b := by
        rintro b (_ | ⟨_, hb⟩)
        · exact ha
        · exact fun hpb => ha (h1 b hb hpb)
      rw [filter_eq_nil_iff.2 hnone, filter_eq_self.2 fun b hb => (hq b).2 (hnone b hb), nil_append]

/-- A list in increasing order of `f` is its part below a bound and then the rest. -/
theorem List.filter_lt_append {f : α → Nat} (h : l.Pairwise fun a b => f a < f b)
    (n : Nat) : l.filter (f · < n) ++ l.filter (n ≤ f ·) = l :=
  filter_append_filter (fun a => by simp)
    (h.imp fun hlt hb => decide_eq_true (Nat.lt_trans hlt (of_decide_eq_true hb)))

/-- A list in steps of one takes every value between two of its own. -/
theorem List.IsChain.exists_eq {f : α → Nat}
    (h : (a :: l).IsChain fun x y => f y = f x + 1) (hb : b ∈ a :: l) (ha : f a ≤ n)
    (hn : n ≤ f b) : ∃ c ∈ a :: l, f c = n := by
  induction l generalizing a with
  | nil => exact ⟨a, by simp, by rw [mem_singleton.1 hb] at hn; omega⟩
  | cons a' l ih =>
    obtain ⟨h1, h2⟩ := isChain_cons_cons.1 h
    rcases Nat.eq_or_lt_of_le ha with ha | ha
    · exact ⟨a, by simp, ha⟩
    · rcases mem_cons.1 hb with rfl | hb
      · omega
      · obtain ⟨c, hc, hn⟩ := ih h2 hb (by omega)
        exact ⟨c, by simp [hc], hn⟩

namespace List

/-- The first `n` pieces of length `w`. -/
def chunks (w n : Nat) (l : List α) : List (List α) := (range n).map fun i => (l.drop (i * w)).take w

theorem chunks_zero (w : Nat) (l : List α) : chunks w 0 l = [] := rfl

theorem chunks_succ (w n : Nat) (l : List α) : chunks w (n + 1) l = l.take w :: chunks w n (l.drop w) := by
  simp only [chunks, range_succ_eq_map, map_cons, map_map, Nat.zero_mul, drop_zero, cons.injEq, true_and]
  refine map_congr_left fun i _ => ?_
  simp only [Function.comp_apply, drop_drop, Nat.succ_mul, Nat.add_comm]

@[simp] theorem length_chunks (w n : Nat) (l : List α) : (chunks w n l).length = n := by simp [chunks]

/-- A list of the right length is the concatenation of its pieces. -/
theorem flatten_chunks {l : List α} (h : l.length = w * n) : (chunks w n l).flatten = l := by
  induction n generalizing l with
  | zero => rw [chunks_zero, flatten_nil, eq_nil_of_length_eq_zero h]
  | succ n ih =>
    rw [chunks_succ, flatten_cons, ih (by rw [length_drop, h, Nat.mul_succ, Nat.add_sub_cancel]),
      take_append_drop]

theorem length_of_mem_chunks {l c : List α} (h : l.length = w * n) (hc : c ∈ chunks w n l) :
    c.length = w := by
  induction n generalizing l with
  | zero => simp [chunks_zero] at hc
  | succ n ih =>
    rw [Nat.mul_succ] at h
    rw [chunks_succ] at hc
    rcases mem_cons.1 hc with rfl | hc
    · rw [length_take]
      omega
    · exact ih (by rw [length_drop, h, Nat.add_sub_cancel]) hc

theorem chunks_flatten {ls : List (List α)} (h : ∀ l ∈ ls, l.length = w) :
    chunks w ls.length ls.flatten = ls := by
  induction ls with
  | nil => rfl
  | cons l ls ih =>
    have hl := h l mem_cons_self
    rw [length_cons, chunks_succ, flatten_cons, ← hl, take_left, drop_left, hl,
      ih fun l' hl' => h l' (mem_cons_of_mem _ hl')]

theorem length_flatten_of_forall {ls : List (List α)} (h : ∀ l ∈ ls, l.length = w) :
    ls.flatten.length = w * ls.length := by
  induction ls with
  | nil => simp
  | cons l ls ih =>
    rw [flatten_cons, length_append, h l mem_cons_self, ih fun l' hl' => h l' (mem_cons_of_mem _ hl'),
      length_cons, Nat.mul_succ, Nat.add_comm]

end List

theorem List.countP_set_add {i : Nat} {a : α} (h : l[i]? = some a) (b : α) (p : α → Bool) :
    (l.set i b).countP p + (if p a then 1 else 0) = l.countP p + if p b then 1 else 0 := by
  obtain ⟨hi, rfl⟩ := List.getElem?_eq_some_iff.1 h
  have hpos : p l[i] → 0 < l.countP p := fun hp => List.countP_pos_iff.2 ⟨_, List.getElem_mem hi, hp⟩
  rw [List.countP_set hi]
  split
  · rename_i hp
    have := hpos hp
    omega
  · omega
