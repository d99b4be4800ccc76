import Bismuth.Lib.Lists

/-!
# Inverting a computation that may raise

A `do` block that returned tells what each of its steps returned.
-/

namespace Except

@[simp] theorem ok_bind (a : α) (f : α → Except ε β) : (Except.ok a >>= f) = f a := rfl

@[simp] theorem error_bind (e : ε) (f : α → Except ε β) :
    ((Except.error e : Except ε α) >>= f) = .error e := rfl

variable {f : α → Except ε β} {x : Except ε α}

theorem bind_eq_ok : x >>= f = .ok b ↔ ∃ a, x = .ok a ∧ f a = .ok b := by
  cases x <;> simp

theorem map_eq_ok {f : α → β} : f <$> x = .ok b ↔ ∃ a, x = .ok a ∧ f a = b := by
  cases x <;> simp [Functor.map, Except.map]

theorem bind_eq_error : x >>= f = .error e ↔ x = .error e ∨ ∃ a, x = .ok a ∧ f a = .error e := by
  cases x <;> simp

@[simp] theorem pure_eq_ok (a : α) : (pure a : Except ε α) = .ok a := rfl

@[simp] theorem throw_eq_error (e : ε) : (throw e : Except ε α) = .error e := rfl

theorem toOption_eq_some : x.toOption = some a ↔ x = .ok a := by
  cases x <;> simp [Except.toOption]

variable {l : List α}

theorem mapM_eq_ok : l.mapM f = .ok bs ↔ List.Forall₂ (fun a b => f a = .ok b) l bs := by
  induction l generalizing bs with
  | nil => simp [eq_comm]
  | cons a l ih =>
    simp only [List.mapM_cons, bind_eq_ok, ih, pure_eq_ok, Except.ok.injEq]
    constructor
    · rintro ⟨b, hb, bs, hbs, rfl⟩
      exact .cons hb hbs
    · rintro (_ | ⟨hb, hbs⟩)
      exact ⟨_, hb, _, hbs, rfl⟩

theorem exists_of_mem_mapM (h : l.mapM f = .ok bs) (hb : b ∈ bs) :
    ∃ a ∈ l, f a = .ok b := (mapM_eq_ok.1 h).exists_left hb

theorem exists_mem_of_mapM (h : l.mapM f = .ok bs) (ha : a ∈ l) :
    ∃ b ∈ bs, f a = .ok b := (mapM_eq_ok.1 h).exists_right ha

theorem exists_mapM_ok (h : ∀ a ∈ l, ∃ b, f a = .ok b) : ∃ bs, l.mapM f = .ok bs := by
  induction l with
  | nil => exact ⟨[], rfl⟩
  | cons a l ih =>
    obtain ⟨b, hb⟩ := h a (by simp)
    obtain ⟨bs, hbs⟩ := ih fun a ha => h a (by simp [ha])
    exact ⟨b :: bs, by simp [hb, hbs]⟩

/-- A step that succeeds on whatever is related to an entry. -/
theorem exists_mapM_of_forall₂ {R : α → β → Prop} {S : α → γ → Prop} {f : β → Except ε γ} {as : List α} {bs : List β}
    (h : List.Forall₂ R as bs) (hf : ∀ {a b}, R a b → ∃ c, f b = .ok c ∧ S a c) :
    ∃ cs, bs.mapM f = .ok cs ∧ List.Forall₂ S as cs := by
  induction h with
  | nil => exact ⟨[], rfl, .nil⟩
  | cons hab _ ih =>
    obtain ⟨c, hc, hac⟩ := hf hab
    obtain ⟨cs, hcs, hS⟩ := ih
    exact ⟨c :: cs, by simp [hc, hcs], .cons hac hS⟩

theorem mapM_filter {p : α → Bool} {q : β → Bool} (hpq : ∀ {a b}, f a = .ok b → p a = q b) (h : l.mapM f = .ok bs) :
    (l.filter p).mapM f = .ok (bs.filter q) := by
  rw [mapM_eq_ok] at h
  induction h with
  | nil => rfl
  | @cons a b l bs hab _ ih =>
    cases hp : p a with
    | true =>
      have hq : q b = true := hpq hab ▸ hp
      rw [List.filter_cons_of_pos hp, List.filter_cons_of_pos hq, List.mapM_cons, hab, ih]
      rfl
    | false =>
      have hq : ¬q b = true := by rw [← hpq hab, hp]; exact Bool.false_ne_true
      rwa [List.filter_cons_of_neg (by simp [hp]), List.filter_cons_of_neg hq]

theorem mapM_zipIdx_concat {g : α → Bool → Except ε β} {init : List α}
    (h : (init ++ [last]).zipIdx.mapM
      (fun p => g p.1 (decide (p.2 + 1 = (init ++ [last]).length))) = .ok bs) :
    ∃ ts t, bs = ts ++ [t] ∧ List.Forall₂ (fun a b => g a false = .ok b) init ts ∧
      g last true = .ok t := by
  have h := mapM_eq_ok.1 h
  rw [List.zipIdx_append] at h
  obtain ⟨ts, t, rfl, hi, hl⟩ := h.flip.exists_of_concat
  refine ⟨ts, t, rfl, ?_, by simpa using hl⟩
  rw [← List.zipIdx_map_fst 0 init, List.forall₂_map_left_iff]
  refine hi.flip.with_mem.imp ?_
  rintro ⟨a, i⟩ b ⟨hmem, -, hg⟩
  have hlt := (List.mem_zipIdx hmem).2.1
  simpa [show i ≠ init.length by omega] using hg

theorem foldlM_inv {f : α → γ → Except ε α} {I : α → Prop} {l : List γ}
    (hstep : ∀ {a c a'}, c ∈ l → I a → f a c = .ok a' → I a') (hI : I a) (h : l.foldlM f a = .ok a') : I a' := by
  induction l generalizing a with
  | nil =>
    cases h
    exact hI
  | cons c l ih =>
    obtain ⟨b, hb, h⟩ := bind_eq_ok.1 h
    exact ih (fun hc => hstep (List.mem_cons_of_mem _ hc)) (hstep List.mem_cons_self hI hb) h

/-! ## Two computations side by side -/

/-- Both raise, or both return and the results are related. -/
def Both (R : α → β → Prop) : Except ε α → Except ε β → Prop
  | .ok a, .ok b => R a b
  | .error _, .error _ => True
  | _, _ => False

namespace Both

theorem refl {R : α → α → Prop} (hR : ∀ a, R a a) (x : Except ε α) : Both R x x := by
  cases x with
  | ok a => exact hR a
  | error e => trivial

variable {y : Except ε β} {x : Except ε α}

theorem imp {R S : α → β → Prop} (h : Both R x y)
    (hRS : ∀ {a b}, x = .ok a → y = .ok b → R a b → S a b) : Both S x y := by
  cases x with
  | ok a =>
    cases y with
    | ok b => exact hRS rfl rfl h
    | error e => cases h
  | error e =>
    cases y with
    | ok b => cases h
    | error e' => trivial

variable {R : α → β → Prop}

theorem bind {S : γ → δ → Prop} {f : α → Except ε γ}
    {g : β → Except ε δ} (h : Both R x y) (hfg : ∀ {a b}, R a b → Both S (f a) (g b)) :
    Both S (x >>= f) (y >>= g) := by
  cases x with
  | ok a =>
    cases y with
    | ok b => exact hfg h
    | error e => cases h
  | error e =>
    cases y with
    | ok b => cases h
    | error e' => trivial

theorem foldlM {f : α → γ → Except ε α} {g : β → γ → Except ε β} {l : List γ}
    (hstep : ∀ {a b c}, c ∈ l → R a b → Both R (f a c) (g b c)) (h : R a b) : Both R (l.foldlM f a) (l.foldlM g b) := by
  induction l generalizing a b with
  | nil => exact h
  | cons c l ih =>
    rw [List.foldlM_cons, List.foldlM_cons]
    exact (hstep List.mem_cons_self h).bind fun h' => ih (fun hc => hstep (List.mem_cons_of_mem _ hc)) h'

theorem intro (hx : ∀ {a}, x = .ok a → ∃ b, y = .ok b ∧ R a b)
    (hy : ∀ {b}, y = .ok b → ∃ a, x = .ok a) : Both R x y := by
  cases x with
  | ok a =>
    obtain ⟨b, rfl, h⟩ := hx rfl
    exact h
  | error e =>
    cases y with
    | ok b =>
      obtain ⟨a, h⟩ := hy rfl
      cases h
    | error e' => trivial

theorem of_ok (h : Both R (.ok a) y) : ∃ b, y = .ok b ∧ R a b := by
  cases y with
  | ok b => exact ⟨b, rfl, h⟩
  | error e => cases h

theorem symm (h : Both R x y) : Both (fun b a => R a b) y x := by
  cases x <;> cases y <;> exact h

end Both

end Except
