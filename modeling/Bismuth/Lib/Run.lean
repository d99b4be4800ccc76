import Mathlib

/-!
# Computations that keep their state when they raise

A computation reads and writes a state and may raise. What it wrote before it raised stays written,
so that both outcomes have a state to talk about.
-/

/-- A computation on a state `σ` that may raise. -/
def Run (ε σ α : Type) := σ → Except ε α × σ

namespace Run
variable {ε σ α β : Type}

protected def bind (x : Run ε σ α) (f : α → Run ε σ β) : Run ε σ β := fun s =>
  match x s with
  | (.ok a, s) => f a s
  | (.error e, s) => (.error e, s)

instance : Monad (Run ε σ) where
  pure a s := (.ok a, s)
  bind := Run.bind

def lift (x : Except ε α) : Run ε σ α := fun s => (x, s)

instance : MonadLift (Except ε) (Run ε σ) := ⟨lift⟩

def get : Run ε σ σ := fun s => (.ok s, s)

def modify (f : σ → σ) : Run ε σ Unit := fun s => (.ok (), f s)

/-! ## What a computation that returned went through -/

theorem bind_apply (x : Run ε σ α) (f : α → Run ε σ β) (s : σ) : (x >>= f) s =
    match x s with
    | (.ok a, s) => f a s
    | (.error e, s) => (.error e, s) := rfl

theorem pure_apply (a : α) (s : σ) : (pure a : Run ε σ α) s = (.ok a, s) := rfl

variable {x : Run ε σ α} {f : α → Run ε σ β}

theorem bind_eq_ok {s s'' : σ} {b : β} :
    (x >>= f) s = (.ok b, s'') ↔ ∃ a s', x s = (.ok a, s') ∧ f a s' = (.ok b, s'') := by
  rw [bind_apply]
  rcases x s with ⟨_ | a, s'⟩
  · simp
  · exact ⟨fun h => ⟨a, s', rfl, h⟩, fun ⟨_, _, h1, h2⟩ => by cases h1; exact h2⟩

theorem map_eq_ok {f : α → β} {s s' : σ} {b : β} : (f <$> x) s = (.ok b, s') ↔ ∃ a, x s = (.ok a, s') ∧ f a = b := by
  show (x >>= fun a => pure (f a)) s = _ ↔ _
  rw [bind_apply]
  rcases x s with ⟨_ | a, s₁⟩
  · simp
  · constructor
    · rintro h
      cases h
      exact ⟨a, rfl, rfl⟩
    · rintro ⟨_, h, rfl⟩
      cases h
      rfl

theorem lift_eq_ok {x : Except ε α} {s s' : σ} {a : α} :
    (lift x : Run ε σ α) s = (.ok a, s') ↔ x = .ok a ∧ s' = s := by
  simp [lift, Prod.ext_iff, eq_comm]

theorem get_eq_ok {s s' t : σ} : (get : Run ε σ σ) s = (.ok t, s') ↔ t = s ∧ s' = s := by
  simp [get, Prod.ext_iff, eq_comm]

theorem modify_eq_ok {f : σ → σ} {s s' : σ} {u : Unit} :
    (modify f : Run ε σ Unit) s = (.ok u, s') ↔ s' = f s := by
  simp [modify, Prod.ext_iff, eq_comm]

/-! ## Frames -/

/-- Whatever its outcome, the computation relates the state it leaves to the one it found. -/
def Frame (R : σ → σ → Prop) (x : Run ε σ α) : Prop := ∀ s, R s (x s).2

variable {R : σ → σ → Prop}

theorem Frame.lift (hR : ∀ s, R s s) (x : Except ε α) : Frame R (lift x) := hR

theorem Frame.get (hR : ∀ s, R s s) : Frame R (get : Run ε σ σ) := hR

theorem Frame.pure (hR : ∀ s, R s s) (a : α) : Frame R (pure a : Run ε σ α) := hR

theorem Frame.modify {f : σ → σ} (h : ∀ s, R s (f s)) : Frame R (modify f : Run ε σ Unit) := h

theorem Frame.bind (ht : ∀ a b c, R a b → R b c → R a c)
    (hx : Frame R x) (hf : ∀ a, Frame R (f a)) : Frame R (x >>= f) := by
  intro s
  have h := hx s
  rw [bind_apply]
  rcases hxs : x s with ⟨_ | a, s'⟩ <;> rw [hxs] at h
  · exact h
  · exact ht _ _ _ h (hf a s')

/-- A computation that raises relates the state it leaves to the one it found. -/
def Fails (R : σ → σ → Prop) (x : Run ε σ α) : Prop := ∀ s e s', x s = (.error e, s') → R s s'

theorem Fails.of_error {x : Run ε σ α} (hx : Fails R x) (h : x s = (.error e, s')) : R s s' := hx _ _ _ h

theorem Fails.modify (f : σ → σ) : Fails R (modify f : Run ε σ Unit) := fun _ _ _ h => by cases h

theorem Fails.bind (ht : ∀ a b c, R a b → R b c → R a c)
    (hx : Frame R x) (hf : ∀ a, Fails R (f a)) : Fails R (x >>= f) := by
  intro s e s' h
  rw [bind_apply] at h
  have hs := hx s
  rcases hxs : x s with ⟨_ | a, s₁⟩ <;> rw [hxs] at h hs
  · cases h
    exact hs
  · exact ht _ _ _ hs (hf a s₁ e s' h)

theorem eq_of_fst {x : Except ε α × σ} (h : x.1 = e) : x = (e, x.2) := Prod.ext h rfl

end Run
