import Bismuth.Lib.Except

/-!
# Encodings that can be read off the front of a list

Encoders that may raise, and whose output tells where it ends: from the front of a list it can be read
in one way only.
-/

/-- What is encoded at the front of a list is determined, up to `R`, and so is the rest of the list. -/
def SelfDelimiting (enc : α → Except ε (List β)) (R : α → α → Prop) : Prop :=
  ∀ {a a' b b' x y}, enc a = .ok b → enc a' = .ok b' → b ++ x = b' ++ y → R a a' ∧ x = y

namespace SelfDelimiting
variable {enc : α → Except ε (List β)} {R : α → α → Prop}

/-- An encoding of one length is read in one way if it is injective. -/
theorem of_length {w : Nat} (hlen : ∀ {a b}, enc a = .ok b → b.length = w)
    (hinj : ∀ {a a' b}, enc a = .ok b → enc a' = .ok b → R a a') : SelfDelimiting enc R := by
  intro a a' b b' x y h h' heq
  obtain ⟨rfl, rfl⟩ := List.append_inj heq ((hlen h).trans (hlen h').symm)
  exact ⟨hinj h h', rfl⟩

end SelfDelimiting

/-! ## Reading back -/

/-- `read` gives back what `enc` wrote for `a`, and what follows it. -/
def Recovers (enc : α → Except ε (List β)) (read : List β → Except ε (α × List β)) (a : α) : Prop :=
  ∃ b, enc a = .ok b ∧ ∀ s, read (b ++ s) = .ok (a, s)

def encodeAll (enc : α → Except ε (List β)) (l : List α) : Except ε (List β) := do
  return (← l.mapM enc).flatten

def readMany (read : List β → Except ε (α × List β)) : Nat → List β → Except ε (List α × List β)
  | 0, s => .ok ([], s)
  | n + 1, s => do
    let (a, s) ← read s
    let (as, s) ← readMany read n s
    return (a :: as, s)

variable {read : List β → Except ε (α × List β)}

theorem Recovers.all {enc : α → Except ε (List β)} {l : List α}
    (h : ∀ a ∈ l, Recovers enc read a) : Recovers (encodeAll enc) (readMany read l.length) l := by
  induction l with
  | nil => exact ⟨[], rfl, fun _ => rfl⟩
  | cons a l ih =>
    obtain ⟨b, hb, hread⟩ := h a (by simp)
    obtain ⟨bs, hbs, hreads⟩ := ih fun a ha => h a (by simp [ha])
    obtain ⟨bss, hbss, hflat⟩ := Except.bind_eq_ok.1 hbs
    cases hflat
    refine ⟨b ++ bss.flatten, by simp [encodeAll, hb, hbss], fun s => ?_⟩
    rw [List.length_cons, readMany, List.append_assoc, hread, Except.ok_bind]
    simp only [hreads, Except.ok_bind, Except.pure_eq_ok]

/-! ## Where reading stops -/

/-- Reading `n` values from `s` comes to read one of them at `t`. -/
def ReadsAt (read : List β → Except ε (α × List β)) (n : Nat) (s t : List β) : Prop :=
  ∃ k < n, ∃ as, readMany read k s = .ok (as, t)

theorem readMany_succ_eq_ok : readMany read (n + 1) s = .ok (as, t) ↔
      ∃ a s' as', read s = .ok (a, s') ∧ readMany read n s' = .ok (as', t) ∧ as = a :: as' := by
  rw [readMany, Except.bind_eq_ok]
  constructor
  · rintro ⟨⟨a, s'⟩, hread, h⟩
    obtain ⟨⟨as', t'⟩, hmany, h⟩ := Except.bind_eq_ok.1 h
    cases h
    exact ⟨a, s', as', hread, hmany, rfl⟩
  · rintro ⟨a, s', as', hread, hmany, rfl⟩
    exact ⟨(a, s'), hread, by simp [hmany]⟩

theorem readMany_eq_error : readMany read n s = .error e ↔ ∃ t, ReadsAt read n s t ∧ read t = .error e := by
  induction n generalizing s with
  | zero => simp [readMany, ReadsAt]
  | succ n ih =>
    have hrest (a : α) (s' : List β) : (do
        let (as, s) ← readMany read n s'
        return (a :: as, s)) = (.error e : Except ε (List α × List β)) ↔ readMany read n s' = .error e := by
      cases readMany read n s' <;> simp
    rw [readMany, Except.bind_eq_error]
    constructor
    · rintro (h | ⟨⟨a, s'⟩, hread, h⟩)
      · exact ⟨s, ⟨0, by omega, [], rfl⟩, h⟩
      · obtain ⟨t, ⟨k, hk, as, hmany⟩, ht⟩ := ih.1 ((hrest a s').1 h)
        exact ⟨t, ⟨k + 1, by omega, a :: as, readMany_succ_eq_ok.2 ⟨a, s', as, hread, hmany, rfl⟩⟩, ht⟩
    · rintro ⟨t, ⟨k, hk, as, hmany⟩, ht⟩
      cases k with
      | zero =>
        cases hmany
        exact .inl ht
      | succ k =>
        obtain ⟨a, s', as', hread, hmany, -⟩ := readMany_succ_eq_ok.1 hmany
        exact .inr ⟨(a, s'), hread, (hrest a s').2 (ih.2 ⟨t, ⟨k, by omega, as', hmany⟩, ht⟩)⟩

/-- Values that each take up room are no more than fit the list. -/
theorem readMany_length_le
    (hread : ∀ s a t, read s = .ok (a, t) → t.length < s.length) (h : readMany read n s = .ok (as, t)) :
    as.length + t.length ≤ s.length := by
  induction n generalizing s as with
  | zero =>
    cases h
    simp
  | succ n ih =>
    obtain ⟨a, s', as', hone, hmany, rfl⟩ := readMany_succ_eq_ok.1 h
    have hlt := hread s a s' hone
    have hle := ih hmany
    rw [List.length_cons]
    omega

/-! ## Values up to a mark -/
