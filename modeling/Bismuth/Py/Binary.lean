import Bismuth.Py.Text

/-!
# Binary numerals

The texts of zeros and ones that `bin`, `zfill` and `int(s, 2)` write and read, and their slices.
-/

namespace Py

/-- `bin(n)[2:].zfill(k)`. -/
def binText (k n : Nat) : Text := zeroPad k (Nat.toDigits 2 n)

/-- `int(s, 2)` of a text of zeros and ones. -/
def binVal (s : Text) : Nat := Nat.ofDigitChars 2 s 0

/-- A text of zeros and ones. -/
def IsBinary (s : Text) : Prop := ∀ c ∈ s, c = '0' ∨ c = '1'

theorem IsBinary.of_append_left (h : IsBinary (s ++ t)) : IsBinary s := fun c hc => h c (List.mem_append_left t hc)

theorem binVal_concat (s : Text) (c : Char) : binVal (s ++ [c]) = 2 * binVal s + (c.toNat - '0'.toNat) := by
  rw [binVal, Nat.ofDigitChars_append]
  rfl

theorem IsBinary.binVal_lt (h : IsBinary s) : binVal s < 2 ^ s.length := by
  induction s using List.reverseRecOn with
  | nil => decide
  | append_singleton s c ih =>
    have hs := ih h.of_append_left
    rw [binVal_concat, List.length_append, List.length_singleton, pow_succ]
    obtain rfl | rfl := h c (by simp)
    · rw [Nat.sub_self]
      omega
    · rw [show '1'.toNat - '0'.toNat = 1 from rfl]
      omega

/-- A text of zeros and ones is determined by its length and its value. -/
theorem IsBinary.eq_of_binVal_eq (hs : IsBinary s) (ht : IsBinary t) (hlen : s.length = t.length)
    (hval : binVal s = binVal t) : s = t := by
  induction s using List.reverseRecOn generalizing t with
  | nil => exact (List.length_eq_zero_iff.1 hlen.symm).symm
  | append_singleton s c ih =>
    obtain rfl | ⟨t, d, rfl⟩ := List.eq_nil_or_concat' t
    · simp at hlen
    · rw [binVal_concat, binVal_concat] at hval
      have hbit : ∀ {c : Char}, c = '0' ∨ c = '1' →
          c.toNat - '0'.toNat < 2 ∧ c = Char.ofNat (48 + (c.toNat - '0'.toNat)) := by
        rintro c (rfl | rfl) <;> decide
      obtain ⟨hc, hc'⟩ := hbit (hs c (by simp))
      obtain ⟨hd, hd'⟩ := hbit (ht d (by simp))
      rw [ih hs.of_append_left ht.of_append_left (by simpa using hlen) (by omega), hc', hd',
        show c.toNat - '0'.toNat = d.toNat - '0'.toNat by omega]

theorem isBinary_toDigits (n : Nat) : IsBinary (Nat.toDigits 2 n) := by
  have hdigit : ∀ k < 2, k.digitChar = '0' ∨ k.digitChar = '1' := by decide
  induction n using Nat.strongRecOn with
  | ind n ih =>
    rw [Nat.toDigits_eq_if (by decide)]
    split
    · rename_i hn
      intro c hc
      rw [List.mem_singleton.1 hc]
      exact hdigit n hn
    · intro c hc
      obtain hc | hc := List.mem_append.1 hc
      · exact ih (n / 2) (by omega) c hc
      · rw [List.mem_singleton.1 hc]
        exact hdigit _ (Nat.mod_lt _ (by decide))

theorem isBinary_binText (k n : Nat) : IsBinary (binText k n) := by
  intro c hc
  obtain hc | hc := List.mem_append.1 hc
  · exact .inl (List.eq_of_mem_replicate hc)
  · exact isBinary_toDigits n c hc

theorem length_binText (hk : 0 < k) (h : n < 2 ^ k) : (binText k n).length = k :=
  length_zeroPad ((Nat.length_toDigits_le_iff (by decide) hk).2 h)

theorem binVal_binText (k n : Nat) : binVal (binText k n) = n := by
  have hzeros : ∀ m, binVal (List.replicate m '0') = 0 := by
    intro m
    induction m with
    | zero => rfl
    | succ m ih => rw [List.replicate_succ', binVal_concat, ih, Nat.sub_self]
  have h := hzeros (k - (Nat.toDigits 2 n).length)
  rw [binVal] at h
  rw [binVal, binText, zeroPad, Nat.ofDigitChars_append, h]
  exact Nat.ofDigitChars_toDigits (by decide) (by decide)

theorem IsBinary.binText_binVal (h : IsBinary s) (hk : 0 < s.length) : binText s.length (binVal s) = s :=
  (isBinary_binText _ _).eq_of_binVal_eq h (length_binText hk h.binVal_lt) (binVal_binText _ _)

/-! ## Slices -/

/-- `[s[i:i + k] for i in range(0, len(s), k)]`. -/
def slices (k : Nat) (s : List α) : List (List α) :=
  (List.range ((s.length + k - 1) / k)).map fun i => (s.drop (k * i)).take k

theorem slices_append {piece : List α} (hk : 0 < k) (h : piece.length = k) (s : List α) :
    slices k (piece ++ s) = piece :: slices k s := by
  have hcount : ((piece ++ s).length + k - 1) / k = (s.length + k - 1) / k + 1 := by
    rw [List.length_append, h, show k + s.length + k - 1 = s.length + k - 1 + k by omega, Nat.add_div_right _ hk]
  rw [slices, slices, hcount, List.range_succ_eq_map, List.map_cons, List.map_map, Nat.mul_zero, List.drop_zero,
    List.take_left' h]
  congr 1
  apply List.map_congr_left
  intro i _
  rw [Function.comp_apply, Nat.mul_succ, Nat.add_comm, ← List.drop_drop, List.drop_left' h]

theorem slices_flatten {pieces : List (List α)} (hk : 0 < k) (h : ∀ p ∈ pieces, p.length = k) :
    slices k pieces.flatten = pieces := by
  induction pieces with
  | nil =>
    have hzero : (0 + k - 1) / k = 0 := Nat.div_eq_of_lt (by omega)
    rw [slices, List.flatten_nil, List.length_nil, hzero]
    rfl
  | cons p pieces ih =>
    rw [List.flatten_cons, slices_append hk (h p List.mem_cons_self), ih fun p hp => h p (List.mem_cons_of_mem _ hp)]

/-- A list whose length is a multiple of `k` is made of pieces of that length. -/
theorem exists_pieces {s : List α} (h : s.length = k * m) :
    ∃ pieces : List (List α), pieces.flatten = s ∧ pieces.length = m ∧ ∀ p ∈ pieces, p.length = k := by
  induction m generalizing s with
  | zero =>
    obtain rfl := List.length_eq_zero_iff.1 h
    exact ⟨[], rfl, rfl, by simp⟩
  | succ m ih =>
    rw [Nat.mul_succ] at h
    obtain ⟨pieces, hflat, hlen, hpieces⟩ := ih (s := s.drop k) (by rw [List.length_drop]; omega)
    refine ⟨s.take k :: pieces, by rw [List.flatten_cons, hflat, List.take_append_drop], by simp [hlen], ?_⟩
    intro p hp
    obtain rfl | hp := List.mem_cons.1 hp
    · rw [List.length_take]
      omega
    · exact hpieces p hp

end Py
