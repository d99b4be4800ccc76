import Bismuth.Py.Value

/-!
# Formatted numbers read back

What `Decimal`, `float` and `int` make of the texts that formatting writes.
-/

namespace Py

/-- A character that formatting writes and every reader takes as it stands. -/
def isPlain (c : Char) : Bool := c.isDigit || c = '.' || c = '-'

theorem isPlain_of_isDigit {c : Char} (h : c.isDigit) : isPlain c := by simp [isPlain, h]

private theorem isPlain_toNat {c : Char} (h : isPlain c) : 45 ≤ c.toNat ∧ c.toNat ≤ 57 := by
  simp only [isPlain, Bool.or_eq_true, decide_eq_true_eq] at h
  rcases h with (h | rfl) | rfl
  · simp only [Char.isDigit, Bool.and_eq_true, decide_eq_true_eq, UInt32.le_iff_toNat_le] at h
    exact ⟨le_trans (by decide) h.1, h.2⟩
  · decide
  · decide

theorem isSpace_of_plain {c : Char} (h : isPlain c) : isSpace c = false := by
  have := isPlain_toNat h
  simp [isSpace]; omega

private theorem ne_underscore_of_plain {c : Char} (h : isPlain c) : c ≠ '_' := by
  rintro rfl; simp [isPlain] at h

variable {s : Text} {p : Char → Bool}

theorem stripWith_eq_self (h : ∀ c ∈ s, p c = false) : stripWith p s = s := by
  have h1 : s.dropWhile p = s := by
    cases s with
    | nil => rfl
    | cons c s => simp [List.dropWhile, h c (by simp)]
  rw [stripWith, h1, List.rdropWhile_eq_self_iff]
  intro hs
  simp [h _ (List.getLast_mem hs)]

theorem stripWith_eq_self_of_ends (hhead : ∀ c ∈ s.head?, p c = false)
    (hlast : ∀ c ∈ s.getLast?, p c = false) : stripWith p s = s := by
  have hdrop : s.dropWhile p = s := by
    cases s with
    | nil => rfl
    | cons c s => exact List.dropWhile_cons_of_neg (by simp [hhead c rfl])
  rw [stripWith, hdrop, List.rdropWhile_eq_self_iff]
  intro hs
  simp [hlast _ (List.getLast?_eq_some_getLast hs)]

theorem strip_plain (h : ∀ c ∈ s, isPlain c) : strip s = s :=
  stripWith_eq_self fun c hc => isSpace_of_plain (h c hc)

private theorem mapM_eq_self {f : Char → Option Char} (h : ∀ c ∈ s, f c = some c) : s.mapM f = some s := by
  induction s with
  | nil => rfl
  | cons c s ih =>
    rw [List.mapM_cons, h c (by simp), ih fun c hc => h c (List.mem_cons_of_mem _ hc)]
    rfl

theorem decimalAscii_plain (h : ∀ c ∈ s, isPlain c) : decimalAscii s = some s := by
  have h2 : s.filter (· ≠ '_') = s :=
    List.filter_eq_self.2 fun c hc => by simp [ne_underscore_of_plain (h c hc)]
  rw [decimalAscii, strip_plain h, h2]
  refine mapM_eq_self fun c hc => if_pos ?_
  have := isPlain_toNat (h c hc)
  omega

theorem floatAscii_plain (h : ∀ c ∈ s, isPlain c) : floatAscii s = some s := by
  have h1 : (s.mapM fun c =>
      if c.toNat < 127 then some c else if isSpace c then some ' ' else asciiDigit? c) = some s := by
    refine mapM_eq_self fun c hc => if_pos ?_
    have := isPlain_toNat (h c hc)
    omega
  rw [floatAscii, h1]
  refine congrArg some (stripWith_eq_self fun c hc => ?_)
  have := isPlain_toNat (h c hc)
  have hc : c ≠ ' ' := by rintro rfl; exact absurd this.1 (by decide)
  simp [hc]; omega

theorem dropUnderscores_plain (h : ∀ c ∈ s, isPlain c) (b : Bool) : dropUnderscores b s = some s := by
  induction s generalizing b with
  | nil => rfl
  | cons c s ih =>
    have hc := ne_underscore_of_plain (h c (by simp))
    rw [dropUnderscores.eq_4 _ _ _ (fun _ _ h _ => hc h) (fun h _ => hc h),
      ih fun c hc => h c (List.mem_cons_of_mem _ hc)]
    rfl

/-! ## The number itself -/

private theorem span_digits {d s : Text} (hd : ∀ c ∈ d, c.isDigit)
    (hs : ∀ c t, s = c :: t → c.isDigit = false) : (d ++ s).span Char.isDigit = (d, s) := by
  rw [List.span_eq_takeWhile_dropWhile, List.takeWhile_append_of_pos hd,
    List.dropWhile_append_of_pos hd]
  cases s with
  | nil => simp
  | cons c s => simp [List.takeWhile, List.dropWhile, hs c s rfl]

theorem signOf_digit (h : ∀ c ∈ s, c.isDigit) : signOf s = (false, s) := by
  match s with
  | [] => rfl
  | c :: s =>
    have hc := h c (by simp)
    have h1 : c ≠ '-' := by rintro rfl; simp at hc
    have h2 : c ≠ '+' := by rintro rfl; simp at hc
    simp [signOf, h1, h2]

theorem unsignedOf_natText (n : Nat) : unsignedOf (natText n) = some (n, 0) := by
  have h := span_digits (s := []) (fun c hc => isDigit_of_mem_natText (n := n) hc) (by simp)
  rw [List.append_nil] at h
  simp only [unsignedOf, h, fractionOf]
  simp [natText_ne_nil, exponentOf, digitsVal_natText]

/-- The text with `k` decimals that stands for `u / 10 ^ k`. -/
theorem unsignedOf_fixed (hk : 0 < k) (u : Nat) :
    unsignedOf (natText (u / 10 ^ k) ++ '.' :: zeroPad k (natText (u % 10 ^ k))) =
      some (u, -(k : Int)) := by
  have hlen : (natText (u % 10 ^ k)).length ≤ k :=
    (length_natText_le_iff hk).2 (Nat.mod_lt _ (by positivity))
  have h1 := span_digits (s := '.' :: zeroPad k (natText (u % 10 ^ k)))
    (fun c hc => isDigit_of_mem_natText (n := u / 10 ^ k) hc) (by rintro c t ⟨⟩; rfl)
  have h2 := span_digits (s := []) (d := zeroPad k (natText (u % 10 ^ k)))
    (fun c hc => isDigit_of_mem_zeroPad hc) (by simp)
  rw [List.append_nil] at h2
  simp only [unsignedOf, h1, fractionOf, h2, length_zeroPad hlen]
  rw [if_neg (by simp [natText_ne_nil]), digitsVal_append, digitsVal_zeroPad, length_zeroPad hlen,
    digitsVal_natText, digitsVal_natText, Nat.div_add_mod]
  simp [exponentOf]

theorem isPlain_of_mem_natText {n : Nat} (h : c ∈ natText n) : isPlain c :=
  isPlain_of_isDigit (isDigit_of_mem_natText h)

theorem isPlain_of_mem_fixedText (h : c ∈ fixedText neg k u) : isPlain c := by
  simp only [fixedText, List.mem_append, List.mem_cons] at h
  rcases h with h | h | rfl | h
  · cases neg <;> simp at h; subst h; rfl
  · exact isPlain_of_mem_natText h
  · rfl
  · exact isPlain_of_isDigit (isDigit_of_mem_zeroPad h)

theorem signOf_fixedText (neg : Bool) (k u : Nat) : signOf (fixedText neg k u) =
    (neg, natText (u / 10 ^ k) ++ '.' :: zeroPad k (natText (u % 10 ^ k))) := by
  cases neg with
  | true => rfl
  | false =>
    have h : ∀ c ∈ natText (u / 10 ^ k), c.isDigit := fun c hc => isDigit_of_mem_natText hc
    have hne := natText_ne_nil (u / 10 ^ k)
    simp only [fixedText]
    obtain ⟨c, s, hcs⟩ := List.exists_cons_of_ne_nil hne
    rw [hcs] at h ⊢
    have hc := h c (by simp)
    have h1 : c ≠ '-' := by rintro rfl; simp at hc
    have h2 : c ≠ '+' := by rintro rfl; simp at hc
    simp [signOf, h1, h2]

theorem decimalFits_of_lt {c k : Nat} (hc : c < 10 ^ 100) (hk : k ≤ 100) :
    decimalFits c (-(k : Int)) = true := by
  have := (length_natText_le_iff (by decide)).2 hc
  simp only [decimalFits, Bool.and_eq_true, decide_eq_true_eq]
  omega

/-- The value that a text with `k` decimals stands for. -/
def fixedVal (neg : Bool) (k u : Nat) : ℚ := (if neg then -1 else 1) * (u / 10 ^ k)

theorem scaled_neg_exp (neg : Bool) (u k : Nat) : scaled neg u (-(k : Int)) = fixedVal neg k u := by
  simp [scaled, fixedVal, div_eq_mul_inv]

theorem decimal_fixedText (neg : Bool) (hk : 0 < k) (hk' : k ≤ 100) {u : Nat} (hu : u < 10 ^ 100) :
    (decimal (fixedText neg k u) : Except (Exc ρ) Number) = .ok (.fin (fixedVal neg k u) neg) := by
  simp only [decimal, decimalAscii_plain fun c hc => isPlain_of_mem_fixedText hc, signOf_fixedText,
    unsignedOf_fixed hk, decimalFits_of_lt hu hk', scaled_neg_exp, if_true]

/-- The exponent of a double stays far from the overflow for values below `2 ^ 200`. -/
theorem log_round_lt {q : ℚ} (h : |q| < 2 ^ 200) : Int.log 2 |binary64.round q| < 1024 := by
  rcases eq_or_ne q 0 with rfl | h0
  · simp
  rcases eq_or_ne (binary64.round q) 0 with hr | hr
  · simp [hr]
  have hulp : binary64.ulpExp q ≤ 147 :=
    binary64.ulpExp_le h0 (by simpa [binary64] using h) (by decide)
  have hle : ((2 : ℕ) : ℚ) ^ binary64.ulpExp q ≤ ((2 : ℕ) : ℚ) ^ (147 : ℤ) :=
    zpow_le_zpow_right₀ (by norm_num) hulp
  have hsub := binary64.abs_round_sub_le q
  have hlt : |binary64.round q| < ((2 : ℕ) : ℚ) ^ (201 : ℤ) := by
    have h1 : |binary64.round q| ≤ |binary64.round q - q| + |q| := by
      have := abs_add_le (binary64.round q - q) q
      rwa [sub_add_cancel] at this
    have h2 : ((2 : ℕ) : ℚ) ^ (147 : ℤ) = 2 ^ 147 := by norm_cast
    have h3 : ((2 : ℕ) : ℚ) ^ (201 : ℤ) = 2 * 2 ^ 200 := by norm_cast
    have h4 : (2 : ℚ) ^ 147 ≤ 2 ^ 200 := pow_le_pow_right₀ (by norm_num) (by norm_num)
    have h5 : (binary64.base : ℚ) ^ binary64.ulpExp q ≤ 2 ^ 147 := h2 ▸ hle
    have h6 : (0 : ℚ) < 2 ^ 200 := by positivity
    rw [h3]
    linarith
  have := (Int.lt_zpow_iff_log_lt (by decide) (abs_pos.2 hr)).1 hlt
  omega

theorem float_fixedText (neg : Bool) (hk : 0 < k) (u : Nat) :
    (float (fixedText neg k u) : Except (Exc ρ) Number) = .ok (toDouble (fixedVal neg k u) neg) := by
  have h : ∀ c ∈ fixedText neg k u, isPlain c := fun c hc => isPlain_of_mem_fixedText hc
  simp only [float, floatAscii_plain h, Option.bind_eq_bind, Option.bind_some,
    dropUnderscores_plain h, signOf_fixedText, unsignedOf_fixed hk, scaled_neg_exp]

theorem decimal_natText {n : Nat} (hn : n < 10 ^ 100) :
    (decimal (natText n) : Except (Exc ρ) Number) = .ok (.ofRat n) := by
  have hfits := decimalFits_of_lt hn (k := 0) (by omega)
  simp only [decimal, decimalAscii_plain fun c hc => isPlain_of_mem_natText hc,
    signOf_digit fun c hc => isDigit_of_mem_natText hc, unsignedOf_natText]
  rw [Nat.cast_zero, neg_zero] at hfits
  simp [hfits, scaled, Number.ofRat]

theorem float_natText (n : Nat) :
    (float (natText n) : Except (Exc ρ) Number) = .ok (toDouble n false) := by
  have h : ∀ c ∈ natText n, isPlain c := fun c hc => isPlain_of_mem_natText hc
  simp only [float, floatAscii_plain h, Option.bind_eq_bind, Option.bind_some,
    dropUnderscores_plain h, signOf_digit fun c hc => isDigit_of_mem_natText hc, unsignedOf_natText]
  simp [scaled]

theorem int_natText (n : Nat) : (int (natText n) : Except (Exc ρ) Int) = .ok n := by
  have h : ∀ c ∈ natText n, isPlain c := fun c hc => isPlain_of_mem_natText hc
  have hd : (natText n).all Char.isDigit :=
    List.all_eq_true.2 fun c hc => isDigit_of_mem_natText hc
  simp only [int, floatAscii_plain h, Option.bind_eq_bind, Option.bind_some,
    dropUnderscores_plain h, signOf_digit fun c hc => isDigit_of_mem_natText hc]
  rw [if_pos ⟨natText_ne_nil n, hd⟩, digitsVal_natText]
  rfl

theorem isPlain_of_mem_intText {n : Int} (h : c ∈ intText n) : isPlain c := by
  cases n with
  | ofNat n => exact isPlain_of_mem_natText h
  | negSucc n =>
    rw [intText, List.mem_cons] at h
    obtain rfl | h := h
    · decide
    · exact isPlain_of_mem_natText h

theorem int_intText (n : Int) : (int (intText n) : Except (Exc ρ) Int) = .ok n := by
  cases n with
  | ofNat n => exact int_natText n
  | negSucc n =>
    have h : ∀ c ∈ '-' :: natText (n + 1), isPlain c := fun c hc => isPlain_of_mem_intText (n := .negSucc n) hc
    have hd : (natText (n + 1)).all Char.isDigit :=
      List.all_eq_true.2 fun c hc => isDigit_of_mem_natText hc
    simp only [intText, int, floatAscii_plain h, Option.bind_eq_bind, Option.bind_some, dropUnderscores_plain h, signOf]
    rw [if_pos ⟨natText_ne_nil _, hd⟩, digitsVal_natText, if_pos trivial]
    rfl

/-! ## Signs -/

theorem stripWith_cons (h : p c = false) (s : Text) : stripWith p (c :: s) = c :: s.rdropWhile p := by
  rw [stripWith, List.dropWhile_cons_of_neg (by simp [h]), List.rdropWhile, List.rdropWhile, List.reverse_cons,
    List.dropWhile_append]
  split
  · rename_i he
    rw [List.isEmpty_iff.1 he]
    simp [h]
  · simp

/-- A text that starts with a digit or a point reads as no negative number. -/
theorem decimal_nonneg (hc : c.isDigit ∨ c = '.')
    (h : decimal (c :: s) = (.ok (.fin q z) : Except (Exc ρ) Number)) : 0 ≤ q := by
  have hplain : isPlain c := by
    rcases hc with hc | rfl
    · exact isPlain_of_isDigit hc
    · decide
  have hc' : c.toNat < 128 ∧ c ≠ '_' ∧ c ≠ '-' ∧ c ≠ '+' := by
    rcases hc with hc | rfl
    · rw [Char.isDigit_iff_toNat] at hc
      refine ⟨lt_of_le_of_lt hc.2 (by decide), ?_, ?_, ?_⟩ <;> rintro rfl <;> simp at hc
    · decide
  obtain ⟨h1, h2, h3, h4⟩ := hc'
  simp only [decimal, decimalAscii, strip, stripWith_cons (isSpace_of_plain hplain),
    List.filter_cons_of_pos (p := (· ≠ '_')) (by simpa using h2), List.mapM_cons, if_pos h1] at h
  cases hm : List.mapM (m := Option) (fun c => if c.toNat < 128 then some c else asciiDigit? c)
      ((s.rdropWhile isSpace).filter (· ≠ '_')) with
  | none =>
    rw [hm] at h
    cases h
  | some t =>
    have hs : signOf (c :: t) = (false, c :: t) := by
      rw [signOf.eq_def]
      split <;> simp_all
    simp only [hm, Option.bind_eq_bind, Option.bind_some, Option.pure_def, hs] at h
    split at h
    · rename_i m e _
      split at h
      · cases h
        simp only [scaled, Bool.false_eq_true, if_false, one_mul]
        exact mul_nonneg (Nat.cast_nonneg _) (zpow_nonneg (by norm_num) _)
      · cases h
    · split at h
      · rename_i x hx
        cases h
        simp only [decimalSpecial] at hx
        split at hx
        · cases hx
        · split at hx
          · cases hx
          · split at hx <;> cases hx
      · cases h
end Py
