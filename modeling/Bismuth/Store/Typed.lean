import Bismuth.Store.Stored

/-!
# Typed columns

What a reader gets for the texts of the number columns: `numeric` of a natural number and of a text with
a fixed number of decimals.
-/

namespace Bismuth
open Py

theorem isSome_asciiDigit? (h : c.isDigit) : (asciiDigit? c).isSome := by
  rw [Char.isDigit_iff_toNat] at h
  have hfind : digitZeros.find? (fun z => z ≤ c.toNat && c.toNat < z + 10) = some 0x30 := by
    rw [digitZeros, List.find?_cons_of_pos]
    simp only [Bool.and_eq_true, decide_eq_true_eq]
    exact ⟨h.1, lt_of_le_of_lt h.2 (by decide)⟩
  rw [asciiDigit?, hfind]
  rfl

theorem isDigits_of_isDigit {s : Text} (hne : s ≠ []) (h : ∀ c ∈ s, c.isDigit) : isDigits s = true := by
  simp only [isDigits, Bool.and_eq_true, decide_eq_true_eq, List.all_eq_true]
  exact ⟨by simpa using hne, fun c hc => isSome_asciiDigit? (h c hc)⟩

theorem dropSign_of_isDigit {s t : Text} (hne : s ≠ []) (h : ∀ c ∈ s, c.isDigit) :
    dropSign (s ++ t) = s ++ t := by
  obtain ⟨c, s, rfl⟩ := List.exists_cons_of_ne_nil hne
  have hc := h c (by simp)
  rw [List.cons_append, dropSign.eq_def]
  split <;> simp_all

theorem matchesInt_natText (n : Nat) : matchesInt (natText n) = true := by
  have h : ∀ c ∈ natText n, c.isDigit := fun c hc => isDigit_of_mem_natText hc
  have hd := dropSign_of_isDigit (t := []) (natText_ne_nil n) h
  rw [List.append_nil] at hd
  rw [matchesInt, strip_plain fun c hc => isPlain_of_mem_natText hc, hd]
  exact isDigits_of_isDigit (natText_ne_nil n) h

theorem dropSign_fixedText (neg : Bool) (k u : Nat) : dropSign (fixedText neg k u) =
    natText (u / 10 ^ k) ++ '.' :: zeroPad k (natText (u % 10 ^ k)) := by
  cases neg with
  | true => rfl
  | false =>
    rw [fixedText, if_neg Bool.false_ne_true, List.nil_append]
    exact dropSign_of_isDigit (natText_ne_nil _) fun c hc => isDigit_of_mem_natText hc

theorem span_of_forall {p : Char → Bool} {s : Text} (h : ∀ c ∈ s, p c = true) (t : Text)
    (ht : ∀ c t', t = c :: t' → p c = false) : (s ++ t).span p = (s, t) := by
  rw [List.span_eq_takeWhile_dropWhile, List.takeWhile_append_of_pos h, List.dropWhile_append_of_pos h]
  cases t with
  | nil => simp
  | cons c t => simp [List.takeWhile, List.dropWhile, ht c t rfl]

theorem matchesNum_fixedText (neg : Bool) (hk : 0 < k) (u : Nat) :
    matchesNum (fixedText neg k u) = true := by
  have hlen : (natText (u % 10 ^ k)).length ≤ k :=
    (length_natText_le_iff hk).2 (Nat.mod_lt _ (by positivity))
  have hip : ∀ c ∈ natText (u / 10 ^ k), c.isDigit := fun c hc => isDigit_of_mem_natText hc
  have hfp : ∀ c ∈ zeroPad k (natText (u % 10 ^ k)), c.isDigit := fun c hc => isDigit_of_mem_zeroPad hc
  have hfp0 : zeroPad k (natText (u % 10 ^ k)) ≠ [] := by
    rw [← List.length_pos_iff, length_zeroPad hlen]
    exact hk
  have hdigit : ∀ {c : Char}, c.isDigit → c ≠ 'e' ∧ c ≠ 'E' ∧ c ≠ '.' := by
    intro c hc
    refine ⟨?_, ?_, ?_⟩ <;> rintro rfl <;> simp at hc
  have h1 := span_of_forall (p := fun c => c ≠ 'e' && c ≠ 'E')
    (s := natText (u / 10 ^ k) ++ '.' :: zeroPad k (natText (u % 10 ^ k))) (fun c hc => by
      rcases List.mem_append.1 hc with hc | hc
      · simp [hdigit (hip c hc)]
      · rcases List.mem_cons.1 hc with rfl | hc
        · decide
        · simp [hdigit (hfp c hc)]) [] (by simp)
  have h2 := span_of_forall (p := fun c => c ≠ '.') (s := natText (u / 10 ^ k))
    (fun c hc => by simp [hdigit (hip c hc)]) ('.' :: zeroPad k (natText (u % 10 ^ k)))
    (by rintro c t ⟨⟩; simp)
  rw [List.append_nil] at h1
  rw [matchesNum, strip_plain fun c hc => isPlain_of_mem_fixedText hc, dropSign_fixedText]
  simp only [h1, h2, isDigits_of_isDigit (natText_ne_nil _) hip, isDigits_of_isDigit hfp0 hfp]
  simp

/-- What `numeric` makes of a float. -/
def typedFloat : Number → Val
  | .fin q z => if q.den = 1 && fitsI64 q then .int q.num else .float (.fin q z)
  | x => .float x

theorem numeric_fixedText_eq (neg : Bool) (hk : 0 < k) (u : Nat) :
    numeric (fixedText neg k u) = .ok (typedFloat (toDouble (fixedVal neg k u) neg)) := by
  rw [numeric, matchesInt_fixedText, matchesNum_fixedText neg hk, float_fixedText neg hk]
  simp only [Bool.false_eq_true, if_false, if_true, Except.ok_bind]
  cases toDouble (fixedVal neg k u) neg <;> rfl

theorem numeric_natText_eq (n : Nat) : numeric (natText n) =
    if fitsI64 (n : ℚ) then .ok (.int n) else Val.float <$> (Val.int n).toFloat := by
  rw [numeric, matchesInt_natText, int_natText]
  simp only [if_true, Except.ok_bind, Int.cast_natCast]
  split
  · rfl
  · cases (Val.int n).toFloat <;> rfl

/-! ## Signs -/

def NonnegVal : Val → Prop
  | .int n => 0 ≤ n
  | .float (.fin q _) => 0 < q
  | _ => False

theorem toDouble_of_lt {q : ℚ} (h : |q| < 2 ^ 200) (z : Bool) :
    toDouble q z = .fin (binary64.round q) (isNeg q z) := by
  rw [toDouble]
  exact if_neg (not_le.2 (log_round_lt h))

theorem typedFloat_nonneg (h : 0 ≤ q) : NonnegVal (typedFloat (.fin q z)) := by
  rw [typedFloat]
  split
  · exact Rat.num_nonneg.2 h
  · rename_i hq
    refine lt_of_le_of_ne h fun h0 => hq ?_
    rw [← h0]
    decide

theorem MoneyText.numeric_nonneg (hs : MoneyText mode s u) (h : Bismuth.numeric s = .ok v) :
    NonnegVal v := by
  have hnat : ∀ n : Nat, n < 10 ^ 28 → Bismuth.numeric (natText n) = .ok v → NonnegVal v := by
    intro n hn h
    rw [numeric_natText_eq] at h
    split at h
    · cases h
      exact Int.natCast_nonneg n
    · rename_i hbig
      have hlt : |(n : ℚ)| < 2 ^ 200 := by
        have : (n : ℚ) < 10 ^ 28 := by exact_mod_cast hn
        rw [abs_of_nonneg (by positivity)]
        exact this.trans (by norm_num)
      have hone : (1 : ℚ) ≤ n := by
        have : n ≠ 0 := by
          rintro rfl
          exact hbig (by decide)
        exact_mod_cast Nat.one_le_iff_ne_zero.2 this
      rw [Val.toFloat, show (((n : Int) : ℚ)) = n by simp, toDouble_of_lt hlt] at h
      cases h
      have := binary64.zpow_le_round (x := (n : ℚ)) (k := 0) (by simpa using hone) (by decide)
      exact lt_of_lt_of_le (by norm_num) this
  have hfix : ∀ neg, (neg = true → u = 0) → u < 10 ^ 28 →
      Bismuth.numeric (fixedText neg 8 u) = .ok v → NonnegVal v := by
    intro neg hneg hu h
    have hval := fixedVal_eight hneg
    have hlt : |fixedVal neg 8 u| < 2 ^ 200 := by
      have : (u : ℚ) < 10 ^ 28 := by exact_mod_cast hu
      rw [hval, bis, abs_of_nonneg (by positivity), div_lt_iff₀ (by norm_num)]
      exact this.trans (by norm_num)
    rw [numeric_fixedText_eq neg (by decide), toDouble_of_lt hlt] at h
    cases h
    refine typedFloat_nonneg (binary64.round_nonneg ?_)
    rw [hval, bis]
    positivity
  cases mode with
  | integer =>
    obtain ⟨hu, rfl⟩ := hs
    exact hnat u hu h
  | decimal =>
    obtain ⟨hu, ⟨neg, hneg, rfl⟩ | ⟨n, rfl, rfl⟩⟩ := hs
    · exact hfix neg hneg hu h
    · exact hnat n (by omega) h

theorem exists_head {p : Char → Prop} {s : Text} (hs : ∀ c ∈ s, p c) (hc : p c) (t : Text) :
    ∃ c' t', s ++ c :: t = c' :: t' ∧ p c' := by
  cases s with
  | nil => exact ⟨c, t, rfl, hc⟩
  | cons c' s => exact ⟨c', s ++ c :: t, rfl, hs c' (by simp)⟩

theorem layout_head {d : Text} (hd : ∀ c ∈ d, c.isDigit) (reach p : Int) :
    ∃ c t, layout reach d p = c :: t ∧ (c.isDigit ∨ c = '.') := by
  have hd' : ∀ c ∈ d, c.isDigit ∨ c = '.' := fun c hc => .inl (hd c hc)
  rw [layout]
  split
  · simp only
    split
    · rename_i hlen
      obtain ⟨c, rfl⟩ := List.length_eq_one_iff.1 hlen
      exact ⟨c, _, rfl, hd' c (by simp)⟩
    · rw [List.append_assoc, List.cons_append]
      exact exists_head (fun c hc => hd' c (List.mem_of_mem_take hc)) (.inr rfl) _
  · split
    · exact ⟨'0', _, rfl, .inl rfl⟩
    · split
      · exact exists_head (fun c hc => hd' c (List.mem_of_mem_take hc)) (.inr rfl) _
      · refine exists_head (fun c hc => ?_) (.inr rfl) _
        rcases List.mem_append.1 hc with hc | hc
        · exact hd' c hc
        · rw [List.eq_of_mem_replicate hc]
          exact .inl rfl

/-- `repr` of a positive float starts with a digit or a point. -/
theorem reprFloat_head {q : ℚ} (h : 0 < q) (z : Bool) :
    reprFloat (.fin q z) = [] ∨ ∃ c s, reprFloat (.fin q z) = c :: s ∧ (c.isDigit ∨ c = '.') := by
  have hneg : isNeg q z = false := by simp [isNeg, h.not_gt, h.ne']
  rw [reprFloat, hneg]
  cases reprDigits q with
  | none => exact .inl rfl
  | some p =>
    right
    simp only [Bool.false_eq_true, if_false, List.nil_append, if_neg h.ne']
    refine layout_head (fun c hc => isDigit_of_mem_natText (n := p.1) ?_) _ _
    simp only [List.rdropWhile, List.mem_reverse] at hc
    simpa using (List.dropWhile_sublist _).subset hc

theorem truncate_nonneg (h : 0 ≤ q) (hw : truncate (.fin q z) = (.ok w : Except (Exc ρ) Int)) :
    0 ≤ w := by
  rw [truncate, if_neg (not_lt.2 h)] at hw
  cases hw
  exact Int.floor_nonneg.2 h

theorem toUnits_nonneg (hv : NonnegVal v) (h : toUnits v = (.ok w : Except (Exc ρ) Int)) : 0 ≤ w := by
  obtain ⟨q, z, hq, hv⟩ : ∃ q z, 0 ≤ q ∧ v.toDecimal = (.ok (.fin q z) : Except (Exc ρ) Number) := by
    match v, hv with
    | .int n, hn => exact ⟨n, false, by exact_mod_cast hn, rfl⟩
    | .float (.fin q z), hq => exact ⟨q, z, le_of_lt hq, rfl⟩
  simp only [toUnits, Except.bind_eq_ok] at h
  obtain ⟨x, hx, y, hy, h⟩ := h
  have hx' : ∃ p z, 0 ≤ p ∧ x = .fin p z := by
    rw [quantizeEight] at hx
    split at hx
    · rw [hv, Except.ok_bind] at hx
      obtain ⟨rfl, -⟩ := quantize_fin_ok hx
      refine ⟨_, _, div_nonneg ?_ (by norm_num), rfl⟩
      exact_mod_cast Rat.halfEven_nonneg (by positivity)
    · cases hx
      exact ⟨0, false, le_rfl, rfl⟩
  obtain ⟨p, z', hp, rfl⟩ := hx'
  obtain rfl := rounded_ok hy
  refine truncate_nonneg ?_ h
  exact_mod_cast Rat.halfEven_nonneg (context28.round_nonneg (by positivity))

theorem units_nonneg (hv : NonnegVal v) (h : units mode v = (.ok w : Except (Exc ρ) Int)) : 0 ≤ w := by
  have hread : ∀ s : Text, (s = [] ∨ ∃ c t, s = c :: t ∧ (c.isDigit ∨ c = '.')) →
      (decimal s >>= truncate) = (.ok w : Except (Exc ρ) Int) → 0 ≤ w := by
    intro s hs h
    obtain ⟨x, hx, h⟩ := Except.bind_eq_ok.1 h
    cases x with
    | fin q z =>
      refine truncate_nonneg ?_ h
      rcases hs with rfl | ⟨c, t, rfl, hc⟩
      · cases hx
      · exact decimal_nonneg hc hx
    | inf | nan | snan => cases h
  simp only [units] at h
  split at h
  · cases h
    exact le_rfl
  · cases mode with
    | decimal => exact toUnits_nonneg hv h
    | integer =>
      refine hread v.text ?_ h
      cases v with
      | int n =>
        obtain ⟨n, rfl⟩ := Int.eq_ofNat_of_zero_le hv
        obtain ⟨c, t, hc⟩ := List.exists_cons_of_ne_nil (natText_ne_nil n)
        exact .inr ⟨c, t, hc, .inl (isDigit_of_mem_natText (n := n) (by rw [hc]; simp))⟩
      | float x =>
        cases x with
        | fin q z => exact reprFloat_head hv z
        | inf | nan | snan => exact hv.elim
      | _ => exact hv.elim

end Bismuth
