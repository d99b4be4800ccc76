import Bismuth.Py.ReadBack
import Mathlib

/-!
# `Decimal` and `float` on the same text

The two readers strip, drop underscores and take digits differently. Where both of them take a text, they read the
same number, and `float` rounds it.
-/

namespace Py

/-! ## Stripping -/

theorem exists_stripWith (p : Char → Bool) (s : Text) :
    ∃ a b, s = a ++ (stripWith p s ++ b) ∧ (∀ c ∈ a, p c) ∧ ∀ c ∈ b, p c := by
  refine ⟨s.takeWhile p, (s.dropWhile p).rtakeWhile p, ?_, fun c hc => List.mem_takeWhile_imp hc,
    fun c hc => List.mem_rtakeWhile_imp hc⟩
  rw [stripWith, List.rdropWhile_append_rtakeWhile, List.takeWhile_append_dropWhile]

theorem stripWith_append {p : Char → Bool} {a m b : Text} (ha : ∀ c ∈ a, p c) (hm : ∀ c ∈ m, p c = false)
    (hb : ∀ c ∈ b, p c) : stripWith p (a ++ (m ++ b)) = m := by
  have hright {l : Text} : (l ++ b).rdropWhile p = l.rdropWhile p := by
    rw [List.rdropWhile, List.reverse_append, List.dropWhile_append_of_pos (by simpa using hb), List.rdropWhile]
  rw [stripWith, List.dropWhile_append_of_pos ha]
  cases m with
  | nil =>
    rw [List.nil_append, List.dropWhile_eq_nil_iff.2 hb]
    rfl
  | cons c m =>
    rw [List.cons_append, List.dropWhile_cons_of_neg (by simp [hm c (by simp)]), ← List.cons_append, hright,
      List.rdropWhile_eq_self_iff]
    intro hl
    simp [hm _ (List.getLast_mem hl)]

/-- `float` drops the same underscores where it takes them. -/
theorem dropUnderscores_eq {b : Bool} {s t : Text} (h : dropUnderscores b s = some t) : t = s.filter (· ≠ '_') := by
  fun_induction dropUnderscores b s generalizing t with
  | case1 => cases h; rfl
  | case2 prev c s hc ih =>
    obtain ⟨u, hu, rfl⟩ := Option.map_eq_some_iff.1 h
    have hne : c ≠ '_' := by
      rintro rfl
      exact absurd hc.2 (by decide)
    rw [List.filter_cons_of_neg (by simp), List.filter_cons_of_pos (by simpa using hne), ih hu]
  | case3 | case4 => cases h
  | case5 prev c s hpair hlast ih =>
    obtain ⟨u, hu, rfl⟩ := Option.map_eq_some_iff.1 h
    have hne : c ≠ '_' := by
      intro hc
      cases s with
      | nil => exact hlast hc rfl
      | cons d s => exact hpair d s hc rfl
    rw [List.filter_cons_of_pos (by simpa using hne), ih hu]

/-! ## What a number is made of -/

theorem isSpace_of_isDigit {c : Char} (h : c.isDigit) : isSpace c = false := isSpace_of_plain (isPlain_of_isDigit h)

theorem mem_signOf {s : Text} {c : Char} (h : c ∈ s) : c = '-' ∨ c = '+' ∨ c ∈ (signOf s).2 := by
  unfold signOf
  split
  · exact (List.mem_cons.1 h).imp_right .inr
  · exact .inr (List.mem_cons.1 h)
  · exact .inr (.inr h)

theorem not_isSpace_of_exponentOf {s : Text} {e : Int} (h : exponentOf s = some e) : ∀ c ∈ s, isSpace c = false := by
  intro c hc
  cases s with
  | nil => cases hc
  | cons d s =>
    rw [exponentOf] at h
    split at h
    · rename_i hd
      dsimp only at h
      split at h
      · rename_i hdigits
        rcases List.mem_cons.1 hc with rfl | hc
        · rcases hd with rfl | rfl <;> decide
        · rcases mem_signOf hc with rfl | rfl | hc
          · decide
          · decide
          · exact isSpace_of_isDigit (List.all_eq_true.1 hdigits.2 c hc)
      · cases h
    · cases h

theorem not_isSpace_of_unsignedOf {s : Text} {r : Nat × Int} (h : unsignedOf s = some r) :
    ∀ c ∈ s, isSpace c = false := by
  have hspan (l : Text) {c : Char} (hc : c ∈ l) : c ∈ (l.span Char.isDigit).2 ∨ isSpace c = false := by
    rw [List.span_eq_takeWhile_dropWhile]
    rw [← List.takeWhile_append_dropWhile (p := Char.isDigit) (l := l)] at hc
    rcases List.mem_append.1 hc with hc | hc
    · exact .inr (isSpace_of_isDigit (List.mem_takeWhile_imp hc))
    · exact .inl hc
  have hfraction (l : Text) {c : Char} (hc : c ∈ l) : c ∈ (fractionOf l).2 ∨ isSpace c = false := by
    unfold fractionOf
    split
    · rcases List.mem_cons.1 hc with rfl | hc
      · exact .inr (by decide)
      · exact hspan _ hc
    · exact .inl hc
  intro c hc
  simp only [unsignedOf] at h
  split at h
  · cases h
  · obtain ⟨e, he, -⟩ := Option.map_eq_some_iff.1 h
    rcases hspan s hc with hc | hc
    · rcases hfraction _ hc with hc | hc
      · exact not_isSpace_of_exponentOf he c hc
      · exact hc
    · exact hc

theorem isSpace_toLower {c : Char} (h : isSpace c = true) : isSpace c.toLower = true := by
  have hupper : ¬(c.val ≥ 'A'.val ∧ c.val ≤ 'Z'.val) := by
    rintro ⟨hlow, hhigh⟩
    have h1 : 65 ≤ c.toNat := hlow
    have h2 : c.toNat ≤ 90 := hhigh
    simp only [isSpace, Bool.or_eq_true, Bool.and_eq_true, decide_eq_true_eq, beq_iff_eq] at h
    omega
  rw [Char.toLower, dif_neg hupper]
  exact h

theorem not_isSpace_of_lower {s w : Text} (h : lower s = w) (hw : ∀ c ∈ w, isSpace c = false) :
    ∀ c ∈ s, isSpace c = false := by
  intro c hc
  by_contra hspace
  have hmem : c.toLower ∈ w := h ▸ List.mem_map_of_mem hc
  rw [Bool.not_eq_false] at hspace
  exact absurd (isSpace_toLower hspace) (by rw [hw _ hmem]; decide)

/-! ## The two readings of a character -/

/-- What `float` makes of a character. -/
def floatChar (c : Char) : Option Char :=
  if c.toNat < 127 then some c else if isSpace c then some ' ' else asciiDigit? c

/-- What `Decimal` makes of it. -/
def decimalChar (c : Char) : Option Char := if c.toNat < 128 then some c else asciiDigit? c

theorem isDigit_of_asciiDigit? {c d : Char} (h : asciiDigit? c = some d) : d.isDigit := by
  obtain ⟨z, hz, rfl⟩ := Option.map_eq_some_iff.1 h
  have hz := List.find?_some hz
  simp only [Bool.and_eq_true, decide_eq_true_eq] at hz
  rw [Nat.isDigit_digitChar, decide_eq_true_eq]
  omega

theorem asciiDigit?_delete {c : Char} (h : c.toNat = 127) : asciiDigit? c = none := by
  rw [asciiDigit?, h]
  decide

theorem isSpace_of_floatChar {c d : Char} (h : floatChar c = some d)
    (hd : (d = ' ' || (9 ≤ d.toNat && d.toNat ≤ 13)) = true) : isSpace c = true := by
  rw [floatChar] at h
  split at h
  · cases h
    rw [Bool.or_eq_true, decide_eq_true_eq] at hd
    rcases hd with rfl | hd
    · decide
    · simp only [Bool.and_eq_true, decide_eq_true_eq] at hd
      simp [isSpace, hd.1, hd.2]
  · split at h
    · assumption
    · have hdigit := isDigit_of_asciiDigit? h
      rw [Bool.or_eq_true, decide_eq_true_eq] at hd
      rcases hd with rfl | hd
      · exact absurd hdigit (by decide)
      · simp only [Bool.and_eq_true, decide_eq_true_eq] at hd
        simp only [Char.isDigit, Bool.and_eq_true, decide_eq_true_eq] at hdigit
        have : 48 ≤ d.toNat := hdigit.1
        omega

/-- On a character that is no space for `float` the two agree. -/
theorem decimalChar_of_floatChar {c d : Char} (h : floatChar c = some d) (hd : isSpace d = false) :
    isSpace c = false ∧ decimalChar c = some d ∧ (c = '_' ↔ d = '_') := by
  rw [floatChar] at h
  split at h
  · rename_i hlt
    cases h
    exact ⟨hd, if_pos (by omega), Iff.rfl⟩
  · rename_i hge
    split at h
    · cases h
      exact absurd hd (by decide)
    · rename_i hspace
      have h127 : c.toNat ≠ 127 := by
        intro hc
        rw [asciiDigit?_delete hc] at h
        cases h
      have hdigit := isDigit_of_asciiDigit? h
      refine ⟨by simpa using hspace, (if_neg (by omega)).trans h, iff_of_false ?_ ?_⟩
      · rintro rfl
        exact hge (by decide)
      · rintro rfl
        exact absurd hdigit (by decide)

theorem mapM_filter_of_forall₂ {s t : Text} (h : List.Forall₂ (fun c d => floatChar c = some d) s t)
    (ht : ∀ d ∈ t, isSpace d = false) :
    (s.filter (· ≠ '_')).mapM decimalChar = some (t.filter (· ≠ '_')) := by
  induction h with
  | nil => rfl
  | @cons c d s t hcd _ ih =>
    obtain ⟨-, hdec, hiff⟩ := decimalChar_of_floatChar hcd (ht d (by simp))
    have ih := ih fun d hd => ht d (by simp [hd])
    by_cases hc : c = '_'
    · rw [List.filter_cons_of_neg (by simpa using hc), List.filter_cons_of_neg (by simpa using hiff.1 hc), ih]
    · rw [List.filter_cons_of_pos (by simpa using hc), List.filter_cons_of_pos (by simpa using mt hiff.2 hc),
        List.mapM_cons, hdec, ih]
      rfl

theorem forall₂_of_mapM {f : α → Option β} {l : List α} {l' : List β} (h : l.mapM f = some l') :
    List.Forall₂ (fun a b => f a = some b) l l' := by
  induction l generalizing l' with
  | nil =>
    cases h
    exact .nil
  | cons a l ih =>
    rw [List.mapM_cons, Option.bind_eq_bind, Option.bind_eq_some_iff] at h
    obtain ⟨b, hb, h⟩ := h
    rw [Option.bind_eq_bind, Option.bind_eq_some_iff] at h
    obtain ⟨bs, hbs, h⟩ := h
    cases h
    exact .cons hb (ih hbs)

/-- A text that `float` reads and in which it finds no spaces has the same characters for `Decimal`. -/
theorem decimalAscii_of_floatAscii {s t u : Text} (hs : floatAscii s = some t) (ht : dropUnderscores false t = some u)
    (hu : ∀ c ∈ u, isSpace c = false) : decimalAscii s = some u := by
  obtain rfl := dropUnderscores_eq ht
  have hspace : ∀ c ∈ t, isSpace c = false := by
    intro c hc
    by_cases h : c = '_'
    · rw [h]
      decide
    · exact hu c (List.mem_filter.2 ⟨hc, by simpa using h⟩)
  obtain ⟨s', hmap, rfl⟩ := Option.map_eq_some_iff.1 hs
  obtain ⟨a', b', hs', ha', hb'⟩ := exists_stripWith (fun c => c = ' ' || (9 ≤ c.toNat && c.toNat ≤ 13)) s'
  generalize stripWith (fun c => decide (c = ' ') || (decide (9 ≤ c.toNat) && decide (c.toNat ≤ 13))) s' = t at *
  -- the spaces that `float` strips off are spaces for `Decimal` too, and it finds no others
  have hall : List.Forall₂ (fun c d => floatChar c = some d) s (a' ++ (t ++ b')) := hs' ▸ forall₂_of_mapM hmap
  have ha := List.forall₂_take_append s a' (t ++ b') hall
  have hrest := List.forall₂_drop_append s a' (t ++ b') hall
  have hm := List.forall₂_take_append _ t b' hrest
  have hb := List.forall₂_drop_append _ t b' hrest
  have hsplit : s = s.take a'.length ++ ((s.drop a'.length).take t.length ++ (s.drop a'.length).drop t.length) := by
    rw [List.take_append_drop, List.take_append_drop]
  have hpads {l l' : Text} (h : List.Forall₂ (fun c d => floatChar c = some d) l l')
      (hl : ∀ d ∈ l', (d = ' ' || (9 ≤ d.toNat && d.toNat ≤ 13)) = true) : ∀ c ∈ l, isSpace c := by
    intro c hc
    obtain ⟨d, hd, hcd⟩ := h.exists_right hc
    exact isSpace_of_floatChar hcd (hl d hd)
  have hkeep : ∀ c ∈ (s.drop a'.length).take t.length, isSpace c = false := by
    intro c hc
    obtain ⟨d, hd, hcd⟩ := hm.exists_right hc
    exact (decimalChar_of_floatChar hcd (hspace d hd)).1
  have hstrip : strip s = (s.drop a'.length).take t.length :=
    (congrArg strip hsplit).trans (stripWith_append (hpads ha ha') hkeep (hpads hb hb'))
  rw [decimalAscii, hstrip]
  exact mapM_filter_of_forall₂ hm hspace

/-! ## Numbers -/

/-- What `float` reads is the rounding of what `Decimal` reads. -/
inductive Agree : Number → Number → Prop
  | fin (q : ℚ) (z : Bool) : Agree (toDouble q z) (.fin q z)
  | inf (a : Bool) : Agree (.inf a) (.inf a)
  | nan : Agree .nan .nan

theorem float_agree {s : Text} {x y : Number} (hx : (float s : Except (Exc ρ) Number) = .ok x)
    (hy : (decimal s : Except (Exc ρ) Number) = .ok y) : Agree x y := by
  rw [float] at hx
  cases hread : floatAscii s >>= dropUnderscores false with
  | none =>
    rw [hread] at hx
    cases hx
  | some u =>
    obtain ⟨t, ht, hu⟩ := Option.bind_eq_some_iff.1 hread
    rw [hread] at hx
    dsimp only at hx
    have hspace : ∀ c ∈ (signOf u).2, isSpace c = false := by
      cases hn : unsignedOf (signOf u).2 with
      | some r => exact not_isSpace_of_unsignedOf hn
      | none =>
        rw [hn] at hx
        dsimp only at hx
        split at hx
        · rename_i hinf
          rcases hinf with hinf | hinf <;> exact not_isSpace_of_lower hinf (by decide)
        · split at hx
          · rename_i hnan
            exact not_isSpace_of_lower hnan (by decide)
          · cases hx
    have hdec : decimalAscii s = some u := by
      refine decimalAscii_of_floatAscii ht hu fun c hc => ?_
      rcases mem_signOf hc with rfl | rfl | hc
      · decide
      · decide
      · exact hspace c hc
    rw [decimal, hdec] at hy
    dsimp only at hy
    cases hn : unsignedOf (signOf u).2 with
    | some r =>
      obtain ⟨c, e⟩ := r
      rw [hn] at hx hy
      dsimp only at hx hy
      cases hx
      split at hy <;> cases hy
      exact .fin _ _
    | none =>
      rw [hn] at hx hy
      dsimp only at hx hy
      split at hx
      · rename_i hinf
        cases hx
        rw [decimalSpecial, if_pos hinf] at hy
        cases hy
        exact .inf _
      · rename_i hinf
        split at hx
        · rename_i hnan
          cases hx
          rw [decimalSpecial, if_neg hinf, if_pos (by rw [hnan]; decide)] at hy
          cases hy
          exact .nan
        · cases hx

end Py
