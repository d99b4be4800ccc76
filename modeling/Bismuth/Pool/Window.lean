import Bismuth.Pool.Payout
import Bismuth.Py.ReadBack

/-!
# The reward window

A payout run looks for rewards since the earliest stamp of an unpaid share. A share is stamped with a text when it
is recorded and with a number after a run that paid, and the two do not compare.
-/

namespace List

theorem append_lt_append_of_length {α : Type u} [LT α] {l l' : List α} (h : l < l') (hlen : l.length = l'.length)
    (r r' : List α) : l ++ r < l' ++ r' := by
  induction h with
  | nil => cases hlen
  | rel h => exact .rel h
  | cons _ ih => exact .cons (ih (Nat.succ.inj hlen))

end List

namespace Py

/-! ## Digits in the order of their values -/

theorem digitsVal_cons (c : Char) (l : Text) : digitsVal (c :: l) = 10 ^ l.length * (c.toNat - 48) + digitsVal l := by
  have h := digitsVal_append [c] l
  simpa [digitsVal, Nat.ofDigitChars] using h

theorem toNat_of_isDigit {c : Char} (h : c.isDigit) : 48 ≤ c.toNat ∧ c.toNat ≤ 57 := by
  rw [Char.isDigit, Bool.and_eq_true] at h
  exact ⟨of_decide_eq_true h.1, of_decide_eq_true h.2⟩

theorem digitsVal_lt {l : Text} (h : ∀ c ∈ l, c.isDigit) : digitsVal l < 10 ^ l.length := by
  induction l with
  | nil => decide
  | cons c l ih =>
    have hc := toNat_of_isDigit (h c List.mem_cons_self)
    have hl := ih fun d hd => h d (List.mem_cons_of_mem _ hd)
    have hmul : 10 ^ l.length * (c.toNat - 48) ≤ 10 ^ l.length * 9 := Nat.mul_le_mul_left _ (by omega)
    rw [digitsVal_cons, List.length_cons, pow_succ]
    omega

theorem lt_of_digitsVal_lt {l l' : Text} (hl : ∀ c ∈ l, c.isDigit) (hl' : ∀ c ∈ l', c.isDigit)
    (hlen : l.length = l'.length) (h : digitsVal l < digitsVal l') : l < l' := by
  induction l generalizing l' with
  | nil =>
    cases l' with
    | nil => exact absurd h (lt_irrefl _)
    | cons c l' => cases hlen
  | cons c l ih =>
    cases l' with
    | nil => cases hlen
    | cons c' l' =>
      have hlen' : l.length = l'.length := Nat.succ.inj hlen
      have hc := toNat_of_isDigit (hl c List.mem_cons_self)
      have hc' := toNat_of_isDigit (hl' c' List.mem_cons_self)
      have hlt' := digitsVal_lt fun d hd => hl' d (List.mem_cons_of_mem _ hd)
      rw [digitsVal_cons, digitsVal_cons, hlen'] at h
      obtain hcc | hcc | hcc := lt_trichotomy c.toNat c'.toNat
      · exact .rel (Char.lt_def.2 hcc)
      · have hceq : c = c' := Char.toNat_inj.1 hcc
        subst hceq
        refine .cons (ih (fun d hd => hl d (List.mem_cons_of_mem _ hd)) (fun d hd => hl' d (List.mem_cons_of_mem _ hd))
          hlen' (by omega))
      · have hmul : 10 ^ l'.length * (c'.toNat - 48 + 1) ≤ 10 ^ l'.length * (c.toNat - 48) :=
          Nat.mul_le_mul_left _ (by omega)
        rw [Nat.mul_add] at hmul
        omega

/-- Texts with two decimals and ten digits before them compare as their values do. -/
theorem fixedText_lt {u u' : Nat} (hu : 10 ^ 11 ≤ u) (hu' : u' < 10 ^ 12) (h : u < u') :
    fixedText false 2 u < fixedText false 2 u' := by
  have hlen : ∀ {a : Nat}, 10 ^ 9 ≤ a → a < 10 ^ 10 → (natText a).length = 10 := by
    intro a ha ha'
    have h10 := (length_natText_le_iff (n := a) (k := 10) (by decide)).2 ha'
    have h9 := mt (length_natText_le_iff (n := a) (k := 9) (by decide)).1 (by omega)
    omega
  have hpad : ∀ a : Nat, (zeroPad 2 (natText (a % 10 ^ 2))).length = 2 := fun a =>
    length_zeroPad ((length_natText_le_iff (by decide)).2 (Nat.mod_lt _ (by decide)))
  simp only [fixedText, Bool.false_eq_true, if_false, List.nil_append]
  obtain hdiv | hdiv := lt_or_eq_of_le (Nat.div_le_div_right (c := 10 ^ 2) h.le)
  · refine List.append_lt_append_of_length (lt_of_digitsVal_lt (fun c hc => isDigit_of_mem_natText hc)
      (fun c hc => isDigit_of_mem_natText hc) ?_ ?_) ?_ _ _
    · rw [hlen (by omega) (by omega), hlen (by omega) (by omega)]
    · rwa [digitsVal_natText, digitsVal_natText]
    · rw [hlen (by omega) (by omega), hlen (by omega) (by omega)]
  · rw [hdiv]
    refine List.append_left_lt (.cons (lt_of_digitsVal_lt (fun c hc => isDigit_of_mem_zeroPad hc)
      (fun c hc => isDigit_of_mem_zeroPad hc) ?_ ?_))
    · rw [hpad, hpad]
    · rw [digitsVal_zeroPad, digitsVal_zeroPad, digitsVal_natText, digitsVal_natText]
      omega

theorem floatLe_toDouble {p q : ℚ} (h0 : 0 ≤ p) (h : p ≤ q) (hq : q < 2 ^ 200) (z z' : Bool) :
    floatLe (toDouble p z) (toDouble q z') = true := by
  have hp : ¬1024 ≤ Int.log 2 |binary64.round p| := by
    refine not_le.2 (log_round_lt ?_)
    rw [abs_of_nonneg h0]
    exact h.trans_lt hq
  have hq' : ¬1024 ≤ Int.log 2 |binary64.round q| := by
    refine not_le.2 (log_round_lt ?_)
    rwa [abs_of_nonneg (h0.trans h)]
  simp only [toDouble, if_neg hp, if_neg hq', floatLe, floatLt, lt]
  rw [Bool.not_eq_true', decide_eq_false_iff_not, not_lt]
  exact binary64.round_mono h

end Py

namespace Bismuth
open Py

namespace Pool

/-! ## The least stamp -/

/-- `min` of values that compare as their keys do. -/
theorem minVal_of_key {α : Type} [LinearOrder α] (key : Val → α) (v : Val) (vs : List Val)
    (h : ∀ x ∈ v :: vs, ∀ y ∈ v :: vs, ∃ b, valLt x y = .ok b ∧ (b = true ↔ key x < key y)) :
    ∃ m ∈ v :: vs, minVal (v :: vs) = .ok m ∧ ∀ x ∈ v :: vs, key m ≤ key x := by
  induction vs generalizing v with
  | nil => exact ⟨v, List.mem_cons_self, rfl, fun x hx => (congrArg key (List.mem_singleton.1 hx)).ge⟩
  | cons x vs ih =>
    obtain ⟨b, hb, hlt⟩ := h x (by simp) v (by simp)
    have hstep : minVal (v :: x :: vs) = minVal ((if b then x else v) :: vs) := by
      rw [minVal, List.foldlM_cons, hb]
      rfl
    have hmem : ∀ y ∈ (if b then x else v) :: vs, y ∈ v :: x :: vs := by
      intro y hy
      obtain rfl | hy := List.mem_cons.1 hy
      · split <;> simp
      · simp [hy]
    obtain ⟨m, hm, hmin, hle⟩ := ih _ fun y hy z hz => h y (hmem y hy) z (hmem z hz)
    have hfirst := hle _ List.mem_cons_self
    refine ⟨m, hmem m hm, hstep.trans hmin, fun y hy => ?_⟩
    obtain rfl | rfl | hy := (List.mem_cons.1 hy).imp_right List.mem_cons.1
    · split at hfirst
      · exact hfirst.trans (hlt.1 ‹_›).le
      · exact hfirst
    · split at hfirst
      · exact hfirst
      · exact hfirst.trans (not_lt.1 (mt hlt.2 ‹_›))
    · exact hle y (List.mem_cons_of_mem _ hy)

def isText : Val → Bool
  | .str _ => true
  | _ => false

theorem exists_valLt {x y : Val} (h : isText x = isText y) : ∃ b, valLt x y = .ok b := by
  cases x <;> cases y <;> first | exact ⟨_, rfl⟩ | cases h

theorem valLt_of_ne {x y : Val} (h : isText x ≠ isText y) : valLt x y = .error .typeError := by
  cases x <;> cases y <;> first | rfl | exact absurd rfl h

/-- A text and a number among the values make `min` raise. -/
theorem minVal_mixed {vs : List Val} {v : Val} (h : ∃ x ∈ vs, isText x ≠ isText v) :
    ∃ e, minVal (v :: vs) = .error e := by
  induction vs generalizing v with
  | nil =>
    obtain ⟨x, hx, -⟩ := h
    cases hx
  | cons x vs ih =>
    by_cases hx : isText x = isText v
    · obtain ⟨b, hb⟩ := exists_valLt hx
      have hstep : minVal (v :: x :: vs) = minVal ((if b then x else v) :: vs) := by
        rw [minVal, List.foldlM_cons, hb]
        rfl
      rw [hstep]
      refine ih ?_
      obtain ⟨y, hy, hne⟩ := h
      obtain rfl | hy := List.mem_cons.1 hy
      · exact absurd hx hne
      · refine ⟨y, hy, ?_⟩
        split
        · rwa [hx]
        · exact hne
    · exact ⟨.typeError, by rw [minVal, List.foldlM_cons, valLt_of_ne hx]; rfl⟩

/-! ## Stamps -/

/-- A time at which a stamp has ten digits before the point: from 2001 to 2286. -/
def TenDigits (t : ℚ) : Prop := 10 ^ 9 ≤ t ∧ t ≤ 10 ^ 10 - 1

/-- A stamp is a text of a time in `T`, or a number. -/
def Stamped (T : ℚ → Prop) (v : Val) : Prop :=
  (∃ t, v = .float (.ofRat t)) ∨ ∃ t, T t ∧ v = .str (formatFixed 2 (.ofRat t))

def PoolStore.Stamped (T : ℚ → Prop) (st : PoolStore) : Prop :=
  ∀ k r, st.shares.get? k = some r → Pool.Stamped T r.timestamp

theorem PoolStore.Stamped.arrive {T : ℚ → Prop} {st : PoolStore} (h : st.Stamped T) {l : List Arrival}
    (hl : ∀ a ∈ l, T a.now) : (st.arrive l).Stamped T := by
  intro k r hget
  obtain hget | ⟨a, ha, rfl⟩ := (arrive_spec st l).2.2 k r hget
  · exact h k r hget
  · exact .inr ⟨a.now, hl a ha, rfl⟩

theorem Reached.stamped {T : ℚ → Prop} {st : PoolStore} (h : Reached T st) : st.Stamped T := by
  induction h with
  | empty => exact fun k r hget => nomatch hget
  | record _ hnow hrec ih =>
    obtain ⟨-, rfl⟩ := PoolStore.recordShare_eq_some hrec
    intro k r hget
    rw [PoolStore.get?_append] at hget
    split at hget
    · cases hget
      exact .inr ⟨_, hnow, rfl⟩
    · exact ih k r hget
  | @payout st _ r _ hr hp ih =>
    obtain ⟨ps, -, hp⟩ := Except.bind_eq_ok.1 hp
    cases hp
    have hstamp : (r.stamp ps st).Stamped T := by
      rw [Run.stamp]
      split
      · exact ih
      · intro k s hget
        rw [PoolStore.touchTimestamps, PoolStore.rewrite, OrdTable.get?_map] at hget
        obtain ⟨s₀, -, rfl⟩ := Option.map_eq_some_iff.1 hget
        exact .inl ⟨_, rfl⟩
    intro k s hget
    rw [PoolStore.closeRound, OrdTable.get?_filter, Option.filter_eq_some_iff] at hget
    exact hstamp.arrive (hr _) k s hget.1

theorem exists_fixedText {t : ℚ} (h : TenDigits t) :
    ∃ u : Nat, 10 ^ 11 ≤ u ∧ u < 10 ^ 12 ∧ formatFixed 2 (.ofRat t) = fixedText false 2 u := by
  obtain ⟨hlo, hhi⟩ := h
  have hpos : 0 ≤ t := le_trans (by norm_num) hlo
  have h1 : (10 ^ 11 : ℤ) ≤ Rat.halfEven (t * 10 ^ 2) := by
    have := Rat.halfEven_mono (p := ((10 ^ 11 : ℤ) : ℚ)) (q := t * 10 ^ 2) (by push_cast; linarith)
    rwa [Rat.halfEven_intCast] at this
  have h2 : Rat.halfEven (t * 10 ^ 2) ≤ (10 ^ 12 - 1 : ℤ) := by
    have := Rat.halfEven_mono (p := t * 10 ^ 2) (q := ((10 ^ 12 - 1 : ℤ) : ℚ)) (by push_cast; linarith)
    rwa [Rat.halfEven_intCast] at this
  refine ⟨(Rat.halfEven (t * 10 ^ 2)).natAbs, by omega, by omega, ?_⟩
  have hneg : isNeg t false = false := by
    simp [isNeg, hpos]
  rw [Number.ofRat, formatFixed, hneg, abs_of_nonneg hpos]

/-! ## The window of a run -/

/-- `x` is the stamp of one of the shares, and none is earlier. -/
def IsEarliest (l : List Share) (x : Number) : Prop :=
  (∃ s ∈ l, (s.timestamp.toFloat : Except Err Number) = .ok x) ∧
    ∀ s ∈ l, ∃ y, (s.timestamp.toFloat : Except Err Number) = .ok y ∧ floatLe x y

def stampedAlike (l : List Share) : Bool := l.all (isText ·.timestamp) || l.all (!isText ·.timestamp)

variable {l : List Share}

theorem isEarliest_of_min {now : ℚ} {m : Val} (hmem : m ∈ l.map (·.timestamp))
    (hmin : minVal (l.map (·.timestamp)) = .ok m) {x : Number} (hx : (m.toFloat : Except Err Number) = .ok x)
    (hle : ∀ s ∈ l, ∃ y, (s.timestamp.toFloat : Except Err Number) = .ok y ∧ floatLe x y) :
    IsEarliest l (blockThreshold l now) := by
  have hthreshold : blockThreshold l now = x := by rw [blockThreshold, hmin, Except.ok_bind, hx]
  obtain ⟨s, hs, rfl⟩ := List.mem_map.1 hmem
  rw [hthreshold]
  exact ⟨⟨s, hs, hx⟩, hle⟩

/-- The value of a number that is finite. -/
def finiteVal : Val → ℚ
  | .float (.fin q _) => q
  | _ => 0

theorem isEarliest_of_numbers (hne : l ≠ []) (h : ∀ s ∈ l, ∃ t, s.timestamp = .float (.ofRat t))
    (now : ℚ) : IsEarliest l (blockThreshold l now) := by
  obtain ⟨s₀, l, rfl⟩ := List.exists_cons_of_ne_nil hne
  have hvals : ∀ v ∈ (s₀ :: l).map (·.timestamp), v = .float (.ofRat (finiteVal v)) := by
    intro v hv
    obtain ⟨s, hs, rfl⟩ := List.mem_map.1 hv
    obtain ⟨t, ht⟩ := h s hs
    rw [ht]
    rfl
  obtain ⟨m, hm, hmin, hle⟩ := minVal_of_key finiteVal s₀.timestamp (l.map (·.timestamp)) (by
    intro x hx y hy
    rw [hvals x hx, hvals y hy]
    exact ⟨_, rfl, decide_eq_true_iff⟩)
  refine isEarliest_of_min hm hmin (x := .ofRat (finiteVal m)) (by rw [hvals m hm]; rfl) fun s hs => ?_
  have hs := List.mem_map_of_mem (f := Share.timestamp) hs
  refine ⟨.ofRat (finiteVal s.timestamp), by rw [hvals _ hs]; rfl, ?_⟩
  simpa [floatLe, floatLt, Number.ofRat, lt] using hle _ hs

theorem isEarliest_of_texts (hne : l ≠ [])
    (h : ∀ s ∈ l, ∃ t, TenDigits t ∧ s.timestamp = .str (formatFixed 2 (.ofRat t))) (now : ℚ) :
    IsEarliest l (blockThreshold l now) := by
  obtain ⟨s₀, l, rfl⟩ := List.exists_cons_of_ne_nil hne
  have hvals : ∀ v ∈ (s₀ :: l).map (·.timestamp),
      ∃ u : Nat, 10 ^ 11 ≤ u ∧ u < 10 ^ 12 ∧ v = .str (fixedText false 2 u) := by
    intro v hv
    obtain ⟨s, hs, rfl⟩ := List.mem_map.1 hv
    obtain ⟨t, ht, hts⟩ := h s hs
    obtain ⟨u, hlo, hhi, hu⟩ := exists_fixedText ht
    exact ⟨u, hlo, hhi, by rw [hts, hu]⟩
  obtain ⟨m, hm, hmin, hle⟩ := minVal_of_key Val.text s₀.timestamp (l.map (·.timestamp)) (by
    intro x hx y hy
    obtain ⟨u, -, -, rfl⟩ := hvals x hx
    obtain ⟨u', -, -, rfl⟩ := hvals y hy
    exact ⟨_, rfl, decide_eq_true_iff⟩)
  obtain ⟨u, hlo, hhi, hu⟩ := hvals m hm
  refine isEarliest_of_min hm hmin (x := toDouble (fixedVal false 2 u) false) ?_ fun s hs => ?_
  · rw [hu]
    exact float_fixedText false (by decide) u
  · have hs := List.mem_map_of_mem (f := Share.timestamp) hs
    obtain ⟨u', hlo', hhi', hu'⟩ := hvals _ hs
    refine ⟨toDouble (fixedVal false 2 u') false, ?_, ?_⟩
    · rw [hu']
      exact float_fixedText false (by decide) u'
    · have hle := hle _ hs
      rw [hu, hu'] at hle
      have huu : u ≤ u' := by
        by_contra hlt
        exact absurd hle (not_le.2 (fixedText_lt hlo' hhi (not_le.1 hlt)))
      have hq : (u : ℚ) ≤ u' := by exact_mod_cast huu
      have hq' : (u' : ℚ) < 10 ^ 12 := by exact_mod_cast hhi'
      refine floatLe_toDouble ?_ ?_ ?_ _ _
      · simp only [fixedVal, Bool.false_eq_true, if_false, one_mul]
        positivity
      · simp only [fixedVal, Bool.false_eq_true, if_false, one_mul]
        gcongr
      · simp only [fixedVal, Bool.false_eq_true, if_false, one_mul]
        calc (u' : ℚ) / 10 ^ 2 ≤ u' := div_le_self (by positivity) (by norm_num)
          _ < 10 ^ 12 := hq'
          _ < 2 ^ 200 := by norm_num

/-- Different stamps make the run start its window at its own time. -/
theorem blockThreshold_of_mixed (h : stampedAlike l = false) (now : ℚ) : blockThreshold l now = .ofRat now := by
  rw [stampedAlike, Bool.or_eq_false_iff, List.all_eq_false, List.all_eq_false] at h
  obtain ⟨⟨a, ha, hnum⟩, b, hb, htext⟩ := h
  rw [Bool.not_eq_true, Bool.not_eq_false'] at htext
  cases l with
  | nil => cases ha
  | cons s₀ l =>
    obtain ⟨e, he⟩ : ∃ e, minVal ((s₀ :: l).map (·.timestamp)) = .error e := by
      rw [List.map_cons]
      refine minVal_mixed ?_
      cases hs : isText s₀.timestamp with
      | true =>
        obtain rfl | ha := List.mem_cons.1 ha
        · exact absurd hs hnum
        · exact ⟨_, List.mem_map_of_mem ha, hnum⟩
      | false =>
        obtain rfl | hb := List.mem_cons.1 hb
        · rw [hs] at htext
          cases htext
        · exact ⟨_, List.mem_map_of_mem hb, by rw [htext]; exact nofun⟩
    rw [blockThreshold, he]
    rfl

theorem Reached.isEarliest_of_alike {st : PoolStore} (h : Reached TenDigits st) (hne : st.unpaid ≠ [])
    (halike : stampedAlike st.unpaid) (now : ℚ) : IsEarliest st.unpaid (blockThreshold st.unpaid now) := by
  have hstamped : ∀ s ∈ st.unpaid, Stamped TenDigits s.timestamp := by
    intro s hs
    obtain ⟨-, k, hget⟩ := PoolStore.mem_unpaid.1 hs
    exact h.stamped k s hget
  rw [stampedAlike, Bool.or_eq_true, List.all_eq_true, List.all_eq_true] at halike
  obtain htext | hnum := halike
  · refine isEarliest_of_texts hne (fun s hs => ?_) now
    obtain ⟨t, ht⟩ | h := hstamped s hs
    · have := htext s hs
      rw [ht] at this
      cases this
    · exact h
  · refine isEarliest_of_numbers hne (fun s hs => ?_) now
    obtain h | ⟨t, -, ht⟩ := hstamped s hs
    · exact h
    · have := hnum s hs
      rw [ht] at this
      cases this

/-- **The window of a payout run.** After any history of recorded shares and payout runs, a run that finds an unpaid
share starts its window at the earliest stamp exactly when the unpaid shares are all stamped alike, or the
earliest stamp is the time of the run itself. -/
theorem blockThreshold_earliest_iff {st : PoolStore} (h : Reached TenDigits st) (hne : st.unpaid ≠ []) (now : ℚ) :
    IsEarliest st.unpaid (blockThreshold st.unpaid now) ↔
      stampedAlike st.unpaid ∨ IsEarliest st.unpaid (.ofRat now) := by
  cases halike : stampedAlike st.unpaid with
  | true => exact iff_of_true (h.isEarliest_of_alike hne halike now) (.inl rfl)
  | false => rw [blockThreshold_of_mixed halike now, or_iff_right Bool.false_ne_true]

section Sample

private def minerOne : Text := List.replicate 56 'a'

private def minerTwo : Text := List.replicate 56 'b'

private def threeShares : PoolStore :=
  ((PoolStore.empty.append (utf8 "abc1".toList) (newShare minerOne 1700000000)).append
    (utf8 "abc2".toList) (newShare minerOne 1700000010)).append (utf8 "abc3".toList) (newShare minerTwo 1700000020)

private theorem reached_threeShares : Reached TenDigits threeShares :=
  @Reached.record _ _ _ "abc3".toList _ _ (@Reached.record _ _ _ "abc2".toList _ _
    (@Reached.record _ _ _ "abc1".toList _ _ .empty (by norm_num [TenDigits]) rfl) (by norm_num [TenDigits]) rfl)
    (by norm_num [TenDigits]) rfl

/-- The window starts at the first share. -/
theorem blockThreshold_earliest_sample : Reached TenDigits threeShares ∧ threeShares.unpaid ≠ [] ∧
    IsEarliest threeShares.unpaid (blockThreshold threeShares.unpaid 1700003600) :=
  ⟨reached_threeShares, by decide +kernel,
    (blockThreshold_earliest_iff reached_threeShares (by decide +kernel) _).2 (.inl (by decide +kernel))⟩

/-- The first miner is above the threshold of payment and the second is not. -/
private def firstRun : Run where
  terms := ⟨.ofRat 1, .ofRat 0, .ofRat 0, List.replicate 56 'f'⟩
  rewards := [(.ofRat 1700000100, .ofRat 3)]
  now := 1700003600
  accepted _ := true
  arrivals _ := []
  touched := 1700003601

private def firstPayments : List Payment := [⟨minerOne, "3.00000000".toList, true⟩]

private theorem payments_firstRun : firstRun.payments threeShares = .ok firstPayments := by
  have h : (firstRun.payments threeShares).toOption = some firstPayments := by decide +kernel
  exact Except.toOption_eq_some.1 h

private def afterFirstRun : PoolStore := (firstRun.stamp firstPayments threeShares).closeRound

private theorem reached_afterFirstRun : Reached TenDigits afterFirstRun := by
  refine @Reached.payout _ _ _ firstRun reached_threeShares ?_ ?_
  · intro i a ha
    cases ha
  · rw [Run.payout, payments_firstRun]
    rfl

private def carriedOver : PoolStore := afterFirstRun.append (utf8 "abc4".toList) (newShare minerOne 1700003700)

private theorem reached_carriedOver : Reached TenDigits carriedOver :=
  @Reached.record _ _ _ "abc4".toList _ _ reached_afterFirstRun (by norm_num [TenDigits]) rfl

/-- A share that a run carried over has a number for a stamp, and the next share a text: the run after that starts
its window at its own time, more than an hour too late. -/
theorem blockThreshold_too_late : ∃ (st : PoolStore) (now : ℚ), Reached TenDigits st ∧ st.unpaid ≠ [] ∧
    ¬IsEarliest st.unpaid (blockThreshold st.unpaid now) := by
  refine ⟨carriedOver, 1700007200, reached_carriedOver, by decide +kernel, ?_⟩
  rw [blockThreshold_of_mixed (by decide +kernel)]
  rintro ⟨-, hle⟩
  have hmem : ∃ s ∈ carriedOver.unpaid, s.timestamp = .float (.ofRat 1700003601) := by decide +kernel
  obtain ⟨s, hs, hts⟩ := hmem
  obtain ⟨y, hy, hle⟩ := hle s hs
  rw [hts] at hy
  cases hy
  revert hle
  decide +kernel

end Sample

end Pool

end Bismuth
