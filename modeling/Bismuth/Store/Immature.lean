import Bismuth.Store.AddressRows

/-!
# Immature rewards

`immature_coinbase` sums the rewards of the rows that a scan of the recipient index meets. A reward below
`2 ^ 26` is the same number of units after it was read as a float.
-/

namespace Bismuth
open Py

variable {P : Prims} {mode : Mode}

def Store.immatureCoinbase (P : Prims) (mode : Mode) (st : Store) (a : Text) (validateHeight maturity : Int) :
    Except Err Number := do
  toDecimal (← st.rewardUnitsSince P mode a (validateHeight - maturity))

/-! ## Rewards as they are typed -/

theorem toUnits_of_near {v : Val} {r : ℚ} {u : Nat} (hv : v.toDecimal = (.ok (.fin r z) : Except Err Number))
    (htruthy : v.truthy = decide (r ≠ 0)) (hu : u < 10 ^ 28) (hnear : |r * 10 ^ 8 - u| < 1 / 2) :
    toUnits v = (.ok u : Except Err Int) := by
  have hhalf : Rat.halfEven (r * 10 ^ 8) = u := Rat.halfEven_eq_of_abs_lt (by exact_mod_cast hnear)
  by_cases hr : r = 0
  · subst hr
    have hzero : u = 0 := by
      rw [zero_mul, Rat.halfEven_zero] at hhalf
      exact_mod_cast hhalf.symm
    subst hzero
    refine toUnits_of_quantize (x := .ofRat 0) ?_ IsBis.zero
    rw [quantizeEight, htruthy]
    simp
  · refine toUnits_of_quantize (x := .fin (bis u) (isNeg r z)) ?_ ⟨by simpa using (by exact_mod_cast hu), _, rfl⟩
    rw [quantizeEight, htruthy, decide_eq_true hr, if_pos rfl, hv, Except.ok_bind, quantize, hhalf]
    rw [if_neg (by simpa using (by exact_mod_cast hu))]
    rfl

/-- Below `2 ^ 26` a double is nearer to its units than half a unit. -/
theorem abs_round_bis_sub_lt {u : Nat} (h : u < 2 ^ 26 * 10 ^ 8) :
    |binary64.round (bis u) * 10 ^ 8 - u| < 1 / 2 := by
  by_cases hu : bis u = 0
  · rw [hu, FloatFormat.round_zero]
    have hzero : (u : Int) = 0 := bis_eq_zero.1 hu
    rw [show u = 0 by exact_mod_cast hzero]
    norm_num
  · have hlt : |bis u| < (2 : ℚ) ^ ((-27 : ℤ) + 53) := by
      rw [abs_of_nonneg (by unfold bis; positivity), bis, div_lt_iff₀ (by positivity)]
      norm_num
      exact_mod_cast h
    have hexp : binary64.ulpExp (bis u) ≤ -27 := binary64.ulpExp_le hu hlt (by decide)
    have herr : |binary64.round (bis u) - bis u| ≤ (2 : ℚ) ^ (-27 : ℤ) / 2 :=
      (binary64.abs_round_sub_le (bis u)).trans (by
        have : (2 : ℚ) ^ binary64.ulpExp (bis u) ≤ (2 : ℚ) ^ (-27 : ℤ) := zpow_le_zpow_right₀ (by norm_num) hexp
        have hbase : ((binary64.base : Nat) : ℚ) = 2 := by norm_num [binary64]
        rw [hbase]
        exact div_le_div_of_nonneg_right this (by norm_num))
    have heq : binary64.round (bis u) * 10 ^ 8 - u = (binary64.round (bis u) - bis u) * 10 ^ 8 := by
      rw [sub_mul, bis_mul]
      norm_num
    rw [heq, abs_mul, abs_of_pos (show (0 : ℚ) < 10 ^ 8 by norm_num)]
    calc |binary64.round (bis u) - bis u| * 10 ^ 8 ≤ (2 : ℚ) ^ (-27 : ℤ) / 2 * 10 ^ 8 := by gcongr
      _ < 1 / 2 := by norm_num

structure TypedAs (v : Val) (r : ℚ) : Prop where
  toDecimal : ∃ z, v.toDecimal = (.ok (.fin r z) : Except Err Number)
  truthy : v.truthy = decide (r ≠ 0)
  eq_zero : v.eq (.int 0) = true → r = 0
  ne : v ≠ .str []

theorem TypedAs.int (n : Int) : TypedAs (.int n) n where
  toDecimal := ⟨_, rfl⟩
  truthy := by simp [Val.truthy]
  eq_zero := by simp [Val.eq]
  ne := by simp

theorem TypedAs.typedFloat (r : ℚ) (z : Bool) : TypedAs (typedFloat (.fin r z)) r := by
  rw [Bismuth.typedFloat]
  split
  · rename_i h
    have hden : r.den = 1 := by
      rw [Bool.and_eq_true, decide_eq_true_eq] at h
      exact h.1
    have hint := TypedAs.int r.num
    rwa [Rat.den_eq_one_iff .. |>.1 hden] at hint
  · refine ⟨⟨z, rfl⟩, ?_, ?_, by simp⟩
    · simp [Val.truthy, Number.isZero]
    · simp [Val.eq, eq_comm]

theorem TypedAs.units {u : Nat} (h : TypedAs v r) (hu : u < 10 ^ 28) (hnear : |r * 10 ^ 8 - u| < 1 / 2) :
    Bismuth.units .decimal v = (.ok u : Except Err Int) ∧ (v.eq (.int 0) = true → u = 0) := by
  obtain ⟨z, hz⟩ := h.toDecimal
  refine ⟨?_, fun h0 => ?_⟩
  · rw [Bismuth.units, if_neg h.ne]
    exact toUnits_of_near hz h.truthy hu hnear
  · rw [h.eq_zero h0, zero_mul, zero_sub, abs_neg, Nat.abs_cast] at hnear
    by_contra hne
    have hone : (1 : ℚ) ≤ u := by exact_mod_cast Nat.one_le_iff_ne_zero.2 hne
    linarith

/-- A reward below `2 ^ 26` keeps its units when the column is typed. -/
theorem MoneyText.units_typed (h : MoneyText mode s u) (hu : u < 2 ^ 26 * 10 ^ 8) :
    ∃ v, Bismuth.numeric s = .ok v ∧ Bismuth.units mode v = (.ok u : Except Err Int) ∧
      (v.eq (.int 0) = true → u = 0) := by
  have hu28 : u < 10 ^ 28 := hu.trans (by norm_num)
  have hfits : ∀ n ≤ u, fitsI64 (n : ℚ) = true := by
    intro n hn
    have hlt : (n : ℚ) < 2 ^ 63 := by
      have : n < 2 ^ 63 := by omega
      exact_mod_cast this
    have hnonneg : (0 : ℚ) ≤ n := n.cast_nonneg
    rw [fitsI64, Bool.and_eq_true, decide_eq_true_eq, decide_eq_true_eq]
    exact ⟨by linarith [show (0 : ℚ) < 2 ^ 63 by norm_num], hlt⟩
  cases mode with
  | decimal =>
    rcases h.2 with ⟨neg, hneg, rfl⟩ | ⟨n, rfl, rfl⟩
    · have hlt : |bis u| < 2 ^ 200 := by
        rw [abs_of_nonneg (by unfold bis; positivity), bis, div_lt_iff₀ (by positivity)]
        have hcast : ((u : Int) : ℚ) < 10 ^ 28 := by exact_mod_cast hu28
        linarith [show (10 : ℚ) ^ 28 < 2 ^ 200 * 10 ^ 8 by norm_num]
      refine ⟨_, numeric_fixedText_eq neg (by norm_num) u, ?_⟩
      rw [fixedVal_eight hneg, toDouble_of_lt hlt]
      exact (TypedAs.typedFloat _ _).units hu28 (abs_round_bis_sub_lt hu)
    · refine ⟨.int n, ?_, (TypedAs.int n).units hu28 ?_⟩
      · rw [numeric_natText_eq, if_pos (hfits n (by omega))]
      · push_cast
        norm_num
  | integer =>
    obtain rfl : s = natText u := h.2
    refine ⟨.int u, by rw [numeric_natText_eq, if_pos (hfits u le_rfl)], ?_, by simp [Val.eq]⟩
    rw [Bismuth.units, if_neg (by simp)]
    change Py.decimal (natText u) >>= truncate = _
    rw [decimal_natText (hu28.trans (by norm_num)), Except.ok_bind]
    simp [truncate, Number.ofRat]

/-! ## The scan -/

/-- Rows whose rewards are below `2 ^ 26`. -/
def RewardsBelow (mode : Mode) (rows : List Row) : Prop :=
  ∀ r ∈ rows, ∃ u < 2 ^ 26 * 10 ^ 8, MoneyText mode r.reward u

theorem RewardsBelow.back (h : RewardsBelow mode rows) (hback : List.Forall₂ (Row.Back mode) rows rows') :
    RewardsBelow mode rows' := by
  intro r' hr'
  obtain ⟨r, hr, hb⟩ := hback.exists_left hr'
  obtain ⟨u, hu, hmoney⟩ := h r hr
  refine ⟨u, hu, ?_⟩
  rcases hb.reward with he | ⟨u', hu', he⟩
  · rwa [he]
  · obtain rfl : u = u' := by
      rw [hmoney.numUnits] at hu'
      exact_mod_cast Except.ok.inj hu'
    rw [he]
    exact .moneyText mode hmoney.1

/-- The rows above a height that credit the address, with their positions. -/
def credited (a : Text) (above : Int) (blocks : List (Nat × List Row)) : List (Pos × Row) :=
  blocks.flatMap (touched fun pos r => above < pos.1 && r.recipient = a)

def rewardsOf (mode : Mode) (es : List (Pos × Row)) : Int := (es.map fun e => unitsOf mode e.2.reward).sum

theorem touched_and (q q' : Pos → Row → Bool) (b : Nat × List Row) :
    touched (fun pos r => q pos r && q' pos r) b = (touched q b).filter fun e => q' e.1 e.2 := by
  rw [touched, touched, List.filter_map, List.filter_filter]
  congr 1
  refine List.filter_congr fun e _ => ?_
  rw [Bool.and_comm]
  rfl

theorem credited_filter (h : above ≤ above') (a : Text) (blocks : List (Nat × List Row)) :
    credited a above' blocks = (credited a above blocks).filter fun e => above' < e.1.1 := by
  rw [credited, credited, List.filter_flatMap]
  congr 1
  funext b
  rw [← touched_and _ fun pos _ => decide (above' < pos.1)]
  congr 1
  funext pos r
  by_cases habove : above' < pos.1
  · simp [habove, lt_of_le_of_lt h habove]
  · simp [habove]

theorem credited_append (a : Text) (above : Int) (blocks more : List (Nat × List Row)) :
    credited a above (blocks ++ more) = credited a above blocks ++ credited a above more := List.flatMap_append

theorem mem_credited : e ∈ credited a above blocks ↔
    ∃ b ∈ blocks, b.2[e.1.2]? = some e.2 ∧ e.1.1 = (b.1 : Int) ∧ above < e.1.1 ∧ e.2.recipient = a := by
  simp [credited, List.mem_flatMap, mem_touched]

theorem rewardsOf_append (mode : Mode) (es es' : List (Pos × Row)) :
    rewardsOf mode (es ++ es') = rewardsOf mode es + rewardsOf mode es' := by simp [rewardsOf]

theorem rewardsOf_eq_zero {es : List (Pos × Row)} (h : ∀ e ∈ es, unitsOf mode e.2.reward = 0) :
    rewardsOf mode es = 0 := by
  refine List.sum_eq_zero fun u hu => ?_
  obtain ⟨e, he, rfl⟩ := List.mem_map.1 hu
  exact h e he

/-- A part of some rewards, of which none is negative, is not more than all of them. -/
theorem rewardsOf_filter_le {es : List (Pos × Row)} (h : ∀ e ∈ es, 0 ≤ unitsOf mode e.2.reward)
    (p : Pos × Row → Bool) : rewardsOf mode (es.filter p) ≤ rewardsOf mode es := by
  refine (List.filter_sublist.map _).sum_le_sum fun u hu => ?_
  obtain ⟨e, he, rfl⟩ := List.mem_map.1 hu
  exact h e he

theorem rewardsOf_filter_add (mode : Mode) (p : Pos × Row → Bool) (es : List (Pos × Row)) :
    rewardsOf mode (es.filter p) + rewardsOf mode (es.filter fun e => !p e) = rewardsOf mode es := by
  induction es with
  | nil => rfl
  | cons e es ih =>
    simp only [rewardsOf, List.filter_cons, List.map_cons, List.sum_cons] at ih ⊢
    cases p e <;> simp only [Bool.false_eq_true, if_false, if_true, Bool.not_true, Bool.not_false, List.map_cons,
      List.sum_cons] <;> omega

theorem collectRows_unlimited {st : Store} {ps : List Pos} {rs : List Row}
    (h : List.Forall₂ (fun pos r => st.rowAt P mode pos = some <$> typedRow r) ps rs) (keep : TypedRow → Bool) :
    st.collectRows P mode keep 0 ps = List.filter keep <$> rs.mapM typedRow := by
  induction h with
  | nil => rfl
  | @cons pos r ps rs hr _ ih =>
    rw [Store.collectRows, hr, List.mapM_cons]
    cases ht : typedRow r with
    | error e => rfl
    | ok t =>
      simp only [Except.map_ok, Except.ok_bind, ih, zero_ne_one, if_false, Nat.zero_sub]
      cases rs.mapM typedRow with
      | error e => cases keep t <;> rfl
      | ok ts => cases hk : keep t <;> simp [hk]

/-- The units of typed rows with such rewards, whether or not the zeros are counted. -/
theorem sum_units_typed (hrs : RewardsBelow mode rs)
    (h : List.Forall₂ (fun r t => typedRow r = .ok t) rs ts) : ∃ us,
    (ts.filter fun t => !t.reward.eq (.int 0)).mapM (fun t => units mode t.reward) = (.ok us : Except Err _) ∧
      us.sum = (rs.map fun r => unitsOf mode r.reward).sum := by
  induction h with
  | nil => exact ⟨[], rfl, rfl⟩
  | @cons r t rs ts hrt _ ih =>
    obtain ⟨us, hus, hsum⟩ := ih fun r hr => hrs r (by simp [hr])
    obtain ⟨u, hu, hmoney⟩ := hrs r (by simp)
    obtain ⟨v, hv, hunits, hzero⟩ := hmoney.units_typed hu
    obtain rfl : v = t.reward := Except.ok.inj (hv.symm.trans (typedRow_ok hrt).2.2.2.1)
    rw [List.map_cons, List.sum_cons, unitsOf_eq hmoney.units, ← hsum, List.filter_cons]
    cases hz : t.reward.eq (.int 0) with
    | true =>
      refine ⟨us, by simpa using hus, ?_⟩
      rw [hzero hz]
      simp
    | false =>
      refine ⟨u :: us, ?_, by simp⟩
      simp [hunits, hus]

namespace Shown
variable {st : Store} {blocks : List (Nat × List Row)}

/-- The scan meets the rows that credit the address, but for the last position of all. -/
theorem rewardUnitsSince (H : Shown P mode st blocks) (ha : a.length ≤ 56) (above : Int) :
    st.rewardUnitsSince P mode a above = if BoundFits (above + 1) then do
      let ts ← (((credited a above blocks).filter (·.1 ≠ lastPos)).map Prod.snd).reverse.mapM typedRow
      let us ← (ts.filter fun t => !t.reward.eq (.int 0)).mapM fun t => units mode t.reward
      return us.sum
    else .error .structError := by
  by_cases hfit : BoundFits (above + 1)
  · have hfits : BoundsFit (some (above + 1)) none := ⟨by simpa using hfit, by simp⟩
    obtain ⟨ps, hps, hsorted, hmem⟩ := H.addrIter ha hfits .recipient true
    have hcredited : blocks.flatMap (touched fun pos r => inBounds (some (above + 1)) none pos.1 &&
        (reachable none pos && touches (some .recipient) a r)) = (credited a above blocks).filter (·.1 ≠ lastPos) := by
      rw [credited, List.filter_flatMap]
      congr 1
      funext b
      rw [← touched_and _ fun pos _ => decide (pos ≠ lastPos)]
      congr 1
      funext pos r
      simp only [inBounds, Option.all_some, Option.all_none, Bool.and_true, reachable, Option.isSome_none, Bool.false_or,
        touches, Int.add_one_le_iff]
      rw [Bool.and_assoc, Bool.and_comm (decide (pos ≠ lastPos))]
    rw [scan_eq H.sorted hsorted hmem, if_pos rfl, hcredited] at hps
    have hrows : List.Forall₂ (fun pos r => st.rowAt P mode pos = some <$> typedRow r)
        (((credited a above blocks).filter (·.1 ≠ lastPos)).map Prod.fst).reverse
        (((credited a above blocks).filter (·.1 ≠ lastPos)).map Prod.snd).reverse := by
      rw [← List.map_reverse, ← List.map_reverse, List.forall₂_map_left_iff, List.forall₂_map_right_iff,
        List.forall₂_same]
      intro e he
      obtain ⟨b, hb, he⟩ := List.mem_flatMap.1 (List.mem_filter.1 (List.mem_reverse.1 he)).1
      obtain ⟨hr, hn, -⟩ := mem_touched.1 he
      rw [← H.rowAt b hb e.1.2 e.2 hr, ← hn]
    rw [if_pos hfit, Store.rewardUnitsSince, hps, Except.ok_bind, collectRows_unlimited hrows]
    cases (((credited a above blocks).filter (·.1 ≠ lastPos)).map Prod.snd).reverse.mapM typedRow <;> rfl
  · have hfits : ¬BoundsFit (some (above + 1)) none := fun h => hfit (h.1 _ rfl)
    rw [if_neg hfit, Store.rewardUnitsSince, addrIter_eq, if_neg hfits]
    rfl

end Shown

theorem toDecimal_of_lt {u : Int} (h : |u| < 10 ^ 28) : ∃ x, toDecimal u = (.ok x : Except Err Number) ∧ IsBis x u := by
  have hx : IsBis (.ofRat (bis u)) u := ⟨h, _, rfl⟩
  obtain ⟨y, hy, hbis⟩ := hx.quantize (ρ := Reject)
  refine ⟨y, ?_, hbis⟩
  have hround := rounded_bis (ρ := Reject) h
  rw [bis] at hround
  simp only [toDecimal, div, Number.ofRat, cast_satoshisPerBis]
  rw [if_neg (by norm_num), hround, Except.ok_bind, ← hy, bis]

/-- What the scan needs to count some rows above a height. -/
structure Countable (mode : Mode) (above : Int) (es : List (Pos × Row)) : Prop where
  bound : BoundFits (above + 1)
  typed : ∀ e ∈ es, e.1 ≠ lastPos → ∃ t, typedRow e.2 = .ok t
  last : ∀ e ∈ es, e.1 = lastPos → unitsOf mode e.2.reward = 0
  total : rewardsOf mode es < 10 ^ 28

namespace Shown
variable {st : Store} {blocks : List (Nat × List Row)}

section
variable (hbelow : ∀ b ∈ blocks, RewardsBelow mode b.2)
include hbelow

theorem credited_nonneg (a : Text) (above : Int) :
    ∀ e ∈ credited a above blocks, 0 ≤ unitsOf mode e.2.reward := by
  intro e he
  obtain ⟨b, hb, hr, -⟩ := mem_credited.1 he
  obtain ⟨u, -, hu⟩ := hbelow b hb e.2 (List.mem_of_getElem? hr)
  rw [unitsOf_eq hu.units]
  exact Int.natCast_nonneg u

theorem counted_iff (H : Shown P mode st blocks)
    (ha : a.length ≤ 56) (above : Int) :
    (∃ x, (st.rewardUnitsSince P mode a above >>= toDecimal) = .ok x ∧
      IsBis x (rewardsOf mode (credited a above blocks))) ↔ Countable mode above (credited a above blocks) := by
  have hnonneg := credited_nonneg hbelow a above
  have hrs : RewardsBelow mode (((credited a above blocks).filter (·.1 ≠ lastPos)).map Prod.snd).reverse := by
    intro r hr
    obtain ⟨e, he, rfl⟩ := List.mem_map.1 (List.mem_reverse.1 hr)
    obtain ⟨b, hb, hr, -⟩ := mem_credited.1 (List.mem_filter.1 he).1
    exact hbelow b hb e.2 (List.mem_of_getElem? hr)
  have hsum : (((((credited a above blocks).filter (·.1 ≠ lastPos)).map Prod.snd).reverse).map
      fun r => unitsOf mode r.reward).sum = rewardsOf mode ((credited a above blocks).filter (·.1 ≠ lastPos)) := by
    rw [List.map_reverse, List.sum_reverse, List.map_map, rewardsOf]
    rfl
  have hsplit := rewardsOf_filter_add mode (fun e => decide (e.1 ≠ lastPos)) (credited a above blocks)
  rw [H.rewardUnitsSince ha]
  constructor
  · rintro ⟨x, hx, hbis⟩
    obtain ⟨w, hw, hdec⟩ := Except.bind_eq_ok.1 hx
    split at hw
    · rename_i hfit
      obtain ⟨ts, hts, hw⟩ := Except.bind_eq_ok.1 hw
      obtain ⟨us, hus, htotal⟩ := sum_units_typed hrs (Except.mapM_eq_ok.1 hts)
      rw [hus, Except.ok_bind] at hw
      obtain rfl := Except.ok.inj hw
      have hw := (IsBis.of_toDecimal hdec).unique hbis
      refine ⟨hfit, ?_, ?_, (abs_lt.1 hbis.1).2⟩
      · intro e he hne
        have hmem : e.2 ∈ (((credited a above blocks).filter (·.1 ≠ lastPos)).map Prod.snd).reverse :=
          List.mem_reverse.2 (List.mem_map_of_mem (List.mem_filter.2 ⟨he, decide_eq_true hne⟩))
        obtain ⟨t, -, ht⟩ := Except.exists_mem_of_mapM hts hmem
        exact ⟨t, ht⟩
      · intro e he heq
        have hrest : rewardsOf mode ((credited a above blocks).filter fun e => !decide (e.1 ≠ lastPos)) = 0 := by
          omega
        have hmem : e ∈ (credited a above blocks).filter fun e => !decide (e.1 ≠ lastPos) :=
          List.mem_filter.2 ⟨he, by simp [heq]⟩
        have hle := List.single_le_sum (fun u hu => ?_) _
          (List.mem_map_of_mem (f := fun e : Pos × Row => unitsOf mode e.2.reward) hmem)
        · have hge := hnonneg e he
          rw [rewardsOf] at hrest
          omega
        · obtain ⟨e', he', rfl⟩ := List.mem_map.1 hu
          exact hnonneg e' (List.mem_filter.1 he').1
    · cases hw
  · intro hc
    have htyped : ∀ r ∈ (((credited a above blocks).filter (·.1 ≠ lastPos)).map Prod.snd).reverse,
        ∃ t, typedRow r = .ok t := by
      intro r hr
      obtain ⟨e, he, rfl⟩ := List.mem_map.1 (List.mem_reverse.1 hr)
      obtain ⟨he, hne⟩ := List.mem_filter.1 he
      exact hc.typed e he (of_decide_eq_true hne)
    obtain ⟨ts, hts⟩ := Except.exists_mapM_ok htyped
    obtain ⟨us, hus, htotal⟩ := sum_units_typed hrs (Except.mapM_eq_ok.1 hts)
    have hlast : rewardsOf mode ((credited a above blocks).filter fun e => !decide (e.1 ≠ lastPos)) = 0 := by
      refine rewardsOf_eq_zero fun e he => ?_
      obtain ⟨he, heq⟩ := List.mem_filter.1 he
      exact hc.last e he (by simpa using heq)
    have hall : us.sum = rewardsOf mode (credited a above blocks) := by omega
    have hge : 0 ≤ rewardsOf mode (credited a above blocks) := by
      refine List.sum_nonneg fun u hu => ?_
      obtain ⟨e, he, rfl⟩ := List.mem_map.1 hu
      exact hnonneg e he
    obtain ⟨x, hx, hbis⟩ := toDecimal_of_lt (abs_lt.2 ⟨by omega, hc.total⟩)
    refine ⟨x, ?_, hbis⟩
    rw [if_pos hc.bound, hts, Except.ok_bind, hus, Except.ok_bind, Except.pure_eq_ok, Except.ok_bind, hall, hx]

/-- Blocks that do not reward the address add nothing, and at a greater height less is counted. -/
theorem rewardsOf_later {more : List (Nat × List Row)}
    (hmore : ∀ b ∈ more, ∀ r ∈ b.2, r.recipient = a → unitsOf mode r.reward = 0) {above later : Int}
    (hlater : above ≤ later) :
    rewardsOf mode (credited a later (blocks ++ more)) ≤ rewardsOf mode (credited a above blocks) ∧
      ((∀ b ∈ blocks, (b.1 : Int) ≤ later) → rewardsOf mode (credited a later (blocks ++ more)) = 0) := by
  have hzero : rewardsOf mode (credited a later more) = 0 := by
    refine rewardsOf_eq_zero fun e he => ?_
    obtain ⟨b, hb, hr, -, -, hrec⟩ := mem_credited.1 he
    exact hmore b hb e.2 (List.mem_of_getElem? hr) hrec
  rw [credited_append, rewardsOf_append, hzero, add_zero]
  refine ⟨?_, fun hall => ?_⟩
  · rw [credited_filter hlater]
    exact rewardsOf_filter_le (credited_nonneg hbelow a above) _
  · refine rewardsOf_eq_zero fun e he => ?_
    obtain ⟨b, hb, -, hn, habove, -⟩ := mem_credited.1 he
    have := hall b hb
    omega

end

end Shown

/-- After any commits of rows with rewards below `2 ^ 26`, and rollbacks, the immature rewards are those of the
rows that credit the address above the validation height less the maturity, if and only if these can be counted.
When no later block rewards the address they do not grow with the height, and they end. -/
theorem immatureCoinbase_exact {st : Store} (hst : st.Reached P mode (RewardsBelow mode)) {a : Text}
    (ha : a.length ≤ 56) (validateHeight maturity : Int) : ∃ blocks, st.chainRows P mode = .ok blocks ∧
      ((∃ x, st.immatureCoinbase P mode a validateHeight maturity = .ok x ∧
        IsBis x (rewardsOf mode (credited a (validateHeight - maturity) blocks))) ↔
        Countable mode (validateHeight - maturity) (credited a (validateHeight - maturity) blocks)) ∧
      ∀ more : List (Nat × List Row),
        (∀ b ∈ more, ∀ r ∈ b.2, r.recipient = a → unitsOf mode r.reward = 0) → ∀ later ≥ validateHeight,
        rewardsOf mode (credited a (later - maturity) (blocks ++ more)) ≤
          rewardsOf mode (credited a (validateHeight - maturity) blocks) ∧
        ((∀ b ∈ blocks, (b.1 : Int) + maturity ≤ later) →
          rewardsOf mode (credited a (later - maturity) (blocks ++ more)) = 0) := by
  obtain ⟨blocks, H, hblocks⟩ := hst.shown
  have hbelow : ∀ b ∈ blocks, RewardsBelow mode b.2 := by
    intro b hb
    obtain ⟨rows, hrows, hback⟩ := hblocks b hb
    exact hrows.back hback
  refine ⟨blocks, H.chainRows, H.counted_iff hbelow ha _, ?_⟩
  intro more hmore later hlater
  obtain ⟨hle, hzero⟩ := Shown.rewardsOf_later hbelow hmore
    (show validateHeight - maturity ≤ later - maturity by omega)
  refine ⟨hle, fun hall => hzero fun b hb => ?_⟩
  have := hall b hb
  omega

theorem sampleBlocks_rewards : RewardsBelow .decimal sampleBlocks.1 := by
  intro r hr
  simp only [sampleBlocks, List.mem_cons, List.not_mem_nil, or_false] at hr
  rcases hr with rfl | rfl
  · exact ⟨0, by norm_num, by norm_num, .inl ⟨false, by simp, rfl⟩⟩
  · exact ⟨100000000, by norm_num, by norm_num, .inl ⟨false, by simp, rfl⟩⟩

/-- The reward of the first block at the second one. -/
theorem immatureCoinbase_exact_sample : ∃ st blocks x, sampleStore = .ok st ∧
    st.chainRows .toy .decimal = .ok blocks ∧ st.immatureCoinbase .toy .decimal ['a'] 2 100 = .ok x ∧
    IsBis x (rewardsOf .decimal (credited ['a'] (2 - 100) blocks)) := by
  have hrun : (do
      let st ← sampleStore
      let blocks ← st.chainRows .toy .decimal
      return decide (rewardsOf .decimal (credited ['a'] (2 - 100) blocks) < 10 ^ 28 ∧
        ∀ e ∈ credited ['a'] (2 - 100) blocks, e.1 ≠ lastPos ∧ (typedRow e.2).toBool)) =
      (.ok true : Except Err Bool) := by decide +kernel
  obtain ⟨st, h, hrun⟩ := Except.bind_eq_ok.1 hrun
  obtain ⟨blocks, hblocks, hiff, -⟩ := immatureCoinbase_exact (sampleStore_reached sampleBlocks_rewards h)
    (a := ['a']) (by decide) 2 100
  rw [hblocks, Except.ok_bind] at hrun
  obtain ⟨htotal, hall⟩ := of_decide_eq_true (Except.ok.inj hrun)
  have hcount : Countable .decimal (2 - 100) (credited ['a'] (2 - 100) blocks) := by
    refine ⟨by decide, fun e he _ => ?_, fun e he hlast => absurd hlast (hall e he).1, htotal⟩
    cases ht : typedRow e.2 with
    | ok t => exact ⟨t, rfl⟩
    | error err =>
      have := (hall e he).2
      rw [ht] at this
      cases this
  obtain ⟨x, hx, hbis⟩ := hiff.2 hcount
  exact ⟨st, blocks, x, h, hblocks, hx, hbis⟩

/-- No scan can start above the height `2 ^ 63`, and a row whose timestamp is beyond the floats cannot be read. -/
theorem immatureCoinbase_raises :
    (∃ st, sampleStore = .ok st ∧ st.Reached .toy .decimal (RewardsBelow .decimal) ∧
      st.immatureCoinbase .toy .decimal ['a'] (2 ^ 63) 0 = .error .structError) ∧
    ∃ st : Store, st.Reached .toy .decimal (RewardsBelow .decimal) ∧
      st.immatureCoinbase .toy .decimal ['a'] 2 100 = .error .overflowError := by
  have hrun : (do
      let st ← sampleStore
      return st.immatureCoinbase .toy .decimal ['a'] (2 ^ 63) 0 : Except Err _) = .ok (.error .structError) := by
    decide +kernel
  have hrun' : (do
      let st ← commitBlock .toy .decimal {} 1 (hex [1])
        [{ sampleRow 1 [1] 0 0 with timestamp := List.replicate 400 '9' }] none none
      return st.immatureCoinbase .toy .decimal ['a'] 2 100 : Except Err _) = .ok (.error .overflowError) := by
    decide +kernel
  obtain ⟨st, h, hst⟩ := Except.bind_eq_ok.1 hrun
  obtain ⟨st', h', hst'⟩ := Except.bind_eq_ok.1 hrun'
  refine ⟨⟨st, h, sampleStore_reached sampleBlocks_rewards h, Except.ok.inj hst⟩, st', ?_, Except.ok.inj hst'⟩
  refine .single (.commit (fun r hr => ?_) h')
  rw [List.mem_singleton.1 hr]
  exact ⟨0, by norm_num, by norm_num, .inl ⟨false, by simp, rfl⟩⟩

end Bismuth
