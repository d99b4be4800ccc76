import Bismuth.Py.Text

/-!
# Old protocol versions

`Fork.limit_version` takes versions out of the list of allowed ones while it goes through that list.
-/

namespace Bismuth
open Py

def versionsRemove : List Text :=
  [['m', 'a', 'i', 'n', 'n', 'e', 't', '0', '0', '2', '0'], ['m', 'a', 'i', 'n', 'n', 'e', 't', '0', '0', '1', '9'],
    ['m', 'a', 'i', 'n', 'n', 'e', 't', '0', '0', '1', '8'], ['m', 'a', 'i', 'n', 'n', 'e', 't', '0', '0', '1', '7']]

def marked (v : Text) : Bool := v ∈ versionsRemove

/-- The loop of `limit_version` at the position `i`: the iterator keeps its position when the list gets shorter, and
`remove` takes out the first equal version. -/
def limitLoop : (fuel i : Nat) → List Text → List Text
  | 0, _, vs => vs
  | fuel + 1, i, vs =>
    match vs[i]? with
    | none => vs
    | some v => limitLoop fuel (i + 1) (if marked v then vs.erase v else vs)

/-- `limit_version`: each round passes a position, so that the length bounds their number. -/
def limitVersion (vs : List Text) : List Text := limitLoop vs.length 0 vs

/-! ## What is passed over -/

/-- The number of marked versions right after one that is taken out. -/
def passedOver : List Text → Nat
  | [] => 0
  | [_] => 0
  | v :: w :: vs => if marked v then (if marked w then 1 else 0) + passedOver vs else passedOver (w :: vs)

theorem passedOver_eq_zero {vs : List Text} :
    passedOver vs = 0 ↔ vs.IsChain fun v w => ¬(marked v = true ∧ marked w = true) := by
  induction vs using passedOver.induct with
  | case1 => simp [passedOver]
  | case2 v => simp [passedOver]
  | case3 v w vs hv ih =>
    rw [passedOver, if_pos hv, Nat.add_eq_zero_iff, ih, List.isChain_cons_cons]
    by_cases hw : marked w = true
    · simp [hv, hw]
    · cases vs with
      | nil => simp [hw]
      | cons x vs => simp [List.isChain_cons_cons, hw]
  | case4 v w vs hv ih =>
    rw [passedOver, if_neg hv, ih, List.isChain_cons_cons]
    simp [hv]

/-! ## The loop -/

/-- Taking out one of the versions that were passed leaves the position at the version after the next one. -/
theorem erase_passed (done : List Text) (v : Text) (vs : List Text) :
    ∃ done', (done ++ v :: vs).erase v = done' ++ vs ∧ done'.Perm done := by
  refine ⟨(done ++ [v]).erase v, ?_, ?_⟩
  · rw [← List.erase_append_left vs (by simp), List.append_assoc, List.singleton_append]
  · have hperm : (done ++ [v]).Perm (v :: done) := List.perm_append_comm
    simpa using hperm.erase v

theorem filter_erase_of_marked {v : Text} (hv : marked v = true) (vs : List Text) :
    (vs.erase v).filter (fun w => !marked w) = vs.filter fun w => !marked w := by
  induction vs with
  | nil => rfl
  | cons w vs ih =>
    rw [List.erase_cons]
    split
    · rename_i hw
      rw [List.filter_cons_of_neg (by rw [beq_iff_eq.1 hw, hv]; simp)]
    · rw [List.filter_cons, List.filter_cons, ih]

theorem filter_limitLoop (fuel i : Nat) (vs : List Text) :
    (limitLoop fuel i vs).filter (fun w => !marked w) = vs.filter fun w => !marked w := by
  induction fuel generalizing i vs with
  | zero => rfl
  | succ fuel ih =>
    rw [limitLoop]
    split
    · rfl
    · rename_i v _
      rw [ih]
      split
      · rename_i hv
        exact filter_erase_of_marked hv vs
      · rfl

/-- The marked versions that are left are those that were passed over, wherever they stand. -/
theorem countP_limitLoop {fuel : Nat} (done vs : List Text) (hfuel : vs.length ≤ fuel) :
    (limitLoop fuel done.length (done ++ vs)).countP marked = done.countP marked + passedOver vs := by
  induction fuel generalizing done vs with
  | zero =>
    obtain rfl : vs = [] := List.eq_nil_of_length_eq_zero (by omega)
    simp [limitLoop, passedOver]
  | succ fuel ih =>
    cases vs with
    | nil => simp [limitLoop, passedOver]
    | cons v vs =>
      rw [limitLoop, List.getElem?_append_right le_rfl, Nat.sub_self, List.getElem?_cons_zero]
      dsimp only
      rw [List.length_cons] at hfuel
      by_cases hv : marked v = true
      · rw [if_pos hv]
        obtain ⟨done', herase, hperm⟩ := erase_passed done v vs
        rw [herase, ← hperm.countP_eq]
        cases vs with
        | nil =>
          have hend : (done' ++ [])[done.length + 1]? = none := by
            rw [List.append_nil, List.getElem?_eq_none]
            rw [hperm.length_eq]
            omega
          cases fuel with
          | zero => simp [limitLoop, passedOver]
          | succ fuel => rw [limitLoop, hend, List.append_nil, passedOver, add_zero]
        | cons w vs =>
          rw [List.length_cons] at hfuel
          have hstep := ih (done' ++ [w]) vs (by omega)
          rw [List.length_append, List.length_singleton, hperm.length_eq, List.append_assoc, List.singleton_append]
            at hstep
          rw [hstep, List.countP_append, List.countP_singleton, passedOver, if_pos hv, add_assoc]
      · rw [if_neg hv]
        have hstep := ih (done ++ [v]) vs (by omega)
        rw [List.length_append, List.length_singleton, List.append_assoc, List.singleton_append] at hstep
        rw [hstep, List.countP_append, List.countP_singleton, if_neg hv, add_zero]
        cases vs with
        | nil => rfl
        | cons w vs => rw [passedOver, if_neg hv]

/-- **Old versions are removed** if and only if no two of them stand next to each other: then exactly the other versions
are left, in their order. -/
theorem limitVersion_removes_iff (vs : List Text) :
    ((∀ v ∈ limitVersion vs, v ∉ versionsRemove) ∧
      (limitVersion vs).filter (· ∉ versionsRemove) = vs.filter (· ∉ versionsRemove)) ↔
    vs.IsChain fun v w => ¬(v ∈ versionsRemove ∧ w ∈ versionsRemove) := by
  have hmarked : ∀ v, marked v = true ↔ v ∈ versionsRemove := fun v => decide_eq_true_iff
  have hfilter : ∀ l : List Text, l.filter (· ∉ versionsRemove) = l.filter fun w => !marked w := by
    intro l
    refine List.filter_congr fun v _ => ?_
    rw [marked, decide_not]
  have hcount := countP_limitLoop [] vs le_rfl
  rw [List.nil_append, List.countP_nil, zero_add] at hcount
  rw [limitVersion, hfilter, hfilter, and_iff_left (filter_limitLoop ..)]
  simp only [← hmarked]
  rw [← passedOver_eq_zero, ← hcount, List.countP_eq_zero]
  rfl

/-- The second of two old versions stays. -/
theorem limitVersion_leaves :
    limitVersion [['m', 'a', 'i', 'n', 'n', 'e', 't', '0', '0', '2', '0'],
      ['m', 'a', 'i', 'n', 'n', 'e', 't', '0', '0', '1', '9'], ['m', 'a', 'i', 'n', 'n', 'e', 't', '0', '0', '2', '1']] =
      [['m', 'a', 'i', 'n', 'n', 'e', 't', '0', '0', '1', '9'], ['m', 'a', 'i', 'n', 'n', 'e', 't', '0', '0', '2', '1']] ∧
    ['m', 'a', 'i', 'n', 'n', 'e', 't', '0', '0', '1', '9'] ∈ versionsRemove := by
  decide

end Bismuth
