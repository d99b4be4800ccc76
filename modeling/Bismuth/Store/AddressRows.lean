import Bismuth.Lib.Groups
import Bismuth.Store.Placed
import Bismuth.Store.Scan
import Mathlib

/-!
# The history of an address

`address_rows` merges the keys of the two roles, and puts the rows of each block in their order again: it
returns what a filter of the blocks gives.
-/

namespace Bismuth
open Py

variable {P : Prims} {mode : Mode}

/-! ## Positions in the order of a scan -/

/-- `a` is met before `b` by a scan in the given direction. -/
def Pos.Ahead (reverse : Bool) (a b : Pos) : Prop :=
  if reverse then b.1 < a.1 ∨ b.1 = a.1 ∧ b.2 < a.2 else a.1 < b.1 ∨ a.1 = b.1 ∧ a.2 < b.2

namespace Pos.Ahead
variable {reverse : Bool} {a b c : Pos}

theorem irrefl (a : Pos) : ¬Ahead reverse a a := by
  cases reverse <;> simp [Ahead]

theorem trans (h : Ahead reverse a b) (h' : Ahead reverse b c) : Ahead reverse a c := by
  cases reverse <;> simp only [Ahead, Bool.false_eq_true, if_false, if_true] at h h' ⊢ <;> omega

theorem trichotomy (reverse : Bool) (a b : Pos) : Ahead reverse a b ∨ b = a ∨ Ahead reverse b a := by
  rw [Prod.ext_iff]
  cases reverse <;> simp only [Ahead, Bool.false_eq_true, if_false, if_true] <;> omega

instance : Std.Irrefl (Ahead reverse) := ⟨irrefl⟩

instance : Std.Antisymm (Ahead reverse) := ⟨fun a _ h h' => absurd (h.trans h') (irrefl a)⟩

end Pos.Ahead

def Pos.NotAfter (reverse : Bool) (a b : Pos) : Prop := a = b ∨ Pos.Ahead reverse a b

instance : Std.Antisymm (Pos.NotAfter reverse) := ⟨fun a b h h' => by
  rcases h with rfl | h
  · rfl
  · rcases h' with rfl | h'
    · rfl
    · exact absurd (h.trans h') (Pos.Ahead.irrefl a)⟩

theorem before_iff {a b : Pos} :
    (if reverse then Pos.before b a else Pos.before a b) = true ↔ Pos.Ahead reverse a b := by
  cases reverse <;> simp [Pos.before, Pos.Ahead]

/-- The merge of two streams in the order of the scan is in that order and has the positions of both. -/
theorem mergePos_spec (has : as.Pairwise (Pos.Ahead reverse)) (hbs : bs.Pairwise (Pos.Ahead reverse))
    (hfuel : as.length + bs.length ≤ fuel) :
    (mergePos reverse fuel as bs).Pairwise (Pos.NotAfter reverse) ∧
      ∀ x, x ∈ mergePos reverse fuel as bs ↔ x ∈ as ∨ x ∈ bs := by
  induction fuel generalizing as bs with
  | zero =>
    obtain rfl : as = [] := List.eq_nil_of_length_eq_zero (by omega)
    obtain rfl : bs = [] := List.eq_nil_of_length_eq_zero (by omega)
    simp [mergePos]
  | succ fuel ih =>
    cases as with
    | nil =>
      cases bs with
      | nil => simp [mergePos]
      | cons b bs => exact ⟨hbs.imp .inr, by simp [mergePos]⟩
    | cons a as =>
      cases bs with
      | nil => exact ⟨has.imp .inr, by simp [mergePos]⟩
      | cons b bs =>
        have has' := List.pairwise_cons.1 has
        have hbs' := List.pairwise_cons.1 hbs
        simp only [List.length_cons] at hfuel
        by_cases hab : Pos.Ahead reverse a b
        · obtain ⟨hsorted, hmem⟩ := ih has'.2 hbs (by simp only [List.length_cons]; omega)
          rw [mergePos, if_pos (before_iff.2 hab)]
          refine ⟨List.pairwise_cons.2 ⟨fun x hx => .inr ?_, hsorted⟩, fun x => ?_⟩
          · rcases (hmem x).1 hx with hx | hx
            · exact has'.1 x hx
            · rcases List.mem_cons.1 hx with rfl | hx
              · exact hab
              · exact hab.trans (hbs'.1 x hx)
          · rw [List.mem_cons, hmem, List.mem_cons (a := x) (b := a), or_assoc]
        · have hba : Pos.NotAfter reverse b a := (Pos.Ahead.trichotomy reverse a b).resolve_left hab
          obtain ⟨hsorted, hmem⟩ := ih has hbs'.2 (by simp only [List.length_cons]; omega)
          rw [mergePos, if_neg fun h => hab (before_iff.1 h)]
          refine ⟨List.pairwise_cons.2 ⟨fun x hx => ?_, hsorted⟩, fun x => ?_⟩
          · rcases (hmem x).1 hx with hx | hx
            · rcases List.mem_cons.1 hx with rfl | hx
              · exact hba
              · exact .inr (hba.elim (fun h => h ▸ has'.1 x hx) fun h => h.trans (has'.1 x hx))
            · exact .inr (hbs'.1 x hx)
          · rw [List.mem_cons, hmem, List.mem_cons, List.mem_cons]
            tauto

theorem destutter_spec {ps : List Pos} (h : ps.Pairwise (Pos.NotAfter reverse)) :
    (ps.destutter (· ≠ ·)).Pairwise (Pos.Ahead reverse) ∧ ∀ x, x ∈ ps.destutter (· ≠ ·) ↔ x ∈ ps := by
  rw [h.destutter_eq_dedup]
  refine ⟨?_, fun x => List.mem_dedup⟩
  refine ((h.sublist (List.dedup_sublist ps)).and (List.nodup_dedup ps)).imp fun {a b} hab => ?_
  exact hab.1.resolve_left hab.2

/-! ## Scans of one address -/

def BoundsFit (lo hi : Option Int) : Prop := (∀ l ∈ lo, BoundFits l) ∧ ∀ h ∈ hi, BoundFits (h + 1)

instance : Decidable (BoundsFit lo hi) := inferInstanceAs (Decidable (_ ∧ _))

def inBounds (lo hi : Option Int) (n : Int) : Bool := lo.all (· ≤ n) && hi.all (n ≤ ·)

/-- The position that a scan without an upper bound leaves out. -/
def lastPos : Pos := (2 ^ 63 - 1, 65535)

def reachable (hi : Option Int) (pos : Pos) : Bool := hi.isSome || pos ≠ lastPos

def touches (role : Option Role) (a : Text) (r : Row) : Bool :=
  match role with
  | some .sender => r.address = a
  | some .recipient => r.recipient = a
  | none => r.address = a || r.recipient = a

def startKey (p : Bytes) : Option Int → Bytes
  | some lo => p ++ beBytes 8 (lo + 2 ^ 63).toNat
  | none => p

def stopKey (p : Bytes) : Option Int → Bytes
  | some hi => p ++ beBytes 8 (hi + 1 + 2 ^ 63).toNat
  | none => p ++ List.replicate 10 0xFF

def scanned (st : Store) (p : Bytes) (lo hi : Option Int) : List Pos :=
  (st.addr.entries.filter fun e => startKey p lo ≤ e.1 ∧ e.1 < stopKey p hi).map fun e => splitPos e.1

theorem addrIter_eq (st : Store) (role : Role) (a : Text) (reverse : Bool) (lo hi : Option Int) :
    st.addrIter role a reverse lo hi =
      if BoundsFit lo hi then
        .ok (if reverse then (scanned st (addrPrefix role a) lo hi).reverse else scanned st (addrPrefix role a) lo hi)
      else .error .structError := by
  cases lo with
  | none =>
    cases hi with
    | none =>
      rw [if_pos ⟨by simp, by simp⟩]
      rfl
    | some hi =>
      simp only [Store.addrIter, boundKey_eq]
      by_cases h : BoundFits (hi + 1)
      · rw [if_pos h, if_pos ⟨by simp, by simpa using h⟩]
        rfl
      · rw [if_neg h, if_neg fun hfit => h (hfit.2 hi rfl)]
        rfl
  | some lo =>
    simp only [Store.addrIter, boundKey_eq]
    by_cases hlo : BoundFits lo
    · rw [if_pos hlo]
      cases hi with
      | none =>
        rw [if_pos ⟨by simpa using hlo, by simp⟩]
        rfl
      | some hi =>
        dsimp only
        by_cases h : BoundFits (hi + 1)
        · rw [if_pos h, if_pos ⟨by simpa using hlo, by simpa using h⟩]
          rfl
        · rw [if_neg h, if_neg fun hfit => h (hfit.2 hi rfl)]
          rfl
    · rw [if_neg hlo, if_neg fun hfit => hlo (hfit.1 lo rfl)]
      rfl

theorem le_append_self (p q : Bytes) : p ≤ p ++ q := by
  rw [← not_lt]
  intro hlt
  have hlt' : p ++ q < p ++ [] := by rwa [List.append_nil]
  rw [List.append_lt_append_iff rfl] at hlt'
  exact hlt'.elim (lt_irrefl p) fun h => List.not_lt_nil q h.2

theorem startKey_le_iff (hlo : ∀ l ∈ lo, BoundFits l) (h : PosFits n i) (p : Bytes) :
    startKey p lo ≤ p ++ posBytes n i ↔ lo.all (· ≤ (n : Int)) := by
  cases lo with
  | none => exact iff_of_true (le_append_self p _) rfl
  | some lo =>
    rw [Option.all_some, decide_eq_true_iff]
    exact bound_le_iff (hlo lo rfl) h p

theorem lt_stopKey_iff (hhi : ∀ h ∈ hi, BoundFits (h + 1)) (h : PosFits n i) (p : Bytes) :
    p ++ posBytes n i < stopKey p hi ↔ hi.all ((n : Int) ≤ ·) ∧ reachable hi ((n : Int), i) := by
  cases hi with
  | none =>
    rw [stopKey, lt_open_end_iff h, reachable, lastPos]
    simp only [Option.all_none, true_and, Option.isSome_none, Bool.false_or, decide_eq_true_eq, ne_eq, Prod.mk.injEq]
    omega
  | some hi =>
    rw [Option.all_some, decide_eq_true_iff]
    exact (lt_bound_iff (hhi hi rfl) h p).trans ⟨fun h => ⟨h, rfl⟩, And.left⟩

theorem isPrefix_of_scanned (h : startKey p lo ≤ k) (h' : k < stopKey p hi) : p <+: k := by
  have hp : p ≤ startKey p lo := by
    cases lo with
    | none => exact le_rfl
    | some lo => exact le_append_self p _
  cases hi with
  | none => exact List.isPrefix_of_between (hp.trans h) h'
  | some hi => exact List.isPrefix_of_between (hp.trans h) h'

/-- The positions of the rows that satisfy `q`. -/
def PosOf (blocks : List (Nat × List Row)) (q : Pos → Row → Bool) (pos : Pos) : Prop :=
  ∃ b ∈ blocks, ∃ (i : Nat) (r : Row), b.2[i]? = some r ∧ pos = ((b.1 : Int), i) ∧ q pos r

theorem PosOf.congr {blocks : List (Nat × List Row)} {q q' : Pos → Row → Bool}
    (h : ∀ b ∈ blocks, ∀ (i : Nat) (r : Row), b.2[i]? = some r → q ((b.1 : Int), i) r = q' ((b.1 : Int), i) r) :
    PosOf blocks q pos ↔ PosOf blocks q' pos := by
  constructor
  · rintro ⟨b, hb, i, r, hr, rfl, hq⟩
    exact ⟨b, hb, i, r, hr, rfl, h b hb i r hr ▸ hq⟩
  · rintro ⟨b, hb, i, r, hr, rfl, hq⟩
    exact ⟨b, hb, i, r, hr, rfl, h b hb i r hr ▸ hq⟩

namespace Shown
variable {st : Store} {blocks : List (Nat × List Row)}

/-- A key of a scan is that of a row between the bounds with the address in the role. -/
theorem scanned_key (H : Shown P mode st blocks) (ha : a.length ≤ 56) (hfit : BoundsFit lo hi) (role : Role)
    (k : Bytes) :
    ((k, ()) ∈ st.addr.entries ∧ startKey (addrPrefix role a) lo ≤ k ∧ k < stopKey (addrPrefix role a) hi) ↔
      ∃ b ∈ blocks, ∃ (i : Nat) (r : Row), b.2[i]? = some r ∧ k = addrPrefix role a ++ posBytes b.1 i ∧
        inBounds lo hi b.1 ∧ reachable hi ((b.1 : Int), i) ∧ touches (some role) a r := by
  have hbounds : ∀ b ∈ blocks, ∀ (i : Nat) (r : Row), b.2[i]? = some r →
      ((startKey (addrPrefix role a) lo ≤ addrPrefix role a ++ posBytes b.1 i ∧
        addrPrefix role a ++ posBytes b.1 i < stopKey (addrPrefix role a) hi) ↔
        inBounds lo hi b.1 ∧ reachable hi ((b.1 : Int), i)) := by
    intro b hb i r hr
    rw [startKey_le_iff hfit.1 (H.fits b hb i r hr), lt_stopKey_iff hfit.2 (H.fits b hb i r hr), inBounds,
      Bool.and_eq_true, and_assoc]
  rw [OrdTable.mem_entries, H.addr]
  constructor
  · rintro ⟨⟨b, hb, i, r, hr, hk⟩, hstart, hstop⟩
    have hpre := isPrefix_of_scanned hstart hstop
    rcases hk with rfl | rfl
    · obtain ⟨rfl, rfl⟩ := addrPrefix_inj ha hpre
      obtain ⟨hin, hreach⟩ := (hbounds b hb i r hr).1 ⟨hstart, hstop⟩
      exact ⟨b, hb, i, r, hr, rfl, hin, hreach, by simp [touches]⟩
    · obtain ⟨rfl, rfl⟩ := addrPrefix_inj ha hpre
      obtain ⟨hin, hreach⟩ := (hbounds b hb i r hr).1 ⟨hstart, hstop⟩
      exact ⟨b, hb, i, r, hr, rfl, hin, hreach, by simp [touches]⟩
  · rintro ⟨b, hb, i, r, hr, rfl, hin, hreach, htouch⟩
    refine ⟨⟨b, hb, i, r, hr, ?_⟩, (hbounds b hb i r hr).2 ⟨hin, hreach⟩⟩
    cases role with
    | sender =>
      have hra : r.address = a := by simpa [touches] using htouch
      exact .inl (by rw [hra])
    | recipient =>
      have hra : r.recipient = a := by simpa [touches] using htouch
      exact .inr (by rw [hra])

theorem addrIter (H : Shown P mode st blocks) (ha : a.length ≤ 56) (hfit : BoundsFit lo hi) (role : Role)
    (reverse : Bool) : ∃ ps, st.addrIter role a reverse lo hi = .ok ps ∧ ps.Pairwise (Pos.Ahead reverse) ∧
      ∀ pos, pos ∈ ps ↔ PosOf blocks
        (fun pos r => inBounds lo hi pos.1 && (reachable hi pos && touches (some role) a r)) pos := by
  have hkey := H.scanned_key ha hfit role
  have hsorted : (scanned st (addrPrefix role a) lo hi).Pairwise (Pos.Ahead false) := by
    rw [scanned, List.pairwise_map]
    refine (st.addr.sorted.filter _).imp_of_mem fun {e e'} he he' hlt => ?_
    obtain ⟨he, hrange⟩ := List.mem_filter.1 he
    obtain ⟨he', hrange'⟩ := List.mem_filter.1 he'
    obtain ⟨b, hb, i, r, hr, hk, -⟩ := (hkey e.1).1 ⟨he, of_decide_eq_true hrange⟩
    obtain ⟨b', hb', i', r', hr', hk', -⟩ := (hkey e'.1).1 ⟨he', of_decide_eq_true hrange'⟩
    have hf := H.fits b hb i r hr
    have hf' := H.fits b' hb' i' r' hr'
    rw [hk, hk', List.append_lt_append_iff rfl, posBytes_lt_iff hf hf'] at hlt
    rw [hk, hk', hf.splitPos, hf'.splitPos, Pos.Ahead]
    simp only [lt_irrefl, true_and, false_or] at hlt
    simp only [Bool.false_eq_true, if_false]
    omega
  have hmem : ∀ pos, pos ∈ scanned st (addrPrefix role a) lo hi ↔ PosOf blocks
      (fun pos r => inBounds lo hi pos.1 && (reachable hi pos && touches (some role) a r)) pos := by
    intro pos
    simp only [scanned, List.mem_map, List.mem_filter, decide_eq_true_eq, PosOf, Bool.and_eq_true]
    constructor
    · rintro ⟨⟨k, ⟨⟩⟩, hk, rfl⟩
      obtain ⟨b, hb, i, r, hr, rfl, hq⟩ := (hkey k).1 hk
      have hpos := (H.fits b hb i r hr).splitPos (addrPrefix role a)
      exact ⟨b, hb, i, r, hr, hpos, by rwa [hpos]⟩
    · rintro ⟨b, hb, i, r, hr, rfl, hq⟩
      exact ⟨(_, ()), (hkey _).2 ⟨b, hb, i, r, hr, rfl, hq⟩, (H.fits b hb i r hr).splitPos _⟩
  refine ⟨_, by rw [addrIter_eq, if_pos hfit], ?_, ?_⟩
  · cases reverse with
    | false => exact hsorted
    | true => exact List.pairwise_reverse.2 (hsorted.imp fun h => by simpa [Pos.Ahead] using h)
  · intro pos
    cases reverse with
    | false => exact hmem pos
    | true => exact List.mem_reverse.trans (hmem pos)

theorem addressPositions (H : Shown P mode st blocks) (ha : a.length ≤ 56)
    (hsmall : ∀ b ∈ blocks, b.2.length < 65536) (hfit : BoundsFit lo hi) (role : Option Role) (reverse : Bool) :
    ∃ ps, st.addressPositions a role reverse lo hi = .ok ps ∧ ps.Pairwise (Pos.Ahead reverse) ∧
      ∀ pos, pos ∈ ps ↔ PosOf blocks (fun pos r => inBounds lo hi pos.1 && touches role a r) pos := by
  have hone : ∀ role : Role, ∃ ps, st.addrIter role a reverse lo hi = .ok ps ∧ ps.Pairwise (Pos.Ahead reverse) ∧
      ∀ pos, pos ∈ ps ↔ PosOf blocks (fun pos r => inBounds lo hi pos.1 && touches (some role) a r) pos := by
    intro role
    obtain ⟨ps, hps, hsorted, hmem⟩ := H.addrIter ha hfit role reverse
    refine ⟨ps, hps, hsorted, fun pos => (hmem pos).trans (PosOf.congr fun b hb i r hr => ?_)⟩
    have hlen := hsmall b hb
    have hi' := (List.getElem?_eq_some_iff.1 hr).1
    have hreach : reachable hi ((b.1 : Int), i) = true := by
      simp only [reachable, lastPos, ne_eq, Prod.mk.injEq, Bool.or_eq_true, decide_eq_true_eq]
      exact .inr fun h => by omega
    rw [hreach, Bool.true_and]
  cases role with
  | some role => exact hone role
  | none =>
    obtain ⟨ss, hss, hsorted, hmem⟩ := hone .sender
    obtain ⟨rs, hrs, hsorted', hmem'⟩ := hone .recipient
    obtain ⟨hmerge, hmergeMem⟩ := mergePos_spec hsorted hsorted' le_rfl
    obtain ⟨hps, hpsMem⟩ := destutter_spec hmerge
    refine ⟨_, by rw [Store.addressPositions, hss, hrs]; rfl, hps, fun pos => ?_⟩
    rw [hpsMem, hmergeMem, hmem, hmem', PosOf, PosOf, PosOf]
    simp only [touches, Bool.and_eq_true, Bool.or_eq_true, decide_eq_true_eq]
    constructor
    · rintro (⟨b, hb, i, r, hr, hpos, hin, hr'⟩ | ⟨b, hb, i, r, hr, hpos, hin, hr'⟩)
      · exact ⟨b, hb, i, r, hr, hpos, hin, .inl hr'⟩
      · exact ⟨b, hb, i, r, hr, hpos, hin, .inr hr'⟩
    · rintro ⟨b, hb, i, r, hr, hpos, hin, hr' | hr'⟩
      · exact .inl ⟨b, hb, i, r, hr, hpos, hin, hr'⟩
      · exact .inr ⟨b, hb, i, r, hr, hpos, hin, hr'⟩

end Shown

/-! ## Rows -/

/-- The rows of a block that satisfy `q`, with their positions. -/
def touched (q : Pos → Row → Bool) (b : Nat × List Row) : List (Pos × Row) :=
  (b.2.zipIdx.filter fun e => q ((b.1 : Int), e.2) e.1).map fun e => (((b.1 : Int), e.2), e.1)

section
variable {q : Pos → Row → Bool} {blocks : List (Nat × List Row)}

theorem mem_touched : e ∈ touched q b ↔ b.2[e.1.2]? = some e.2 ∧ e.1.1 = b.1 ∧ q e.1 e.2 := by
  obtain ⟨⟨n, i⟩, r⟩ := e
  simp only [touched, List.mem_map, List.mem_filter, Prod.exists, List.mem_zipIdx_iff_getElem?, Prod.mk.injEq]
  constructor
  · rintro ⟨r, i, ⟨hr, hq⟩, ⟨rfl, rfl⟩, rfl⟩
    exact ⟨hr, rfl, hq⟩
  · rintro ⟨hr, rfl, hq⟩
    exact ⟨r, i, ⟨hr, hq⟩, ⟨rfl, rfl⟩, rfl⟩

theorem map_snd_touched (q : Int → Row → Bool) (b : Nat × List Row) :
    (touched (fun pos => q pos.1) b).map Prod.snd = b.2.filter (q b.1) := by
  have hzip : b.2.zipIdx.map Prod.fst = b.2 := List.zipIdx_map_fst 0 b.2
  conv_rhs => rw [← hzip, List.filter_map]
  rw [touched, List.map_map]
  rfl

theorem touched_sorted (q : Pos → Row → Bool) (b : Nat × List Row) :
    ((touched q b).map Prod.fst).Pairwise (Pos.Ahead false) := by
  have hidx : b.2.zipIdx.Pairwise fun e e' => e.2 < e'.2 := by
    rw [← List.pairwise_map, List.zipIdx_map_snd]
    exact List.pairwise_lt_range'
  rw [touched, List.map_map, List.pairwise_map]
  exact (hidx.filter _).imp fun h => .inr ⟨rfl, h⟩

theorem flatMap_touched_sorted (hsorted : blocks.Pairwise fun a b => a.1 < b.1) :
    ((blocks.flatMap (touched q)).map Prod.fst).Pairwise (Pos.Ahead false) := by
  rw [List.map_flatMap, List.flatMap, List.pairwise_flatten, List.pairwise_map]
  refine ⟨?_, hsorted.imp fun {a b} hab => ?_⟩
  · intro l hl
    obtain ⟨b, -, rfl⟩ := List.mem_map.1 hl
    exact touched_sorted q b
  · intro x hx y hy
    obtain ⟨e, he, rfl⟩ := List.mem_map.1 hx
    obtain ⟨e', he', rfl⟩ := List.mem_map.1 hy
    refine .inl ?_
    rw [(mem_touched.1 he).2.1, (mem_touched.1 he').2.1]
    exact_mod_cast hab

theorem mem_flatMap_touched (pos : Pos) : pos ∈ (blocks.flatMap (touched q)).map Prod.fst ↔ PosOf blocks q pos := by
  simp only [List.mem_map, List.mem_flatMap, mem_touched, PosOf]
  constructor
  · rintro ⟨e, ⟨b, hb, hr, hn, hq⟩, rfl⟩
    exact ⟨b, hb, e.1.2, e.2, hr, Prod.ext hn rfl, hq⟩
  · rintro ⟨b, hb, i, r, hr, rfl, hq⟩
    exact ⟨(((b.1 : Int), i), r), ⟨b, hb, hr, rfl, hq⟩, rfl⟩

/-- What a scan meets is determined by its direction and its positions. -/
theorem scan_eq (hsorted : blocks.Pairwise fun a b => a.1 < b.1) {ps : List Pos}
    (hps : ps.Pairwise (Pos.Ahead reverse)) (hmem : ∀ pos, pos ∈ ps ↔ PosOf blocks q pos) :
    ps = if reverse then ((blocks.flatMap (touched q)).map Prod.fst).reverse
      else (blocks.flatMap (touched q)).map Prod.fst := by
  have hasc := flatMap_touched_sorted (q := q) hsorted
  cases reverse with
  | false => exact hps.eq_of_mem_iff hasc fun pos => (hmem pos).trans (mem_flatMap_touched pos).symm
  | true =>
    have hdesc : ((blocks.flatMap (touched q)).map Prod.fst).reverse.Pairwise (Pos.Ahead true) :=
      List.pairwise_reverse.2 (hasc.imp fun h => by simpa [Pos.Ahead] using h)
    exact hps.eq_of_mem_iff hdesc fun pos =>
      (hmem pos).trans ((mem_flatMap_touched pos).symm.trans List.mem_reverse.symm)

def inDirection (reverse : Bool) (blocks : List (Nat × List Row)) : List (Nat × List Row) :=
  if reverse then blocks.reverse else blocks

/-- Putting each block in order again gives the blocks in the order of the scan. -/
theorem regroup_scan (hsorted : blocks.Pairwise fun a b => a.1 < b.1) {ps : List Pos}
    (hps : ps.Pairwise (Pos.Ahead reverse)) (hmem : ∀ pos, pos ∈ ps ↔ PosOf blocks q pos) :
    ((ps.splitBy fun p q => p.1 = q.1).map fun g => if reverse then g.reverse else g).flatten =
      ((inDirection reverse blocks).flatMap (touched q)).map Prod.fst := by
  rw [scan_eq hsorted hps hmem]
  cases reverse with
  | false => simp [inDirection, List.flatten_splitBy]
  | true =>
    have hkeyed : List.Keyed (fun p : Pos => p.1) (blocks.map fun b => (touched q b).map Prod.fst) := by
      have hheight : ∀ b, ∀ p ∈ (touched q b).map Prod.fst, p.1 = (b.1 : Int) := fun b p hp => by
        obtain ⟨e, he, rfl⟩ := List.mem_map.1 hp
        exact (mem_touched.1 he).2.1
      refine ⟨?_, ?_⟩
      · intro g hg
        obtain ⟨b, -, rfl⟩ := List.mem_map.1 hg
        intro p hp p' hp'
        rw [hheight b p hp, hheight b p' hp']
      · rw [List.pairwise_map]
        refine hsorted.imp fun {a b} hab p hp p' hp' => ?_
        rw [hheight a p hp, hheight b p' hp']
        omega
    have hflat : ∀ bs : List (Nat × List Row), (bs.flatMap (touched q)).map Prod.fst =
        (bs.map fun b => (touched q b).map Prod.fst).flatten := fun bs => by
      rw [List.map_flatMap, List.flatMap]
    simp only [if_true, inDirection]
    rw [hflat, hflat, List.map_reverse]
    exact hkeyed.regroup

end

theorem collectRows_typed {st : Store} {ps : List Pos} {rs : List Row}
    (h : List.Forall₂ (fun pos r => st.rowAt P mode pos = some <$> typedRow r) ps rs) (limit : Nat) :
    st.collectRows P mode (fun _ => true) limit ps = (limited limit rs).mapM typedRow := by
  induction h generalizing limit with
  | nil => simp [Store.collectRows, limited]
  | @cons pos r ps rs hr _ ih =>
    rw [Store.collectRows, hr]
    rcases limit with _ | _ | limit
    · simp only [limited, if_true, List.mapM_cons, ih]
      cases typedRow r <;> rfl
    · simp only [limited, zero_add, one_ne_zero, if_false, List.take_succ_cons, List.take_zero, List.mapM_cons,
        List.mapM_nil, if_true]
      cases typedRow r <;> rfl
    · simp only [limited, Nat.add_eq_zero_iff, one_ne_zero, and_false, if_false, List.take_succ_cons,
        List.mapM_cons, ih, if_true, Nat.add_sub_cancel]
      cases typedRow r <;> simp

/-- The rows of an address that a filter of the blocks gives. -/
def history (role : Option Role) (a : Text) (reverse : Bool) (lo hi : Option Int)
    (blocks : List (Nat × List Row)) : List Row :=
  ((inDirection reverse blocks).filter fun b => inBounds lo hi b.1).flatMap fun b => b.2.filter (touches role a)

theorem history_eq (role : Option Role) (a : Text) (reverse : Bool) (lo hi : Option Int)
    (blocks : List (Nat × List Row)) : history role a reverse lo hi blocks =
      ((inDirection reverse blocks).flatMap (touched fun pos r => inBounds lo hi pos.1 && touches role a r)).map Prod.snd := by
  rw [history, List.map_flatMap]
  induction inDirection reverse blocks with
  | nil => rfl
  | cons b blocks ih =>
    rw [List.flatMap_cons, ← ih, map_snd_touched fun n r => inBounds lo hi n && touches role a r]
    cases hin : inBounds lo hi b.1 <;> simp [hin]

/-- After any commits of blocks with fewer than 65536 rows, and rollbacks, the history of an address is the
filter of the blocks, if the bounds can be packed. -/
theorem addressRows_exact {st : Store} (hst : st.Reached P mode fun rows => rows.length < 65536) {a : Text}
    (ha : a.length ≤ 56) (role : Option Role) (reverse : Bool) (limit : Nat) (lo hi : Option Int) (skip : Nat) :
    ∃ blocks, st.chainRows P mode = .ok blocks ∧
      st.addressRows P mode a role reverse limit lo hi skip =
        if BoundsFit lo hi then
          (limited limit ((history role a reverse lo hi blocks).drop skip)).mapM typedRow
        else .error .structError := by
  obtain ⟨blocks, H, hblocks⟩ := hst.shown
  refine ⟨blocks, H.chainRows, ?_⟩
  by_cases hfit : BoundsFit lo hi
  · have hsmall : ∀ b ∈ blocks, b.2.length < 65536 := by
      intro b hb
      obtain ⟨rows, hlen, hback⟩ := hblocks b hb
      rwa [← hback.length_eq]
    obtain ⟨ps, hps, hsorted, hmem⟩ := H.addressPositions ha hsmall hfit role reverse
    have hrows : ∀ e ∈ (inDirection reverse blocks).flatMap (touched fun pos r => inBounds lo hi pos.1 && touches role a r),
        st.rowAt P mode e.1 = some <$> typedRow e.2 := by
      intro e he
      obtain ⟨b, hb, he⟩ := List.mem_flatMap.1 he
      obtain ⟨hr, hn, -⟩ := mem_touched.1 he
      have hb' : b ∈ blocks := by
        cases reverse with
        | false => exact hb
        | true => exact List.mem_reverse.1 hb
      rw [← H.rowAt b hb' e.1.2 e.2 hr, ← hn]
    rw [if_pos hfit, Store.addressRows, hps, Except.ok_bind]
    dsimp only
    rw [regroup_scan H.sorted hsorted hmem, history_eq, ← List.map_drop, ← List.map_drop]
    refine collectRows_typed ?_ limit
    rw [List.forall₂_map_left_iff, List.forall₂_map_right_iff, List.forall₂_same]
    exact fun e he => hrows e (List.mem_of_mem_drop he)
  · rw [if_neg hfit, Store.addressRows]
    cases role with
    | some role => simp [Store.addressPositions, addrIter_eq, hfit]
    | none => simp [Store.addressPositions, addrIter_eq, hfit]

/-- A block of two rows in which `a` pays itself. -/
def sampleStore : Except Err Store :=
  commitBlock .toy .decimal {} 1 (hex [1]) sampleBlocks.1 none (some 0)

theorem sampleStore_reached {ok : List Row → Prop} (hok : ok sampleBlocks.1) (h : sampleStore = .ok st) :
    st.Reached .toy .decimal ok := .single (.commit hok h)

/-- The limit one keeps the first of the two rows. -/
theorem addressRows_exact_sample : ∃ st blocks, sampleStore = .ok st ∧ st.chainRows .toy .decimal = .ok blocks ∧
    st.addressRows .toy .decimal ['a'] none true 1 (some 0) none 0 =
      (limited 1 (history none ['a'] true (some 0) none blocks)).mapM typedRow := by
  obtain ⟨st, h⟩ : ∃ st, sampleStore = .ok st := by
    have hone : sampleStore.toBool = true := by decide +kernel
    cases h : sampleStore with
    | ok st => exact ⟨st, rfl⟩
    | error e =>
      rw [h] at hone
      cases hone
  obtain ⟨blocks, hblocks, hrows⟩ := addressRows_exact (sampleStore_reached (by decide) h) (a := ['a']) (by decide)
    none true 1 (some 0) none 0
  rw [if_pos (by decide)] at hrows
  exact ⟨st, blocks, h, hblocks, hrows⟩

/-- The limit zero keeps both rows, and no scan can start at the height `2 ^ 63`. -/
theorem addressRows_unlimited : ∃ st, sampleStore = .ok st ∧
    st.Reached .toy .decimal (fun rows => rows.length < 65536) ∧
    (List.length <$> st.addressRows .toy .decimal ['a'] none true 0 none none 0) = .ok 2 ∧
    st.addressRows .toy .decimal ['a'] none true 1 (some (2 ^ 63)) none 0 = .error .structError := by
  have hrun : (do
      let st ← sampleStore
      return (List.length <$> st.addressRows .toy .decimal ['a'] none true 0 none none 0,
        st.addressRows .toy .decimal ['a'] none true 1 (some (2 ^ 63)) none 0) : Except Err _) =
      .ok (.ok 2, .error .structError) := by decide +kernel
  obtain ⟨st, h, hrun⟩ := Except.bind_eq_ok.1 hrun
  obtain ⟨hzero, hbound⟩ := Prod.mk.inj (Except.ok.inj hrun)
  exact ⟨st, h, sampleStore_reached (by decide) h, hzero, hbound⟩

end Bismuth
