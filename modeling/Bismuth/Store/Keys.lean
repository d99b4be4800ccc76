import Bismuth.Lib.LexOrder
import Bismuth.Store.Index

/-!
# The order of the index keys

The keys of one address or one signature are ordered by the positions at their ends, and the bounds of a
range scan leave out the positions at other heights.
-/

namespace Bismuth
open Py

/-! ## Integers as bytes -/

theorem beBytes_succ (w n : Nat) : beBytes (w + 1) n = beBytes w (n / 256) ++ [UInt8.ofNat (n % 256)] := by
  simp [beBytes, leBytes]

theorem beBytes_inj (hm : m < 256 ^ w) (hn : n < 256 ^ w) (h : beBytes w m = beBytes w n) : m = n := by
  rw [← beVal_beBytes hm, h, beVal_beBytes hn]

theorem beBytes_lt_iff (hm : m < 256 ^ w) (hn : n < 256 ^ w) : beBytes w m < beBytes w n ↔ m < n := by
  induction w generalizing m n with
  | zero =>
    obtain rfl : m = 0 := by simpa using hm
    obtain rfl : n = 0 := by simpa using hn
    simp
  | succ w ih =>
    have hm' : m / 256 < 256 ^ w := Nat.div_lt_of_lt_mul (by rwa [pow_succ, mul_comm] at hm)
    have hn' : n / 256 < 256 ^ w := Nat.div_lt_of_lt_mul (by rwa [pow_succ, mul_comm] at hn)
    have hlast : ([UInt8.ofNat (m % 256)] : Bytes) < [UInt8.ofNat (n % 256)] ↔ m % 256 < n % 256 := by
      simp [List.cons_lt_cons_iff, UInt8.lt_iff_toNat_lt, UInt8.toNat_ofNat']
    have heq : beBytes w (m / 256) = beBytes w (n / 256) ↔ m / 256 = n / 256 :=
      ⟨beBytes_inj hm' hn', fun h => h ▸ rfl⟩
    rw [beBytes_succ, beBytes_succ, List.append_lt_append_iff (by simp), ih hm' hn', hlast, heq]
    omega

/-! ## Positions -/

def posBytes (n i : Nat) : Bytes := beBytes 8 (n + 2 ^ 63) ++ beBytes 2 i

structure PosFits (n i : Nat) : Prop where
  height : n < 2 ^ 63
  index : i < 2 ^ 16

theorem posKey_eq (h : posKey n i = (.ok q : Except Err Bytes)) : PosFits n i ∧ q = posBytes n i := by
  obtain ⟨hn, hi, hq⟩ := posKey_ok h
  exact ⟨⟨hn, hi⟩, hq⟩

theorem PosFits.posKey (h : PosFits n i) : posKey n i = (.ok (posBytes n i) : Except Err Bytes) := by
  have hn := h.height
  have hi := h.index
  rw [Bismuth.posKey, packBE, packBE, if_pos (by omega), if_pos (by omega)]
  rfl

theorem PosFits.splitPos (h : PosFits n i) (p : Bytes) : splitPos (p ++ posBytes n i) = ((n : Int), i) :=
  splitPos_append h.posKey p

theorem PosFits.inj (h : PosFits n i) (h' : PosFits m j) (he : p ++ posBytes n i = p' ++ posBytes m j) :
    n = m ∧ i = j := by
  have hpos := congrArg Bismuth.splitPos he
  rw [h.splitPos, h'.splitPos] at hpos
  obtain ⟨h1, h2⟩ := Prod.mk.inj hpos
  exact ⟨by omega, h2⟩

/-- The positions of one block are in its order, and those of a block before those of the next. -/
theorem posBytes_lt_iff (h : PosFits n i) (h' : PosFits m j) :
    posBytes n i < posBytes m j ↔ n < m ∨ n = m ∧ i < j := by
  have hn := h.height
  have hm := h'.height
  have heq : beBytes 8 (n + 2 ^ 63) = beBytes 8 (m + 2 ^ 63) ↔ n = m :=
    ⟨fun he => by have := beBytes_inj (by omega) (by omega) he; omega, fun he => he ▸ rfl⟩
  rw [posBytes, posBytes, List.append_lt_append_iff (by simp), beBytes_lt_iff (by omega) (by omega),
    beBytes_lt_iff h.index h'.index, heq]
  omega

/-! ## Bounds -/

/-- A bound that `_sh` can pack. -/
def BoundFits (h : Int) : Prop := -2 ^ 63 ≤ h ∧ h < 2 ^ 63

instance : Decidable (BoundFits h) := inferInstanceAs (Decidable (_ ∧ _))

theorem boundKey_eq (h : Int) : boundKey h =
    if BoundFits h then .ok (beBytes 8 (h + 2 ^ 63).toNat) else .error .structError := by
  rw [boundKey]
  refine if_congr ?_ rfl rfl
  rw [BoundFits]
  omega

theorem posBytes_lt_beBytes (h : PosFits n i) (hx : x < 256 ^ 8) :
    posBytes n i < beBytes 8 x ↔ n + 2 ^ 63 < x := by
  have hn := h.height
  rw [← List.append_nil (beBytes 8 x), posBytes, List.append_lt_append_iff (by simp),
    beBytes_lt_iff (by omega) hx]
  simp

theorem bound_le_iff {lo : Int} (hlo : BoundFits lo) (h : PosFits n i) (p : Bytes) :
    p ++ beBytes 8 (lo + 2 ^ 63).toNat ≤ p ++ posBytes n i ↔ lo ≤ n := by
  have hn := h.height
  obtain ⟨hlo, hlo'⟩ := hlo
  rw [← not_lt, List.append_lt_append_iff rfl, posBytes_lt_beBytes h (by omega)]
  simp only [lt_irrefl, true_and, false_or]
  omega

theorem lt_bound_iff {hi : Int} (hhi : BoundFits (hi + 1)) (h : PosFits n i) (p : Bytes) :
    p ++ posBytes n i < p ++ beBytes 8 (hi + 1 + 2 ^ 63).toNat ↔ n ≤ hi := by
  have hn := h.height
  obtain ⟨hhi, hhi'⟩ := hhi
  rw [List.append_lt_append_iff rfl, posBytes_lt_beBytes h (by omega)]
  simp only [lt_irrefl, true_and, false_or]
  omega

/-- The open end of a scan leaves out only the last position of all. -/
theorem lt_open_end_iff (h : PosFits n i) (p : Bytes) :
    p ++ posBytes n i < p ++ List.replicate 10 0xFF ↔ ¬(n = 2 ^ 63 - 1 ∧ i = 65535) := by
  have hn := h.height
  have hi := h.index
  have hend : (List.replicate 10 0xFF : Bytes) = posBytes (2 ^ 63 - 1) 65535 := by decide +kernel
  rw [List.append_lt_append_iff rfl, hend, posBytes_lt_iff h ⟨by omega, by omega⟩]
  simp only [lt_irrefl, true_and, false_or]
  omega

/-! ## Addresses -/

/-- The keys that start as those of a short address do are that address's own. -/
theorem addrPrefix_inj (ha : a.length ≤ 56) (h : addrPrefix role a <+: addrPrefix role' b ++ q) :
    role' = role ∧ b = a := by
  obtain ⟨t, ht⟩ := h
  simp only [addrPrefix, List.cons_append, List.cons.injEq] at ht
  obtain ⟨hrole, hlen, hrest⟩ := ht
  have hla : (abytes a).length ≤ 255 := List.length_take_le _ _
  have hlb : (abytes b).length ≤ 255 := List.length_take_le _ _
  have hlen' : (abytes a).length = (abytes b).length := by
    have hnat := congrArg UInt8.toNat hlen
    rwa [UInt8.toNat_ofNat', UInt8.toNat_ofNat', Nat.mod_eq_of_lt (by omega), Nat.mod_eq_of_lt (by omega)] at hnat
  have hbytes := (List.append_inj hrest hlen').1
  refine ⟨?_, (abytes_inj ha hbytes).symm⟩
  cases role <;> cases role' <;> first | rfl | exact absurd hrole (by decide)

end Bismuth
