import Bismuth.Codec.TxFields

/-!
# Varints in a buffer

`uvarint_decode` as it reads a buffer from an offset on, with Python's negative offsets.
-/

namespace Bismuth
open Py

/-- `buf[i]`: a negative index counts from the end. -/
def byteAt (buf : Bytes) (i : Int) : Except (Exc ρ) UInt8 :=
  match if 0 ≤ i then buf[i.toNat]? else if -buf.length ≤ i then buf[(buf.length + i).toNat]? else none with
  | some b => .ok b
  | none => .error .indexError

/-- The loop of `uvarint_decode`: the result and the offset after it. Each round passes a byte, so that the bytes up to
the end of the buffer bound their number. -/
def uvarintLoop (buf : Bytes) : (fuel : Nat) → (i : Int) → (shift result : Nat) → Except (Exc ρ) (Nat × Int)
  | 0, _, _, _ => .error .valueError
  | fuel + 1, i, shift, result =>
    if buf.length ≤ i then .error .valueError
    else do
      let b ← byteAt buf i
      let result := result ||| (b.toNat &&& 0x7F) <<< shift
      if b.toNat &&& 0x80 = 0 then return (result, i + 1) else uvarintLoop buf fuel (i + 1) (shift + 7) result

/-- `uvarint_decode(buf, i)`. -/
def uvarintDecodeAt (buf : Bytes) (i : Int) : Except (Exc ρ) (Nat × Int) := do
  let (result, j) ← uvarintLoop buf (buf.length - i).toNat i 0 0
  if 1 < j - i ∧ (← byteAt buf (j - 1)) = 0 then throw .valueError
  return (result, j)

def fromOffset (buf : Bytes) (i : Int) : Bytes :=
  if 0 ≤ i then buf.drop i.toNat else buf.drop (buf.length + i).toNat ++ buf

def consumed (buf : Bytes) (i j : Int) : Bytes := (fromOffset buf i).take (j - i).toNat

/-! ## Canonical encodings -/

theorem uvarintGo_congr (hf : n < 2 ^ fuel) (hg : n < 2 ^ fuel') : uvarintGo (fuel + 1) n = uvarintGo (fuel' + 1) n := by
  induction fuel generalizing n fuel' with
  | zero =>
    obtain rfl : n = 0 := by simpa using hf
    rfl
  | succ fuel ih =>
    have hstep (f : Nat) : uvarintGo (f + 1) n =
        if n < 128 then [UInt8.ofNat n] else UInt8.ofNat (n % 128 + 128) :: uvarintGo f (n / 128) := rfl
    rw [hstep, hstep]
    split
    · rfl
    · obtain ⟨g, rfl⟩ : ∃ g, fuel' = g + 1 := by
        cases fuel' with
        | zero => omega
        | succ g => exact ⟨g, rfl⟩
      rw [pow_succ] at hf hg
      have hrest : uvarintGo (fuel + 1) (n / 128) = uvarintGo (g + 1) (n / 128) := ih (by omega) (by omega)
      rw [hrest]

theorem uvarint_of_lt (h : n < 128) : uvarint n = [UInt8.ofNat n] := by
  rw [uvarint, uvarintGo, if_pos h]

theorem uvarint_of_le (h : 128 ≤ n) : uvarint n = UInt8.ofNat (n % 128 + 128) :: uvarint (n / 128) := by
  have hlt : n / 128 < 2 ^ (n - 1) := by
    have : n - 1 < 2 ^ (n - 1) := Nat.lt_two_pow_self
    omega
  rw [uvarint, uvarintGo, if_neg (by omega), uvarint, ← uvarintGo_congr hlt Nat.lt_two_pow_self, Nat.sub_add_cancel (by omega)]

theorem eq_uvarint_append {inner : Bool} (h : (uvarintDecode inner s : Except (Exc ρ) (Nat × Bytes)) = .ok (v, t)) :
    s = uvarint v ++ t ∧ (inner → 0 < v) := by
  induction s generalizing inner v with
  | nil => cases h
  | cons b s ih =>
    have hb := b.toNat_lt
    rw [uvarintDecode] at h
    split at h
    · rename_i hlt
      split at h
      · cases h
      · rename_i hmin
        cases h
        refine ⟨by rw [uvarint_of_lt hlt, UInt8.ofNat_toNat]; rfl, fun hi => Nat.pos_of_ne_zero fun h0 => ?_⟩
        exact hmin ⟨hi, UInt8.toNat_inj.1 h0⟩
    · rename_i hge
      obtain ⟨⟨w, t'⟩, hw, h⟩ := Except.bind_eq_ok.1 h
      cases h
      obtain ⟨hs, hpos⟩ := ih hw
      have hpos := hpos rfl
      have hmod : (b.toNat - 128 + 128 * w) % 128 + 128 = b.toNat := by omega
      have hdiv : (b.toNat - 128 + 128 * w) / 128 = w := by omega
      refine ⟨?_, fun _ => by omega⟩
      rw [uvarint_of_le (by omega), hmod, hdiv, UInt8.ofNat_toNat, List.cons_append, ← hs]

/-! ## The loop -/

variable {buf : Bytes} {i : Int}

theorem length_fromOffset (h : -buf.length ≤ i) : (fromOffset buf i).length = (buf.length - i).toNat := by
  rw [fromOffset]
  split
  · rw [List.length_drop]
    omega
  · rw [List.length_append, List.length_drop]
    omega

theorem fromOffset_eq_cons (hlo : -buf.length ≤ i) (hhi : i < buf.length) :
    ∃ b, byteAt buf i = (.ok b : Except (Exc ρ) UInt8) ∧ fromOffset buf i = b :: fromOffset buf (i + 1) := by
  by_cases h0 : 0 ≤ i
  · have hlt : i.toNat < buf.length := by omega
    refine ⟨buf[i.toNat], by rw [byteAt, if_pos h0, List.getElem?_eq_getElem hlt], ?_⟩
    rw [fromOffset, if_pos h0, fromOffset, if_pos (by omega), List.drop_eq_getElem_cons hlt]
    congr 2
    omega
  · have hlt : (buf.length + i).toNat < buf.length := by omega
    refine ⟨buf[(buf.length + i).toNat], ?_, ?_⟩
    · rw [byteAt, if_neg h0, if_pos hlo, List.getElem?_eq_getElem hlt]
    · rw [fromOffset, if_neg h0, List.drop_eq_getElem_cons hlt, List.cons_append, fromOffset]
      congr 1
      split
      · -- the last byte is passed, and the next one is the first
        obtain rfl : i = -1 := by omega
        rw [List.drop_of_length_le (by omega)]
        rfl
      · congr 2
        omega

theorem byteAt_eq (hlo : -buf.length ≤ i) {k : Nat} (hk : (fromOffset buf i)[k]? = some b) :
    byteAt buf (i + k) = (.ok b : Except (Exc ρ) UInt8) := by
  induction k generalizing i with
  | zero =>
    have hhi : i < buf.length := by
      by_contra hge
      rw [List.getElem?_eq_none (by rw [length_fromOffset hlo]; omega)] at hk
      cases hk
    obtain ⟨b', hb', heq⟩ := fromOffset_eq_cons (ρ := ρ) hlo hhi
    rw [heq] at hk
    cases hk
    rw [Nat.cast_zero, add_zero, hb']
  | succ k ih =>
    have hhi : i < buf.length := by
      by_contra hge
      rw [List.getElem?_eq_none (by rw [length_fromOffset hlo]; omega)] at hk
      cases hk
    obtain ⟨b', -, heq⟩ := fromOffset_eq_cons (ρ := ρ) hlo hhi
    rw [heq, List.getElem?_cons_succ] at hk
    rw [← ih (by omega) hk]
    congr 1
    push_cast
    ring

/-- The value of the bytes up to the first one that ends an encoding, and their number. -/
def varintValue : Bytes → Option (Nat × Nat)
  | [] => none
  | b :: s => if b.toNat < 128 then some (b.toNat, 1) else (varintValue s).map fun x => (b.toNat - 128 + 128 * x.1, x.2 + 1)

private theorem and_table : ∀ n : Fin 256, (n.val &&& 0x80 = 0 ↔ n.val < 128) ∧ n.val &&& 0x7F = n.val % 128 := by
  decide +kernel

theorem uvarintLoop_eq (hlo : -buf.length ≤ i) {fuel shift result : Nat}
    (hfuel : (buf.length - i).toNat ≤ fuel) (hresult : result < 2 ^ shift) :
    (uvarintLoop buf fuel i shift result : Except (Exc ρ) (Nat × Int)) =
      match varintValue (fromOffset buf i) with
      | some (v, k) => .ok (result + 2 ^ shift * v, i + k)
      | none => .error .valueError := by
  induction fuel generalizing i shift result with
  | zero =>
    have hnil : fromOffset buf i = [] := List.eq_nil_of_length_eq_zero (by rw [length_fromOffset hlo]; omega)
    rw [hnil]
    rfl
  | succ fuel ih =>
    rw [uvarintLoop]
    split
    · have hnil : fromOffset buf i = [] := List.eq_nil_of_length_eq_zero (by rw [length_fromOffset hlo]; omega)
      rw [hnil]
      rfl
    · rename_i hhi
      obtain ⟨b, hb, heq⟩ := fromOffset_eq_cons (ρ := ρ) hlo (not_le.1 hhi)
      obtain ⟨htop, hlow⟩ := and_table ⟨b.toNat, b.toNat_lt⟩
      have hbits : ∀ x, result ||| x <<< shift = result + 2 ^ shift * x := by
        intro x
        rw [Nat.shiftLeft_eq, Nat.or_comm, mul_comm x, ← Nat.two_pow_add_eq_or_of_lt hresult, add_comm]
      rw [hb, Except.ok_bind, heq, varintValue]
      dsimp only at htop hlow ⊢
      rw [hlow, hbits]
      by_cases hlt : b.toNat < 128
      · rw [if_pos (htop.2 hlt), if_pos hlt, Nat.mod_eq_of_lt hlt]
        rfl
      · have hresult' : result + 2 ^ shift * (b.toNat % 128) < 2 ^ (shift + 7) := by
          have hmod : b.toNat % 128 ≤ 127 := by omega
          have hmul : 2 ^ shift * (b.toNat % 128) ≤ 2 ^ shift * 127 := Nat.mul_le_mul_left _ hmod
          rw [pow_add]
          omega
        rw [if_neg (mt htop.1 hlt), if_neg hlt, ih (by omega) (by omega) hresult']
        cases varintValue (fromOffset buf (i + 1)) with
        | none => rfl
        | some x =>
          obtain ⟨v, k⟩ := x
          have hb := b.toNat_lt
          have hmod : b.toNat % 128 = b.toNat - 128 := by omega
          simp only [Option.map_some, hmod, Except.ok.injEq, Prod.mk.injEq]
          refine ⟨?_, by push_cast; ring⟩
          rw [pow_add]
          ring

theorem varintValue_pos (h : varintValue s = some (v, k)) : 0 < k := by
  cases s with
  | nil => cases h
  | cons b s =>
    rw [varintValue] at h
    split at h
    · cases h
      exact one_pos
    · obtain ⟨x, -, hx⟩ := Option.map_eq_some_iff.1 h
      rw [← (Prod.mk.inj hx).2]
      exact Nat.succ_pos _

theorem varintValue_le (h : varintValue s = some (v, k)) : k ≤ s.length := by
  induction s generalizing v k with
  | nil => cases h
  | cons b s ih =>
    rw [varintValue] at h
    split at h
    · cases h
      simp
    · obtain ⟨x, hx, heq⟩ := Option.map_eq_some_iff.1 h
      rw [← (Prod.mk.inj heq).2]
      exact Nat.succ_le_succ (ih hx)

theorem uvarintDecode_eq_ok {s t : Bytes} {inner : Bool} :
    (uvarintDecode inner s : Except (Exc ρ) (Nat × Bytes)) = .ok (v, t) ↔ ∃ k b, varintValue s = some (v, k + 1) ∧
      s[k]? = some b ∧ t = s.drop (k + 1) ∧ ¬((inner ∨ 0 < k) ∧ b = 0) := by
  induction s generalizing inner v t with
  | nil =>
    rw [uvarintDecode]
    simp [varintValue]
  | cons b s ih =>
    rw [uvarintDecode, varintValue]
    split
    · constructor
      · intro h
        split at h
        · cases h
        · rename_i hmin
          cases h
          exact ⟨0, b, rfl, rfl, rfl, by simpa using hmin⟩
      · rintro ⟨k, b', hval, hb', rfl, hmin⟩
        obtain ⟨rfl, hk⟩ := Prod.mk.inj (Option.some.inj hval)
        obtain rfl : k = 0 := by omega
        cases hb'
        rw [if_neg (by simpa using hmin)]
        rfl
    · constructor
      · intro h
        obtain ⟨⟨w, t'⟩, hw, h⟩ := Except.bind_eq_ok.1 h
        cases h
        obtain ⟨k, b', hval, hb', rfl, hmin⟩ := ih.1 hw
        exact ⟨k + 1, b', by rw [hval]; rfl, hb', rfl, by simpa using hmin⟩
      · rintro ⟨k, b', hval, hb', rfl, hmin⟩
        obtain ⟨⟨w, m⟩, hw, hx⟩ := Option.map_eq_some_iff.1 hval
        obtain ⟨rfl, hm⟩ := Prod.mk.inj hx
        have hpos := varintValue_pos hw
        obtain ⟨k, rfl⟩ : ∃ n, k = n + 1 := ⟨k - 1, by omega⟩
        obtain rfl : m = k + 1 := by omega
        have hrest : (uvarintDecode true s : Except (Exc ρ) (Nat × Bytes)) = .ok (w, s.drop (k + 1)) :=
          ih.2 ⟨k, b', hw, hb', rfl, by simpa using hmin⟩
        rw [hrest]
        rfl

/-- The offset after a value is where the bytes that follow it begin. -/
theorem uvarintDecodeAt_eq_ok (hlo : -buf.length ≤ i) {v : Nat} {j : Int} :
    (uvarintDecodeAt buf i : Except (Exc ρ) (Nat × Int)) = .ok (v, j) ↔ ∃ t,
      (uvarintDecode false (fromOffset buf i) : Except (Exc ρ) (Nat × Bytes)) = .ok (v, t) ∧
        j = i + ((fromOffset buf i).length - t.length) := by
  have hloop : (uvarintLoop buf (buf.length - i).toNat i 0 0 : Except (Exc ρ) (Nat × Int)) = _ :=
    uvarintLoop_eq hlo le_rfl Nat.one_pos
  rw [uvarintDecodeAt, hloop]
  cases hval : varintValue (fromOffset buf i) with
  | none =>
    simp only [Except.error_bind, reduceCtorEq, false_iff, not_exists, not_and]
    intro t ht
    obtain ⟨k, b, hval', -⟩ := uvarintDecode_eq_ok.1 ht
    rw [hval] at hval'
    cases hval'
  | some x =>
    obtain ⟨w, m⟩ := x
    have hpos := varintValue_pos hval
    have hle := varintValue_le hval
    obtain ⟨k, rfl⟩ : ∃ n, m = n + 1 := ⟨m - 1, by omega⟩
    obtain ⟨b, hb⟩ : ∃ b, (fromOffset buf i)[k]? = some b := ⟨_, List.getElem?_eq_getElem hle⟩
    have hlast : byteAt buf (i + ((k + 1 : Nat) : Int) - 1) = (.ok b : Except (Exc ρ) UInt8) := by
      rw [← byteAt_eq hlo hb]
      congr 1
      push_cast
      ring
    have hone : 1 < i + ((k + 1 : Nat) : Int) - i ↔ 0 < k := by omega
    simp only [Except.ok_bind, hlast, hone, pow_zero, one_mul, zero_add]
    constructor
    · intro h
      split at h
      · cases h
      · rename_i hmin
        cases h
        refine ⟨_, uvarintDecode_eq_ok.2 ⟨k, b, hval, hb, rfl, by simpa using hmin⟩, ?_⟩
        rw [List.length_drop]
        omega
    · rintro ⟨t, ht, rfl⟩
      obtain ⟨k', b', hval', hb', rfl, hmin⟩ := uvarintDecode_eq_ok.1 ht
      rw [hval] at hval'
      obtain ⟨rfl, hk⟩ := Prod.mk.inj (Option.some.inj hval')
      obtain rfl : k = k' := by omega
      rw [hb] at hb'
      cases hb'
      rw [if_neg (by simpa using hmin), List.length_drop]
      simp only [Except.pure_eq_ok, Except.ok.injEq, Prod.mk.injEq, true_and]
      omega

theorem neg_length_le (h : (uvarintDecodeAt buf i : Except (Exc ρ) (Nat × Int)) = .ok x) : -buf.length ≤ i := by
  by_contra hlt
  obtain ⟨fuel, hfuel⟩ : ∃ fuel, (buf.length - i).toNat = fuel + 1 := ⟨(buf.length - i).toNat - 1, by omega⟩
  have hbyte : byteAt buf i = (.error .indexError : Except (Exc ρ) UInt8) := by
    rw [byteAt, if_neg (by omega), if_neg hlt]
  rw [uvarintDecodeAt, hfuel, uvarintLoop, if_neg (by omega), hbyte] at h
  cases h

/-- **Varints are canonical.** An encoding is read back at any offset, with any bytes around it, and whatever is read at
some offset was the encoding of its value. -/
theorem uvarint_canonical :
    (∀ (n : Nat) (p s : Bytes), (uvarintDecodeAt (p ++ uvarint n ++ s) p.length : Except (Exc ρ) (Nat × Int)) =
      .ok (n, p.length + (uvarint n).length)) ∧
    ∀ (buf : Bytes) (i : Int) (v : Nat) (j : Int),
      (uvarintDecodeAt buf i : Except (Exc ρ) (Nat × Int)) = .ok (v, j) → consumed buf i j = uvarint v := by
  constructor
  · intro n p s
    rw [uvarintDecodeAt_eq_ok (by omega)]
    have hview : fromOffset (p ++ uvarint n ++ s) p.length = uvarint n ++ s := by
      rw [fromOffset, if_pos (by omega), Int.toNat_natCast, List.append_assoc, List.drop_left]
    rw [hview]
    refine ⟨s, uvarintDecode_uvarint n s, ?_⟩
    rw [List.length_append]
    push_cast
    ring
  · intro buf i v j h
    obtain ⟨t, ht, rfl⟩ := (uvarintDecodeAt_eq_ok (neg_length_le h)).1 h
    obtain ⟨heq, -⟩ := eq_uvarint_append ht
    have hlen : (i + (((fromOffset buf i).length : Int) - t.length) - i).toNat = (uvarint v).length := by
      rw [heq, List.length_append]
      omega
    rw [consumed, hlen, heq, List.take_left]

/-- A value of two bytes at the second offset. -/
theorem uvarint_canonical_sample : consumed [7, 0x80, 1, 9] 1 3 = uvarint 128 :=
  (uvarint_canonical (ρ := Empty)).2 [7, 0x80, 1, 9] 1 128 3 (by decide)

end Bismuth
