import Bismuth.Py.Text
import Mathlib

/-!
# Python bytes

UTF-8, hexadecimal text and fixed-width integers, each with the decoder the program uses and the
fact that it reads back what was written.
-/

namespace Py

/-! ## UTF-8 -/

/-- `s.encode("utf-8")`. -/
def utf8 (s : Text) : Bytes := s.flatMap String.utf8EncodeChar

/-- The six bits of a continuation byte. -/
def tail? (b : UInt8) : Option Nat :=
  if 0x80 ≤ b.toNat ∧ b.toNat < 0xc0 then some (b.toNat - 0x80) else none

/-- A decoded code point that is a character and is not written longer than it needs. -/
def scalar? (least n : Nat) : Option Char :=
  if least ≤ n ∧ n.isValidChar then some (Char.ofNat n) else none

/-- The first character of an encoded text, and what follows it. -/
def utf8DecodeChar : Bytes → Option (Char × Bytes)
  | [] => none
  | a :: s =>
    if a.toNat < 0x80 then some (Char.ofNat a.toNat, s)
    else match a.toNat / 16, s with
    | 0xc, b :: s | 0xd, b :: s => do
      return (← scalar? 0x80 ((a.toNat - 0xc0) * 64 + (← tail? b)), s)
    | 0xe, b :: c :: s => do
      return (← scalar? 0x800 ((a.toNat - 0xe0) * 4096 + (← tail? b) * 64 + (← tail? c)), s)
    | 0xf, b :: c :: d :: s => do
      return (← scalar? 0x10000 ((a.toNat - 0xf0) * 262144 + (← tail? b) * 4096 +
        (← tail? c) * 64 + (← tail? d)), s)
    | _, _ => none

def utf8DecodeGo : Nat → Bytes → Option Text
  | _, [] => some []
  | 0, _ => none
  | n + 1, b => do
    let (c, s) ← utf8DecodeChar b
    return c :: (← utf8DecodeGo n s)

/-- `b.decode("utf-8")`. -/
def utf8Decode (b : Bytes) : Option Text := utf8DecodeGo b.length b

private theorem scalar?_toNat (c : Char) (least : Nat) (h : least ≤ c.val.toNat)
    (hn : n = c.val.toNat) : scalar? least n = some c := by
  subst hn
  rw [scalar?, if_pos ⟨h, c.valid⟩]
  exact congrArg some (Char.ofNat_toNat c)

private theorem toNat_ofNat_lt {n : Nat} (h : n < 256) : (UInt8.ofNat n).toNat = n := by
  rw [UInt8.toNat_ofNat']; omega

private theorem tail?_ofNat {n : Nat} : tail? (UInt8.ofNat (n % 64) + 128) = some (n % 64) := by
  rw [show UInt8.ofNat (n % 64) + 128 = UInt8.ofNat (n % 64 + 128) by simp]
  simp only [tail?, toNat_ofNat_lt (show n % 64 + 128 < 256 by omega)]
  rw [if_pos (by omega), Nat.add_sub_cancel]

theorem utf8DecodeChar_append (c : Char) (s : Bytes) :
    utf8DecodeChar (String.utf8EncodeChar c ++ s) = some (c, s) := by
  have hlt : c.val.toNat < 0x110000 := by
    rcases c.valid with h | ⟨-, h⟩
    · exact Nat.lt_of_lt_of_le h (by decide)
    · exact h
  simp only [String.utf8EncodeChar]
  generalize hn : c.val.toNat = n at hlt
  -- one case per encoded length; the lead byte tells them apart
  split_ifs with h1 h2 h3
  · simp only [List.singleton_append, utf8DecodeChar, toNat_ofNat_lt (show n < 256 by omega)]
    rw [if_pos (by omega), ← hn]
    exact congrArg (fun c => some (c, s)) (Char.ofNat_toNat c)
  · have hd : (n / 64 % 32 + 192) / 16 = 0xc ∨ (n / 64 % 32 + 192) / 16 = 0xd := by omega
    simp only [List.cons_append, List.nil_append, utf8DecodeChar,
      toNat_ofNat_lt (show n / 64 % 32 + 192 < 256 by omega)]
    rw [if_neg (by omega)]
    rcases hd with hd | hd <;>
      simp [hd, tail?_ofNat, scalar?_toNat c 0x80 (by omega)
        (show (n / 64 % 32) * 64 + n % 64 = _ by omega)]
  · have hd : (n / 4096 % 16 + 224) / 16 = 0xe := by omega
    simp only [List.cons_append, List.nil_append, utf8DecodeChar,
      toNat_ofNat_lt (show n / 4096 % 16 + 224 < 256 by omega)]
    rw [if_neg (by omega)]
    simp [hd, tail?_ofNat, scalar?_toNat c 0x800 (by omega)
      (show (n / 4096 % 16) * 4096 + n / 64 % 64 * 64 + n % 64 = _ by omega)]
  · have hd : (n / 262144 % 8 + 240) / 16 = 0xf := by omega
    simp only [List.cons_append, List.nil_append, utf8DecodeChar,
      toNat_ofNat_lt (show n / 262144 % 8 + 240 < 256 by omega)]
    rw [if_neg (by omega)]
    simp [hd, tail?_ofNat, scalar?_toNat c 0x10000 (by omega)
      (show (n / 262144 % 8) * 262144 + n / 4096 % 64 * 4096 + n / 64 % 64 * 64 + n % 64 = _ by omega)]

theorem utf8DecodeGo_utf8 (s : Text) (h : (utf8 s).length ≤ n) :
    utf8DecodeGo n (utf8 s) = some s := by
  induction s generalizing n with
  | nil => cases n <;> rfl
  | cons c s ih =>
    have hc := c.utf8Size_pos
    rw [utf8, List.flatMap_cons, List.length_append, String.length_utf8EncodeChar] at h
    obtain ⟨n, rfl⟩ : ∃ m, n = m + 1 := ⟨n - 1, by omega⟩
    have hne : String.utf8EncodeChar c ++ utf8 s ≠ [] := by simp [String.utf8EncodeChar_ne_nil]
    change utf8DecodeGo (n + 1) (String.utf8EncodeChar c ++ utf8 s) = _
    rw [utf8DecodeGo.eq_3 _ _ hne, utf8DecodeChar_append]
    simp [ih (show (utf8 s).length ≤ n by rw [utf8]; omega)]

theorem utf8Decode_utf8 (s : Text) : utf8Decode (utf8 s) = some s := utf8DecodeGo_utf8 s le_rfl

theorem utf8_injective : Function.Injective utf8 := fun s t h => by
  have := congrArg utf8Decode h
  rwa [utf8Decode_utf8, utf8Decode_utf8, Option.some.injEq] at this

theorem length_utf8_le (s : Text) : (utf8 s).length ≤ 4 * s.length := by
  induction s with
  | nil => exact le_rfl
  | cons c s ih =>
    have hc : (String.utf8EncodeChar c).length ≤ 4 := by
      rw [String.length_utf8EncodeChar]
      exact Char.utf8Size_le_four c
    rw [utf8] at ih
    rw [utf8, List.flatMap_cons, List.length_append, List.length_cons]
    omega

theorem zero_mem_utf8EncodeChar {c : Char} (h : 0 ∈ String.utf8EncodeChar c) : c = '\x00' := by
  have hzero : ∀ n < 256, (0 : UInt8) = UInt8.ofNat n → n = 0 := by
    intro n hn h
    have := congrArg UInt8.toNat h
    rw [UInt8.toNat_ofNat_of_lt' (by exact hn)] at this
    exact this.symm
  simp only [String.utf8EncodeChar] at h
  split_ifs at h <;> simp only [List.mem_cons, List.not_mem_nil, or_false] at h
  · have := hzero _ (by omega) h
    exact Char.ext (UInt32.toNat.inj this)
  · rcases h with h | h <;> have := hzero _ (by omega) h <;> omega
  · rcases h with h | h | h <;> have := hzero _ (by omega) h <;> omega
  · rcases h with h | h | h | h <;> have := hzero _ (by omega) h <;> omega

/-! ## Hexadecimal text -/

/-- `b.hex()`. -/
def hex (b : Bytes) : Text :=
  b.flatMap fun x => [(x.toNat / 16).digitChar, (x.toNat % 16).digitChar]

def hexVal? (c : Char) : Option Nat :=
  if c.isDigit then some (c.toNat - 48)
  else if 'a'.toNat ≤ c.toNat ∧ c.toNat ≤ 'f'.toNat then some (c.toNat - 87)
  else if 'A'.toNat ≤ c.toNat ∧ c.toNat ≤ 'F'.toNat then some (c.toNat - 55)
  else none

def isAsciiSpace (c : Char) : Bool := c = ' ' || (9 ≤ c.toNat && c.toNat ≤ 13)

/-- `bytes.fromhex(s)`: two digits a byte, spaces between bytes allowed. -/
def fromHex : Text → Option Bytes
  | [] => some []
  | [c] => if isAsciiSpace c then some [] else none
  | c :: d :: s =>
    if isAsciiSpace c then fromHex (d :: s)
    else do return UInt8.ofNat ((← hexVal? c) * 16 + (← hexVal? d)) :: (← fromHex s)

theorem hexVal?_digitChar : ∀ n < 16, hexVal? n.digitChar = some n := by decide

theorem isAsciiSpace_digitChar : ∀ n < 16, isAsciiSpace n.digitChar = false := by decide

theorem fromHex_hex (b : Bytes) : fromHex (hex b) = some b := by
  induction b with
  | nil => rfl
  | cons x b ih =>
    have hx := x.toNat_lt
    have h1 : x.toNat / 16 < 16 := by omega
    have h2 : x.toNat % 16 < 16 := by omega
    rw [hex, List.flatMap_cons]
    change fromHex (_ :: _ :: hex b) = _
    rw [fromHex, isAsciiSpace_digitChar _ h1, hexVal?_digitChar _ h1, hexVal?_digitChar _ h2, ih]
    simp only [Option.bind_eq_bind, Option.bind_some, Nat.div_add_mod' x.toNat 16]
    simp

theorem hex_injective : Function.Injective hex := fun s t h => by
  have := congrArg fromHex h
  rwa [fromHex_hex, fromHex_hex, Option.some.injEq] at this

theorem length_hex (b : Bytes) : (hex b).length = 2 * b.length := by
  induction b with
  | nil => rfl
  | cons x b ih => simp only [hex, List.flatMap_cons, List.length_append] at ih ⊢; simp [ih]; ring

/-! ## Integers of a fixed width -/

/-- `n.to_bytes(w, "little")` for `n < 256 ^ w`. -/
def leBytes : Nat → Nat → Bytes
  | 0, _ => []
  | w + 1, n => UInt8.ofNat (n % 256) :: leBytes w (n / 256)

/-- `int.from_bytes(b, "little")`. -/
def leVal : Bytes → Nat
  | [] => 0
  | x :: b => x.toNat + 256 * leVal b

/-- `struct.pack` of an unsigned integer in big-endian order. -/
def beBytes (w n : Nat) : Bytes := (leBytes w n).reverse

/-- `struct.unpack` of the same. -/
def beVal (b : Bytes) : Nat := leVal b.reverse

@[simp] theorem length_leBytes (w n : Nat) : (leBytes w n).length = w := by
  induction w generalizing n with
  | zero => rfl
  | succ w ih => simp [leBytes, ih]

@[simp] theorem length_beBytes (w n : Nat) : (beBytes w n).length = w := by simp [beBytes]

theorem leVal_leBytes (h : n < 256 ^ w) : leVal (leBytes w n) = n := by
  induction w generalizing n with
  | zero => simp only [pow_zero] at h; simp [leBytes, leVal]; omega
  | succ w ih =>
    rw [leBytes, leVal, ih (by rw [pow_succ] at h; omega), toNat_ofNat_lt (by omega)]
    omega

theorem beVal_beBytes (h : n < 256 ^ w) : beVal (beBytes w n) = n := by
  rw [beVal, beBytes, List.reverse_reverse, leVal_leBytes h]

theorem leVal_lt (b : Bytes) : leVal b < 256 ^ b.length := by
  induction b with
  | nil => decide
  | cons x b ih =>
    have hx := x.toNat_lt
    rw [leVal, List.length_cons, pow_succ]
    omega

theorem beVal_lt (b : Bytes) : beVal b < 256 ^ b.length := by
  have h := leVal_lt b.reverse
  rwa [List.length_reverse] at h

theorem leBytes_leVal (b : Bytes) : leBytes b.length (leVal b) = b := by
  induction b with
  | nil => rfl
  | cons x b ih =>
    have hx := x.toNat_lt
    rw [leVal, List.length_cons, leBytes, show (x.toNat + 256 * leVal b) / 256 = leVal b by omega, ih,
      show (x.toNat + 256 * leVal b) % 256 = x.toNat by omega, UInt8.ofNat_toNat]

theorem beBytes_beVal (b : Bytes) : beBytes b.length (beVal b) = b := by
  have h := leBytes_leVal b.reverse
  rw [List.length_reverse] at h
  rw [beBytes, beVal, h, List.reverse_reverse]

end Py
