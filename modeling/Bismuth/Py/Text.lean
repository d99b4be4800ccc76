import Bismuth.Lib.Lists
import Mathlib

/-!
# Python text

A Python `str` as the list of its code points (lone surrogates, which no UTF-8 codec accepts, are
left out), and `bytes` as the list of their octets. The character classes are those of `str.isspace`
and of the Unicode decimal digits, as `int`, `float`, `Decimal` and `\d` read them.
-/

/-- A Python `str`. -/
abbrev Text := List Char

instance Text.instLawfulBEq : LawfulBEq Text := inferInstanceAs (LawfulBEq (List Char))

/-- A Python `bytes`. -/
abbrev Bytes := List UInt8

instance UInt8.instLinearOrder : LinearOrder UInt8 where
  le_refl := UInt8.le_refl
  le_trans _ _ _ := UInt8.le_trans
  le_antisymm _ _ := UInt8.le_antisymm
  le_total := UInt8.le_total
  lt_iff_le_not_ge _ _ := by rw [UInt8.not_le]; exact ⟨fun h => ⟨UInt8.le_of_lt h, h⟩, And.right⟩
  toDecidableLE := fun a b => inferInstanceAs (Decidable (a ≤ b))
  toDecidableLT := fun a b => inferInstanceAs (Decidable (a < b))
  toDecidableEq := instDecidableEqUInt8

namespace Py

/-- An exception of the running program: `raised r` is a `ValueError` the program raises itself
for the reason `r`, `valueError` one that a builtin raises. -/
inductive Exc (ρ : Type u) where
  | raised (r : ρ)
  | valueError
  | typeError
  | attributeError
  | indexError
  | overflowError
  | zeroDivisionError
  | invalidOperation
  | structError
  | badValsizeError
  deriving DecidableEq

/-- Whether `except ValueError` catches it. -/
def Exc.isValueError : Exc ρ → Bool
  | .raised _ | .valueError => true
  | _ => false

/-! ## Character classes -/

/-- `str.isspace` on one character. -/
def isSpace (c : Char) : Bool :=
  let n := c.toNat
  (9 ≤ n && n ≤ 13) || (28 ≤ n && n ≤ 32) || n == 0x85 || n == 0xa0 || n == 0x1680 ||
    (0x2000 ≤ n && n ≤ 0x200a) || n == 0x2028 || n == 0x2029 || n == 0x202f || n == 0x205f ||
    n == 0x3000

def digitZeros : List Nat :=
  [0x30, 0x660, 0x6f0, 0x7c0, 0x966, 0x9e6, 0xa66, 0xae6, 0xb66, 0xbe6, 0xc66, 0xce6, 0xd66, 0xde6,
    0xe50, 0xed0, 0xf20, 0x1040, 0x1090, 0x17e0, 0x1810, 0x1946, 0x19d0, 0x1a80, 0x1a90, 0x1b50,
    0x1bb0, 0x1c40, 0x1c50, 0xa620, 0xa8d0, 0xa900, 0xa9d0, 0xa9f0, 0xaa50, 0xabf0, 0xff10, 0x104a0,
    0x10d30, 0x11066, 0x110f0, 0x11136, 0x111d0, 0x112f0, 0x11450, 0x114d0, 0x11650, 0x116c0,
    0x11730, 0x118e0, 0x11950, 0x11c50, 0x11d50, 0x11da0, 0x16a60, 0x16ac0, 0x16b50, 0x1d7ce,
    0x1d7d8, 0x1d7e2, 0x1d7ec, 0x1d7f6, 0x1e140, 0x1e2f0, 0x1e950, 0x1fbf0]

def asciiDigit? (c : Char) : Option Char :=
  (digitZeros.find? fun z => z ≤ c.toNat && c.toNat < z + 10).map fun z => (c.toNat - z).digitChar

def stripWith (p : Char → Bool) (s : Text) : Text := (s.dropWhile p).rdropWhile p

/-- `str.strip()`. -/
def strip (s : Text) : Text := stripWith isSpace s

/-! ## Integers as text -/

def natText (n : Nat) : Text := Nat.toDigits 10 n

/-- `str` of an `int`. -/
def intText : Int → Text
  | .ofNat n => natText n
  | .negSucc n => '-' :: natText (n + 1)

def digitsVal (s : Text) : Nat := Nat.ofDigitChars 10 s 0

/-- `s` right-aligned in `k` columns filled with zeros. -/
def zeroPad (k : Nat) (s : Text) : Text := List.replicate (k - s.length) '0' ++ s

theorem digitsVal_natText (n : Nat) : digitsVal (natText n) = n :=
  Nat.ofDigitChars_toDigits (by decide) (by decide)

theorem digitsVal_append (s t : Text) :
    digitsVal (s ++ t) = 10 ^ t.length * digitsVal s + digitsVal t := by
  simp only [digitsVal, Nat.ofDigitChars_append]
  exact Nat.ofDigitChars_eq_ofDigitChars_zero

theorem digitsVal_zeroPad (k : Nat) (s : Text) : digitsVal (zeroPad k s) = digitsVal s := by
  simp [zeroPad, digitsVal, Nat.ofDigitChars_append]

theorem isDigit_of_mem_natText {n : Nat} (h : c ∈ natText n) : c.isDigit :=
  Nat.isDigit_of_mem_toDigits (by decide) (by decide) h

theorem natText_ne_nil (n : Nat) : natText n ≠ [] := Nat.toDigits_ne_nil

theorem length_natText_le_iff {n k : Nat} (h : 0 < k) : (natText n).length ≤ k ↔ n < 10 ^ k :=
  Nat.length_toDigits_le_iff (by decide) h

theorem isDigit_of_mem_zeroPad {k n : Nat} (h : c ∈ zeroPad k (natText n)) : c.isDigit := by
  rcases List.mem_append.1 h with h | h
  · rw [List.eq_of_mem_replicate h]; rfl
  · exact isDigit_of_mem_natText h

theorem length_zeroPad {k : Nat} {s : Text} (h : s.length ≤ k) : (zeroPad k s).length = k := by
  simp [zeroPad]; omega

end Py
