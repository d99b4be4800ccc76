import Bismuth.Address

/-!
# The characters of an address

`base58.b58decode` as the package has it, and the characters that an accepted address can have.
-/

namespace Bismuth
open Py

namespace Base58

def alphabet : Text :=
  ['1', '2', '3', '4', '5', '6', '7', '8', '9', 'A', 'B', 'C', 'D', 'E', 'F', 'G', 'H', 'J', 'K', 'L', 'M', 'N', 'P', 'Q',
    'R', 'S', 'T', 'U', 'V', 'W', 'X', 'Y', 'Z', 'a', 'b', 'c', 'd', 'e', 'f', 'g', 'h', 'i', 'j', 'k', 'm', 'n', 'o', 'p',
    'q', 'r', 's', 't', 'u', 'v', 'w', 'x', 'y', 'z']

/-- `b58decode_int`: every character has to be in the alphabet. -/
def decodeInt (s : Text) : Option Nat := s.foldlM (fun n c => do return n * 58 + (← alphabet.idxOf? c)) 0

/-- The bytes of a number without leading zeros, before `b`. -/
def bytesBefore : (fuel n : Nat) → Bytes → Bytes
  | 0, _, b => b
  | fuel + 1, n, b => if n = 0 then b else bytesBefore fuel (n / 256) (UInt8.ofNat (n % 256) :: b)

/-- `b58decode`: whitespace at the end is dropped, and each leading `1` is a zero byte. -/
def decode (s : Text) : Option Bytes := do
  let s := s.rdropWhile isSpace
  let n ← decodeInt (s.dropWhile (· = '1'))
  return List.replicate (s.takeWhile (· = '1')).length 0 ++ bytesBefore (n.log2 + 1) n []

theorem mem_alphabet_of_decodeInt {s : Text} (h : decodeInt s = some n) : ∀ c ∈ s, c ∈ alphabet := by
  rw [decodeInt] at h
  generalize 0 = m at h
  induction s generalizing m with
  | nil => simp
  | cons c s ih =>
    rw [List.foldlM_cons] at h
    obtain ⟨m', hm', h⟩ := Option.bind_eq_some_iff.1 h
    obtain ⟨i, hi, -⟩ := Option.bind_eq_some_iff.1 hm'
    intro d hd
    obtain rfl | hd := List.mem_cons.1 hd
    · by_contra hnot
      rw [List.idxOf?_eq_none_iff.2 hnot] at hi
      cases hi
    · exact ih m' h d hd

theorem mem_alphabet {s : Text} (h : decode s = some raw) : ∀ c ∈ s.rdropWhile isSpace, c ∈ alphabet := by
  obtain ⟨n, hn, -⟩ := Option.bind_eq_some_iff.1 h
  intro c hc
  rw [← List.takeWhile_append_dropWhile (p := fun c => c = '1') (l := s.rdropWhile isSpace)] at hc
  obtain hc | hc := List.mem_append.1 hc
  · have hone : c = '1' := by simpa using List.mem_takeWhile_imp hc
    rw [hone]
    exact List.mem_cons_self
  · exact mem_alphabet_of_decodeInt hn c hc

theorem isBase58_of_mem (h : c ∈ alphabet) : isBase58 c = true := by
  have hall : alphabet.all isBase58 = true := by decide
  exact List.all_eq_true.1 hall c h

end Base58

def Prims.withBase58 (P : Prims) : Prims := { P with b58decode := Base58.decode, b58decode_nil := rfl }

def cleanChar (c : Char) : Bool := isHexLower c || isBase58 c

def EndsClean (s : Text) : Prop := ∀ c ∈ s.getLast?, isSpace c = false

instance (s : Text) : Decidable (EndsClean s) :=
  decidable_of_iff (s.getLast?.all fun c => !isSpace c) (by simp [EndsClean, Option.all_eq_true])

theorem toNat_of_cleanChar (h : cleanChar c = true) : 48 ≤ c.toNat ∧ c.toNat ≤ 122 := by
  simp only [cleanChar, isHexLower, isBase58, Char.isAlphanum, Char.isAlpha, Char.isUpper, Char.isLower,
    Char.isDigit, Bool.or_eq_true, Bool.and_eq_true, decide_eq_true_eq, ge_iff_le, UInt32.le_iff_toNat_le] at h
  have h0 : 'a'.toNat = 97 := rfl
  have h1 : 'f'.toNat = 102 := rfl
  have hval : c.val.toNat = c.toNat := rfl
  simp only [h0, h1, hval] at h
  simp at h
  omega

theorem isSpace_of_cleanChar (h : cleanChar c = true) : isSpace c = false := by
  obtain ⟨hlo, hhi⟩ := toNat_of_cleanChar h
  simp only [isSpace, Bool.or_eq_false_iff, Bool.and_eq_false_iff, decide_eq_false_iff_not, beq_eq_false_iff_ne]
  omega

variable {s : Text}

/-- A pattern that ends in `$` matches a text of clean characters, or one with a final newline. -/
theorem clean_of_matchesDollar {p : Text → Bool} (hp : ∀ {s}, p s = true → ∀ c ∈ s, cleanChar c = true)
    (h : matchesDollar p s = true) (hend : EndsClean s) : ∀ c ∈ s, cleanChar c = true := by
  rw [matchesDollar, Bool.or_eq_true, Bool.and_eq_true, decide_eq_true_eq] at h
  obtain h | ⟨hlast, -⟩ := h
  · exact hp h
  · cases hend '\n' hlast

theorem clean_of_base58 (h : s.all isBase58 = true) : ∀ c ∈ s, cleanChar c = true := by
  intro c hc
  rw [cleanChar, List.all_eq_true.1 h c hc, Bool.or_true]

theorem clean_of_take {s pre : Text} (htake : s.take 4 = pre) (hpre : pre.all isBase58 = true)
    (hrest : (s.drop 4).all isBase58 = true) : ∀ c ∈ s, cleanChar c = true := by
  rw [← List.take_append_drop 4 s, htake]
  refine clean_of_base58 ?_
  rw [List.all_append, hpre, hrest]
  rfl

theorem clean_of_rsa (h : reRsaAddress s = true) (hend : EndsClean s) : ∀ c ∈ s, cleanChar c = true := by
  refine clean_of_matchesDollar ?_ h hend
  intro s hs c hc
  rw [Bool.and_eq_true] at hs
  rw [cleanChar, List.all_eq_true.1 hs.2 c hc, Bool.true_or]

theorem clean_of_multisig (h : reMultisigAddress s = true) (hend : EndsClean s) : ∀ c ∈ s, cleanChar c = true := by
  refine clean_of_matchesDollar ?_ h hend
  intro s hs
  simp only [Bool.and_eq_true, Bool.or_eq_true, decide_eq_true_eq] at hs
  obtain ⟨⟨⟨hpre | hpre, hrest⟩, -⟩, -⟩ := hs
  · exact clean_of_take hpre (by decide) hrest
  · exact clean_of_take hpre (by decide) hrest

theorem clean_of_ecdsa (h : reEcdsaAddress s = true) (hend : EndsClean s) : ∀ c ∈ s, cleanChar c = true := by
  refine clean_of_matchesDollar ?_ h hend
  intro s hs
  simp only [Bool.and_eq_true, decide_eq_true_eq] at hs
  obtain ⟨⟨⟨hpre, hrest⟩, -⟩, -⟩ := hs
  exact clean_of_take hpre (by decide) hrest

theorem clean_of_versioned {P : Prims} (h : (versionedSigner P.withBase58 s).isSome) (hend : EndsClean s) :
    ∀ c ∈ s, cleanChar c = true := by
  obtain ⟨scheme, h⟩ := Option.isSome_iff_exists.1 h
  obtain ⟨raw, hraw, -⟩ := Option.bind_eq_some_iff.1 h
  have hstrip : s.rdropWhile isSpace = s := by
    rw [List.rdropWhile_eq_self_iff]
    intro hne hspace
    have hfalse := hend _ (List.getLast?_eq_some_getLast hne)
    rw [hspace] at hfalse
    cases hfalse
  have hmem := Base58.mem_alphabet hraw
  rw [hstrip] at hmem
  intro c hc
  rw [cleanChar, Base58.isBase58_of_mem (hmem c hc), Bool.or_true]

/-- An accepted address that does not end in whitespace has only clean characters. -/
theorem clean_of_valid {P : Prims} (h : addressIsValid P.withBase58 s = true) (hend : EndsClean s) :
    ∀ c ∈ s, cleanChar c = true := by
  rw [addressIsValid] at h
  split at h
  · rename_i hrsa
    exact clean_of_rsa hrsa hend
  · split at h
    · rename_i hmulti
      exact clean_of_multisig hmulti hend
    · split at h
      · rename_i hecdsa
        exact clean_of_ecdsa (Bool.and_eq_true_iff.1 hecdsa).1 hend
      · exact clean_of_versioned h hend

def sampleMultisig : Text := ['B', 'i', 's', 'm'] ++ List.replicate 28 '1'

end Bismuth
