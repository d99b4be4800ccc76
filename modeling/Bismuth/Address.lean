import Bismuth.Prims

/-!
# Addresses

`polysign.signerfactory`: the textual classes of an address. The regular expressions end in `$`,
which also matches before a final newline.
-/

namespace Bismuth
open Py

/-- What `$` lets a whole-text pattern match: the text, or the text before a final newline. -/
def matchesDollar (p : Text → Bool) (s : Text) : Bool :=
  p s || (s.getLast? = some '\n' && p s.dropLast)

def isHexLower (c : Char) : Bool := c.isDigit || ('a'.toNat ≤ c.toNat && c.toNat ≤ 'f'.toNat)

/-- The base58 alphabet: alphanumeric, without `0`, `O`, `I` and `l`. -/
def isBase58 (c : Char) : Bool := c.isAlphanum && c ≠ '0' && c ≠ 'O' && c ≠ 'I' && c ≠ 'l'

def reRsaAddress (s : Text) : Bool :=
  matchesDollar (fun s => s.length = 56 && s.all isHexLower) s

def reEcdsaAddress (s : Text) : Bool :=
  matchesDollar (fun s => s.take 4 = ['B', 'i', 's', '1'] && (s.drop 4).all isBase58 &&
    28 ≤ s.length - 4 && s.length - 4 ≤ 52) s

def reMultisigAddress (s : Text) : Bool :=
  matchesDollar (fun s => (s.take 4 = ['B', 'i', 's', 'm'] || s.take 4 = ['m', 'B', 'i', 's']) &&
    (s.drop 4).all isBase58 && 28 ≤ s.length - 4 && s.length - 4 ≤ 56) s

/-- The address versions of the schemes that are told apart by them, mainnet and testnet. -/
def addressVersions : List (Bytes × Scheme) :=
  [([0x06, 0x4d, 0x44, 0x32], .mldsa44), ([0x14, 0x4d, 0x44, 0x32], .mldsa44),
    ([0x06, 0x4d, 0x44, 0x53], .mldsa65), ([0x14, 0x4d, 0x44, 0x53], .mldsa65),
    ([0x06, 0x4d, 0x44, 0x38], .mldsa87), ([0x14, 0x4d, 0x44, 0x38], .mldsa87),
    ([0x06, 0x52, 0x31, 0x00], .secp256r1), ([0x14, 0x52, 0x31, 0x00], .secp256r1)]

variable (P : Prims)

def versionedSigner (address : Text) : Option Scheme := do
  let raw ← P.b58decode address
  if raw.length < 8 then none else addressVersions.lookup (raw.take 4)

def addressToSigner (address : Text) : Option Scheme :=
  if reRsaAddress address then some .rsa
  else if reMultisigAddress address then some .multisig
  else if reEcdsaAddress address then
    if 50 < address.length then some .ed25519 else some .ecdsa
  else versionedSigner P address

/-- `SignerFactory.address_is_valid`, which is `essentials.address_validate`. -/
def addressIsValid (address : Text) : Bool :=
  if reRsaAddress address then true
  else if reMultisigAddress address then true
  else if reEcdsaAddress address && ((50 < address.length && address.length < 60) ||
      (30 < address.length && address.length < 50)) then true
  else (versionedSigner P address).isSome

def addressIsRsa (address : Text) : Bool := reRsaAddress address

def addressIsPostForkSenderType (address : Text) : Bool :=
  reMultisigAddress address || (versionedSigner P address).isSome

def isSingleSigEcdsa (address : Text) : Bool := reEcdsaAddress address && address.length ≤ 50

def isSingleSigEd25519 (address : Text) : Bool := reEcdsaAddress address && 50 < address.length

/-! ## Lowercase hexadecimal -/

theorem exists_digitChar (h : isHexLower c) : ∃ n < 16, c = n.digitChar := by
  have hc : c = Char.ofNat c.toNat := (Char.ofNat_toNat c).symm
  have hn : (48 ≤ c.toNat ∧ c.toNat ≤ 57) ∨ (97 ≤ c.toNat ∧ c.toNat ≤ 102) := by
    simpa [isHexLower, Char.isDigit_iff_toNat] using h
  rw [hc]
  generalize c.toNat = n at hn
  obtain ⟨h1, h2⟩ | ⟨h1, h2⟩ := hn
  · exact ⟨n - 48, by omega, by interval_cases n <;> rfl⟩
  · exact ⟨n - 87, by omega, by interval_cases n <;> rfl⟩

/-- An even number of lowercase digits writes bytes. -/
theorem exists_hex (s : Text) (n : Nat) (hlen : s.length = 2 * n) (h : ∀ c ∈ s, isHexLower c) :
    ∃ b, s = hex b := by
  induction n generalizing s with
  | zero => exact ⟨[], List.length_eq_zero_iff.1 hlen⟩
  | succ n ih =>
    obtain _ | ⟨c, _ | ⟨d, s⟩⟩ := s
    · simp at hlen
    · simp at hlen; omega
    · obtain ⟨i, hi, rfl⟩ := exists_digitChar (h c (by simp))
      obtain ⟨j, hj, rfl⟩ := exists_digitChar (h d (by simp))
      obtain ⟨b, rfl⟩ := ih s (by simp at hlen; omega) fun c hc => h c (by simp [hc])
      refine ⟨UInt8.ofNat (16 * i + j) :: b, ?_⟩
      have hval : (UInt8.ofNat (16 * i + j)).toNat = 16 * i + j := by
        rw [UInt8.toNat_ofNat']; omega
      change _ = (_ :: _ :: hex b)
      rw [hval, show (16 * i + j) / 16 = i by omega, show (16 * i + j) % 16 = j by omega]

theorem length_of_fromHex {s : Text} (h : ∀ c ∈ s, isHexLower c) (hb : fromHex s = some b) :
    s.length = 2 * b.length := by
  have hspace : ∀ c ∈ s, isAsciiSpace c = false := by
    intro c hc
    obtain ⟨n, hn, rfl⟩ := exists_digitChar (h c hc)
    exact isAsciiSpace_digitChar n hn
  clear h
  induction s using fromHex.induct generalizing b with
  | case1 =>
    cases hb
    rfl
  | case2 c hc => exact absurd hc (by simp [hspace c (by simp)])
  | case3 c hc =>
    rw [fromHex, if_neg hc] at hb
    cases hb
  | case4 c d s hc ih => exact absurd hc (by simp [hspace c (by simp)])
  | case5 c d s hc ih =>
    rw [fromHex, if_neg hc] at hb
    simp only [Option.bind_eq_bind, Option.bind_eq_some_iff, Option.pure_def, Option.some.injEq] at hb
    obtain ⟨i, -, j, -, b', hb', rfl⟩ := hb
    rw [List.length_cons, List.length_cons, List.length_cons, ih hb' fun c hc => hspace c (by simp [hc])]
    omega

theorem hex_of_fromHex {s : Text} (h : ∀ c ∈ s, isHexLower c) (hb : fromHex s = some b) : hex b = s := by
  obtain ⟨b', rfl⟩ := exists_hex s b.length (length_of_fromHex h hb) h
  rw [fromHex_hex] at hb
  cases hb
  rfl

end Bismuth
