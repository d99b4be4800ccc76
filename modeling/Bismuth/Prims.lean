import Bismuth.Py.Bytes
import Bismuth.Py.Number

/-!
# What the node takes from outside the repository

The hash functions, base58, the verification primitive of each signature scheme, the memory-hard
hash of the proof of work (it reads a data file), and the two places where consensus goes through
`libm`. They are parameters: whatever is proved holds for every choice of them.
-/

namespace Bismuth
open Py

/-- The signer classes of `polysign`, as `SignerFactory.address_to_signer` returns them. -/
inductive Scheme where
  | rsa
  | multisig
  | ed25519
  | ecdsa
  | mldsa44
  | mldsa65
  | mldsa87
  | secp256r1
  deriving DecidableEq

structure Prims where
  sha224 : Bytes → Bytes
  /-- BLAKE2b with a digest of 32 bytes. -/
  blake2b : Bytes → Bytes
  length_sha224 : ∀ b, (sha224 b).length = 28
  length_blake2b : ∀ b, (blake2b b).length = 32
  b58decode : Text → Option Bytes
  b58decode_nil : b58decode [] = some []
  b58encode : Bytes → Text
  /-- `str.isprintable` on one character. -/
  isPrintable : Char → Bool
  /-- A scheme's check of decoded signature and key bytes against a message and an address. -/
  verify : Scheme → (signature key message : Bytes) → (address : Text) → Bool
  /-- The address of the key recovered from a secp256k1 signature over a digest. -/
  recover : (signature digest : Bytes) → Option Text
  /-- `SignerED25519.public_key_to_address`. -/
  edAddress : Bytes → Text
  /-- `diffme_heavy3`: the difficulty that a nonce reaches. -/
  heavy3 : (newPow : Bool) → (minerAddress nonce blockHash : Text) → Nat
  /-- `retarget`, without a result when it raises. -/
  retarget : (previous last beforeLast ts1441 ts1440 : Number) → Option Number
  /-- `lwma_next_difficulty` of the solve times and the previous difficulty. -/
  lwma : List Number → Number → Number

variable (P : Prims)

/-- `hashlib.sha224(b).hexdigest()`. -/
def Prims.sha224Hex (b : Bytes) : Text := hex (P.sha224 b)

/-- `hashlib.blake2b(b, digest_size=32).hexdigest()`. -/
def Prims.blake2bHex (b : Bytes) : Text := hex (P.blake2b b)

/-! ## A small instance, to evaluate the model on given inputs -/

def toyDigest (w : Nat) (b : Bytes) : Bytes :=
  beBytes w (b.foldl (fun a x => (a * 257 + x.toNat + 1) % 256 ^ w) 0)

/-- Every signature and every nonce passes, and no text but the empty one is base58. -/
def Prims.toy : Prims where
  sha224 := toyDigest 28
  blake2b := toyDigest 32
  length_sha224 := by simp [toyDigest]
  length_blake2b := by simp [toyDigest]
  b58decode s := if s = [] then some [] else none
  b58decode_nil := rfl
  b58encode _ := []
  isPrintable c := 32 ≤ c.toNat && c.toNat < 127
  verify _ _ _ _ _ := true
  recover _ _ := none
  edAddress _ := []
  heavy3 _ _ _ _ := 1000
  retarget p _ _ _ _ := some p
  lwma _ p := p

instance : Inhabited Prims := ⟨.toy⟩

end Bismuth
