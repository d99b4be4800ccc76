import Bismuth.Address
import Bismuth.Lib.Except
import Bismuth.Py.Base64

/-!
# Signatures as bytes

`sigbytes.py`: a stored signature is a scheme tag, a length and the raw bytes. The writer keeps a
tag only when decoding and encoding give the wire text back; every other text is kept verbatim.
-/

namespace Bismuth
open Py

inductive SigTag where
  | opaqueText
  | rsa
  | ecdsa
  | ed25519
  | secp256r1
  | mldsa44
  | mldsa65
  | mldsa87
  | multisig
  | recoverable
  deriving DecidableEq

def SigTag.byte : SigTag → UInt8
  | .opaqueText => 0x00
  | .rsa => 0x01
  | .ecdsa => 0x02
  | .ed25519 => 0x03
  | .secp256r1 => 0x04
  | .mldsa44 => 0x05
  | .mldsa65 => 0x06
  | .mldsa87 => 0x07
  | .multisig => 0x08
  | .recoverable => 0x40

def looksRecoverableHex (s : Text) : Bool :=
  s.length = 130 && (fromHex s).any fun b => hex b = s

variable (P : Prims)

def tagForAddress (address signature : Text) : SigTag :=
  if reRsaAddress address then .rsa
  else if reMultisigAddress address then .multisig
  else if reEcdsaAddress address then
    if 50 < address.length then .ed25519
    else if looksRecoverableHex signature then .recoverable else .ecdsa
  else match versionedSigner P address with
  | some .secp256r1 => .secp256r1
  | some .mldsa44 => .mldsa44
  | some .mldsa65 => .mldsa65
  | some .mldsa87 => .mldsa87
  | _ => .opaqueText

def SigTag.decode : SigTag → Text → Option Bytes
  | .opaqueText, s => some (utf8 s)
  | .recoverable, s => fromHex s
  | _, s => base64Decode s

/-- `_encode`, by the byte that was stored: any byte but two stands for base64. -/
def sigEncode (tag : UInt8) (raw : Bytes) : Except (Exc ρ) Text :=
  if tag = SigTag.opaqueText.byte then
    match utf8Decode raw with
    | some s => .ok s
    | none => .error .valueError
  else if tag = SigTag.recoverable.byte then .ok (hex raw)
  else .ok (base64Encode raw)

def packSignature (tag : SigTag) (raw : Bytes) : Except (Exc ρ) Bytes :=
  if 0xFFFF < raw.length then .error .valueError
  else .ok (tag.byte :: (leBytes 2 raw.length ++ raw))

/-- The tag and raw bytes that `pack_from_wire` stores. -/
def sigParts (signature address : Text) : SigTag × Bytes :=
  let tag := tagForAddress P address signature
  match tag.decode signature with
  | some raw =>
    -- the round-trip guard
    if (sigEncode tag.byte raw : Except (Exc Empty) Text) = .ok signature then (tag, raw)
    else (.opaqueText, utf8 signature)
  | none => (.opaqueText, utf8 signature)

def packFromWire (signature address : Text) : Except (Exc ρ) Bytes :=
  let (tag, raw) := sigParts P signature address
  packSignature tag raw

/-- `to_wire`, reading a blob off the front of a record. -/
def readSignature : Bytes → Except (Exc ρ) (Text × Bytes)
  | tag :: a :: b :: s => do
    let n := leVal [a, b]
    if s.length < n then throw .valueError
    return (← sigEncode tag (s.take n), s.drop n)
  | _ => .error .valueError

theorem sigEncode_sigParts (signature address : Text) :
    (sigEncode (sigParts P signature address).1.byte (sigParts P signature address).2 :
      Except (Exc ρ) Text) = .ok signature := by
  have hop : (sigEncode SigTag.opaqueText.byte (utf8 signature) : Except (Exc ρ) Text) =
      .ok signature := by
    simp [sigEncode, utf8Decode_utf8]
  simp only [sigParts]
  split
  · split <;> rename_i h
    · revert h
      simp only [sigEncode]
      split
      · split <;> simp
      · split <;> simp
    · exact hop
  · exact hop

/-- A stored signature reads back as the text that was written, whatever it was. -/
theorem readSignature_packFromWire (h : (packFromWire P signature address : Except (Exc ρ) Bytes) =
    .ok b) (s : Bytes) :
    (readSignature (b ++ s) : Except (Exc ρ) (Text × Bytes)) = .ok (signature, s) := by
  have henc := sigEncode_sigParts (ρ := ρ) P signature address
  rcases hparts : sigParts P signature address with ⟨tag, raw⟩
  rw [hparts] at henc
  simp only [packFromWire, hparts, packSignature] at h
  split at h <;> cases h
  have hn : leVal (leBytes 2 raw.length) = raw.length := leVal_leBytes (by omega)
  simp only [leBytes, List.cons_append, List.nil_append] at hn ⊢
  simp [readSignature, hn, henc]

end Bismuth
