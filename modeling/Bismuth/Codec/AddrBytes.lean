import Bismuth.Address
import Bismuth.Lib.Except

/-!
# Addresses as bytes

`addrbytes.py`: an address is stored as a tag and its decoded payload when that provably encodes
back to itself, and verbatim otherwise.
-/

namespace Bismuth
open Py

def verbatim (b : Bytes) : Except (Exc ρ) Bytes :=
  if 255 < b.length then .error .valueError else .ok (0xFF :: UInt8.ofNat b.length :: b)

variable (P : Prims)

def base58Tag (s : Text) : Option UInt8 :=
  if reMultisigAddress s then some 0x04
  else if reEcdsaAddress s then some (if 50 < s.length then 0x02 else 0x01)
  else (versionedSigner P s).map fun _ => 0x03

def packAddr (s : Text) : Except (Exc ρ) Bytes :=
  if reRsaAddress s then
    match fromHex s with
    | some raw => if hex raw = s then .ok (0x00 :: raw) else verbatim (utf8 s)
    | none => verbatim (utf8 s)
  else match base58Tag P s, P.b58decode s with
  | some tag, some body => if P.b58encode body = s then .ok (tag :: body) else verbatim (utf8 s)
  | _, _ => verbatim (utf8 s)

def unpackAddr : Bytes → Except (Exc ρ) Text
  | [] => .error .indexError
  | tag :: body =>
    if tag = 0x00 then .ok (hex body)
    else if 0x01 ≤ tag ∧ tag ≤ 0x04 then .ok (P.b58encode body)
    else if tag = 0xFF then
      match body with
      | [] => .error .indexError
      | n :: b =>
        if b.length < n.toNat then .error .valueError
        else match utf8Decode (b.take n.toNat) with
        | some s => .ok s
        | none => .error .valueError
    else .error .valueError

theorem unpackAddr_verbatim (h : (verbatim (utf8 s) : Except (Exc ρ) Bytes) = .ok b) :
    (unpackAddr P b : Except (Exc ρ) Text) = .ok s := by
  simp only [verbatim] at h
  split at h <;> cases h
  have hn : (UInt8.ofNat (utf8 s).length).toNat = (utf8 s).length := by
    rw [UInt8.toNat_ofNat']; omega
  have h4 : ¬(255 : UInt8) ≤ 4 := by decide
  simp [unpackAddr, hn, utf8Decode_utf8, h4]

theorem unpackAddr_packAddr (h : (packAddr P s : Except (Exc ρ) Bytes) = .ok b) :
    (unpackAddr P b : Except (Exc ρ) Text) = .ok s := by
  simp only [packAddr] at h
  split at h
  · split at h
    · split at h
      · cases h
        simpa [unpackAddr]
      · exact unpackAddr_verbatim P h
    · exact unpackAddr_verbatim P h
  · split at h
    · rename_i tag body htag hbody
      split at h <;> rename_i he
      · cases h
        have : tag ≠ 0 ∧ 1 ≤ tag ∧ tag ≤ 4 := by
          simp only [base58Tag] at htag
          split at htag
          · cases htag; decide
          · split at htag
            · split at htag <;> cases htag <;> decide
            · obtain ⟨_, -, rfl⟩ := Option.map_eq_some_iff.1 htag
              decide
        simp [unpackAddr, this, he]
      · exact unpackAddr_verbatim P h
    · exact unpackAddr_verbatim P h

end Bismuth
