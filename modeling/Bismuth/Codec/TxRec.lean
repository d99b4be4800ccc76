import Bismuth.Codec.AddrBytes
import Bismuth.Codec.SigBytes
import Bismuth.Codec.TxFields

/-!
# A transaction as one record

`txrec.py`: a stored transaction after the fork is one blob. The addresses are positions in the
block's own list of addresses, the public key is the id of a table, and the block hash is not
stored at all.
-/

namespace Bismuth
open Py

/-- The stored fields of a transaction, its public key replaced by the key's id. -/
structure IdTx where
  timestamp : Text
  address : Text
  recipient : Text
  amount : Text
  signature : Text
  pubkeyId : Nat
  blockHash : Text
  fee : Text
  reward : Text
  operation : Text
  openfield : Text
  deriving DecidableEq

/-- What `unpack_row` returns: the addresses are still positions. -/
structure UnpackedTx where
  timestamp : Text
  addrIdx : Nat
  recipIdx : Nat
  amount : Text
  signature : Text
  pubkeyId : Nat
  fee : Text
  reward : Text
  operation : Text
  openfield : Text
  deriving DecidableEq

def lp4 (b : Bytes) : Except (Exc ρ) Bytes := v2Lp b 4

/-- `_rd4` of a text: its length, its bytes, and what follows them. -/
def readText (s : Bytes) : Except (Exc ρ) (Text × Bytes) := do
  if s.length < 4 then throw .valueError
  let n := leVal (s.take 4)
  let s := s.drop 4
  if s.length < n then throw .valueError
  match utf8Decode (s.take n) with
  | some t => return (t, s.drop n)
  | none => throw .valueError

variable (P : Prims) (mode : Mode)

def packRow (t : IdTx) (addrIdx recipIdx : Nat) : Except (Exc ρ) Bytes := do
  let ts ← packTimestamp t.timestamp
  let amount ← packNum mode t.amount
  let sig ← packFromWire P t.signature t.address
  let fee ← packNum mode t.fee
  let reward ← packNum mode t.reward
  let op ← lp4 (utf8 t.operation)
  let of ← lp4 (utf8 t.openfield)
  return ts ++ (uvarint addrIdx ++ (uvarint recipIdx ++ (amount ++ (sig ++ (uvarint t.pubkeyId ++
    (fee ++ (reward ++ (op ++ of))))))))

def unpackRow (s : Bytes) : Except (Exc ρ) UnpackedTx := do
  let (cs, s) ← uvarintDecode false s
  let (addrIdx, s) ← uvarintDecode false s
  let (recipIdx, s) ← uvarintDecode false s
  let (amount, s) ← uvarintDecode false s
  let (signature, s) ← readSignature s
  let (pubkeyId, s) ← uvarintDecode false s
  let (fee, s) ← uvarintDecode false s
  let (reward, s) ← uvarintDecode false s
  let (operation, s) ← readText s
  let (openfield, _) ← readText s
  return {
    timestamp := timestampText cs, addrIdx, recipIdx, amount := moneyText mode amount, signature,
    pubkeyId, fee := moneyText mode fee, reward := moneyText mode reward, operation, openfield }

theorem readText_lp4 (h : (lp4 (utf8 t) : Except (Exc ρ) Bytes) = .ok b) (s : Bytes) :
    (readText (b ++ s) : Except (Exc ρ) (Text × Bytes)) = .ok (t, s) := by
  simp only [lp4, v2Lp, toBytesLE] at h
  split at h
  · rename_i hn
    cases h
    have hv : leVal (leBytes 4 (utf8 t).length) = (utf8 t).length :=
      leVal_leBytes (by exact_mod_cast hn.2)
    have h1 : (leBytes 4 (utf8 t).length ++ utf8 t ++ s).take 4 = leBytes 4 (utf8 t).length := by
      rw [List.append_assoc, List.take_left' (by simp)]
    have h2 : (leBytes 4 (utf8 t).length ++ utf8 t ++ s).drop 4 = utf8 t ++ s := by
      rw [List.append_assoc, List.drop_left' (by simp)]
    rw [readText]
    simp only [Int.toNat_natCast, h1, h2, hv, List.take_left, List.drop_left, utf8Decode_utf8]
    simp
  · cases h

/-- The normal form of a stored row: its numbers as the record's reader writes them. -/
theorem unpackRow_packRow (h : (packRow P mode t ai ri : Except (Exc ρ) Bytes) = .ok b) :
    ∃ cs amount fee reward : Nat,
      (v2TsCs t.timestamp : Except (Exc ρ) Int) = .ok cs ∧
      (numUnits mode t.amount : Except (Exc ρ) Int) = .ok amount ∧
      (numUnits mode t.fee : Except (Exc ρ) Int) = .ok fee ∧
      (numUnits mode t.reward : Except (Exc ρ) Int) = .ok reward ∧
      (unpackRow mode b : Except (Exc ρ) UnpackedTx) = .ok {
        timestamp := timestampText cs, addrIdx := ai, recipIdx := ri,
        amount := moneyText mode amount, signature := t.signature, pubkeyId := t.pubkeyId,
        fee := moneyText mode fee, reward := moneyText mode reward, operation := t.operation,
        openfield := t.openfield } := by
  simp only [packRow, packTimestamp, packNum, Except.bind_eq_ok] at h
  obtain ⟨_, ⟨cs, hcs, hts⟩, _, ⟨amount, hamount, ha⟩, sig, hsig, _, ⟨fee, hfee, hf⟩,
    _, ⟨reward, hreward, hr⟩, op, hop, of, hof, hb⟩ := h
  obtain ⟨cs, rfl, rfl⟩ := uvarintEncode_ok hts
  obtain ⟨amount, rfl, rfl⟩ := uvarintEncode_ok ha
  obtain ⟨fee, rfl, rfl⟩ := uvarintEncode_ok hf
  obtain ⟨reward, rfl, rfl⟩ := uvarintEncode_ok hr
  refine ⟨cs, amount, fee, reward, hcs, hamount, hfee, hreward, ?_⟩
  cases hb
  have hof' := readText_lp4 hof []
  rw [List.append_nil] at hof'
  simp only [unpackRow, uvarintDecode_uvarint, Except.ok_bind, readSignature_packFromWire P hsig,
    readText_lp4 hop, hof', Except.pure_eq_ok]

end Bismuth
