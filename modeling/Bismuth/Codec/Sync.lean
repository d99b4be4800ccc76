import Bismuth.Codec.TxRec
import Bismuth.Lib.SelfDelimiting

/-!
# Blocks on the wire

`sync_codec.py`: the blocks that a peer asks for as one sequence of bytes. Every field tells where it ends, and a
field whose compact form would not give its text back is written verbatim.
-/

namespace Bismuth
open Py

/-- A transaction in the order of its consensus fields. -/
structure SyncTx where
  timestamp : Text
  address : Text
  recipient : Text
  amount : Text
  signature : Text
  publicKey : Text
  operation : Text
  openfield : Text
  deriving DecidableEq

structure SyncBlock where
  height : Nat
  hash : Text
  transactions : List SyncTx
  deriving DecidableEq

/-! ## Fields -/

def lp1 (b : Bytes) : Except (Exc ρ) Bytes :=
  if 255 < b.length then .error .valueError else .ok (UInt8.ofNat b.length :: b)

def rd1 : Bytes → Except (Exc ρ) (Bytes × Bytes)
  | [] => .error .valueError
  | n :: s => if s.length < n.toNat then .error .valueError else .ok (s.take n.toNat, s.drop n.toNat)

def packPubkey (pk : Text) : Bytes :=
  let plain := 1 :: (uvarint (utf8 pk).length ++ utf8 pk)
  match base64Decode pk with
  | some raw => if base64Encode raw = pk then 0 :: (uvarint raw.length ++ raw) else plain
  | none => plain

def unpackPubkey : Bytes → Except (Exc ρ) (Text × Bytes)
  | [] => .error .valueError
  | flag :: s => do
    let (n, s) ← uvarintDecode false s
    if s.length < n then throw .valueError
    if flag = 0 then return (base64Encode (s.take n), s.drop n)
    else match utf8Decode (s.take n) with
      | some pk => return (pk, s.drop n)
      | none => throw .valueError

variable (P : Prims)

/-- An address in `_decode_tx`. -/
def readAddr (s : Bytes) : Except (Exc ρ) (Text × Bytes) := do
  let (b, s) ← rd1 s
  return (← unpackAddr P b, s)

/-! ## Transactions and blocks -/

def encodeTx (tx : SyncTx) : Except (Exc ρ) Bytes := do
  let ts ← packTimestamp tx.timestamp
  let addr ← packAddr P tx.address >>= lp1
  let recip ← packAddr P tx.recipient >>= lp1
  let amount ← toUnits (.str tx.amount) >>= uvarintEncode
  let sig ← packFromWire P tx.signature tx.address
  let op ← lp4 (utf8 tx.operation)
  let of ← lp4 (utf8 tx.openfield)
  return ts ++ (addr ++ (recip ++ (amount ++ (sig ++ (packPubkey tx.publicKey ++ (op ++ of))))))

def decodeTx (s : Bytes) : Except (Exc ρ) (SyncTx × Bytes) := do
  let (cs, s) ← uvarintDecode false s
  let (address, s) ← readAddr P s
  let (recipient, s) ← readAddr P s
  let (units, s) ← uvarintDecode false s
  let (signature, s) ← readSignature s
  let (publicKey, s) ← unpackPubkey s
  let (operation, s) ← readText s
  let (openfield, s) ← readText s
  return (⟨timestampText cs, address, recipient, fromUnits units, signature, publicKey, operation, openfield⟩, s)

/-- The hash of a block in `encode_blocks`: the raw digest, or a text that is none (or a digest that is too
long) verbatim. -/
def encodeHash (hash : Text) : Except (Exc ρ) Bytes :=
  match fromHex hash with
  | some raw =>
    match (lp1 raw : Except (Exc ρ) Bytes) with
    | .ok b => .ok (0 :: b)
    | .error _ => (1 :: ·) <$> lp1 (utf8 hash)
  | none => (1 :: ·) <$> lp1 (utf8 hash)

def readHash : Bytes → Except (Exc ρ) (Text × Bytes)
  | [] => .error .valueError
  | flag :: s => do
    let (b, s) ← rd1 s
    if flag = 0 then return (hex b, s)
    else match utf8Decode b with
      | some hash => return (hash, s)
      | none => throw .valueError

/-- A block in the loop of `encode_blocks`. -/
def encodeBlock (blk : SyncBlock) : Except (Exc ρ) Bytes := do
  let hash ← encodeHash blk.hash
  let txs ← encodeAll (encodeTx P) blk.transactions
  return uvarint blk.height ++ (hash ++ (uvarint blk.transactions.length ++ txs))

/-- A block in the loop of `decode_blocks`. -/
def decodeBlock (s : Bytes) : Except (Exc ρ) (SyncBlock × Bytes) := do
  let (height, s) ← uvarintDecode false s
  let (hash, s) ← readHash s
  let (ntx, s) ← uvarintDecode false s
  let (transactions, s) ← readMany (decodeTx P) ntx s
  return (⟨height, hash, transactions⟩, s)

/-- `MAGIC`. -/
def syncMagic : Bytes := [0x42, 0x53, 0x59, 0x31]

def encodeBlocks (blocks : List SyncBlock) : Except (Exc ρ) Bytes := do
  let body ← encodeAll (encodeBlock P) blocks
  return syncMagic ++ (uvarint blocks.length ++ body)

/-- `decode_blocks`; what follows the last block is not looked at. -/
def decodeBlocks (buf : Bytes) : Except (Exc ρ) (List SyncBlock) := do
  if buf.take 4 ≠ syncMagic then throw .valueError
  let (nblocks, s) ← uvarintDecode false (buf.drop 4)
  let (blocks, _) ← readMany (decodeBlock P) nblocks s
  return blocks

/-! ## Reading back -/

variable {P}

theorem rd1_lp1 (h : (lp1 b : Except (Exc ρ) Bytes) = .ok c) (s : Bytes) :
    (rd1 (c ++ s) : Except (Exc ρ) (Bytes × Bytes)) = .ok (b, s) := by
  rw [lp1] at h
  split at h
  · cases h
  · rename_i hlen
    cases h
    have hn : (UInt8.ofNat b.length).toNat = b.length := by
      rw [UInt8.toNat_ofNat']
      omega
    simp [rd1, hn]

theorem unpackPubkey_packPubkey (pk : Text) (s : Bytes) :
    (unpackPubkey (packPubkey pk ++ s) : Except (Exc ρ) (Text × Bytes)) = .ok (pk, s) := by
  have hplain : (unpackPubkey (1 :: (uvarint (utf8 pk).length ++ utf8 pk) ++ s) :
      Except (Exc ρ) (Text × Bytes)) = .ok (pk, s) := by
    simp [unpackPubkey, utf8Decode_utf8]
  rw [packPubkey]
  split
  · split
    · rename_i raw _ henc
      simp [unpackPubkey, henc]
    · exact hplain
  · exact hplain

theorem readAddr_packAddr (h : (packAddr P a >>= lp1 : Except (Exc ρ) Bytes) = .ok b) (s : Bytes) :
    (readAddr P (b ++ s) : Except (Exc ρ) (Text × Bytes)) = .ok (a, s) := by
  obtain ⟨c, hc, hb⟩ := Except.bind_eq_ok.1 h
  rw [readAddr, rd1_lp1 hb, Except.ok_bind]
  simp only [unpackAddr_packAddr P hc, Except.ok_bind, Except.pure_eq_ok]

theorem readHash_encodeHash {hash : Text} (hhash : ∀ b, fromHex hash = some b → hex b = hash)
    (h : (encodeHash hash : Except (Exc ρ) Bytes) = .ok b) (s : Bytes) :
    (readHash (b ++ s) : Except (Exc ρ) (Text × Bytes)) = .ok (hash, s) := by
  have hplain : ∀ {b}, ((1 :: ·) <$> lp1 (utf8 hash) : Except (Exc ρ) Bytes) = .ok b →
      (readHash (b ++ s) : Except (Exc ρ) (Text × Bytes)) = .ok (hash, s) := by
    intro b hb
    cases hlp : (lp1 (utf8 hash) : Except (Exc ρ) Bytes) with
    | error e =>
      rw [hlp] at hb
      cases hb
    | ok c =>
      rw [hlp] at hb
      cases hb
      rw [List.cons_append, readHash, rd1_lp1 hlp, Except.ok_bind]
      simp [utf8Decode_utf8]
  rw [encodeHash] at h
  split at h
  · rename_i raw hraw
    split at h
    · rename_i c hlp
      cases h
      rw [List.cons_append, readHash, rd1_lp1 hlp, Except.ok_bind]
      simp [hhash raw hraw]
    · exact hplain h
  · exact hplain h

/-! ## What can be encoded -/

theorem length_le_base64Encode (b : Bytes) : b.length ≤ (base64Encode b).length := by
  induction b using base64Encode.induct with
  | case1 => exact le_rfl
  | case2 a => exact (by decide : 1 ≤ 4)
  | case3 a b => exact (by decide : 2 ≤ 4)
  | case4 a b c s ih =>
    rw [base64Encode]
    simp only [List.length_cons]
    omega

theorem length_sigParts_le (signature address : Text) :
    (sigParts P signature address).2.length ≤ 4 * signature.length := by
  have hplain := length_utf8_le signature
  rw [sigParts]
  split
  · rename_i raw hraw
    split
    · rename_i henc
      generalize tagForAddress P address signature = tag at hraw henc
      cases tag with
      | opaqueText =>
        cases hraw
        exact hplain
      | recoverable =>
        have hhex : hex raw = signature := by simpa [sigEncode, SigTag.byte] using henc
        have := length_hex raw
        rw [hhex] at this
        show raw.length ≤ _
        omega
      | _ =>
        have hb64 : base64Encode raw = signature := by simpa [sigEncode, SigTag.byte] using henc
        have := length_le_base64Encode raw
        rw [hb64] at this
        show raw.length ≤ _
        omega
    · exact hplain
  · exact hplain

/-- A base58 decoder that makes at most 254 bytes of an address. -/
def Prims.Base58Fits (P : Prims) : Prop := ∀ s body, s.length ≤ 56 → P.b58decode s = some body → body.length ≤ 254

theorem exists_packAddr (hb58 : P.Base58Fits) {a : Text} (ha : a.length ≤ 56) :
    ∃ b, (packAddr P a >>= lp1 : Except (Exc ρ) Bytes) = .ok b := by
  have hshort : ∀ {c : Bytes}, c.length ≤ 255 → ∃ b, (lp1 c : Except (Exc ρ) Bytes) = .ok b :=
    fun hc => ⟨_, if_neg (by omega)⟩
  have hplain : ∃ b, (verbatim (utf8 a) >>= lp1 : Except (Exc ρ) Bytes) = .ok b := by
    have := length_utf8_le a
    rw [verbatim, if_neg (by omega), Except.ok_bind]
    refine hshort ?_
    simp only [List.length_cons]
    omega
  rw [packAddr]
  split
  · split
    · rename_i raw _
      split
      · rename_i hraw
        rw [Except.ok_bind]
        refine hshort ?_
        have := length_hex raw
        rw [hraw] at this
        rw [List.length_cons]
        omega
      · exact hplain
    · exact hplain
  · split
    · rename_i tag body _ hbody
      split
      · rw [Except.ok_bind]
        refine hshort ?_
        have := hb58 a body ha hbody
        rw [List.length_cons]
        omega
      · exact hplain
    · exact hplain

/-- A transaction whose fields are as the consensus writes them and fit their length prefixes. -/
structure SyncTx.Canonical (tx : SyncTx) : Prop where
  timestamp : ∃ cs, cs < 10 ^ 28 ∧ tx.timestamp = fixedText false 2 cs
  address : tx.address.length ≤ 56
  recipient : tx.recipient.length ≤ 56
  amount : ∃ u, u < 10 ^ 28 ∧ tx.amount = fixedText false 8 u
  signature : tx.signature.length ≤ 8192
  operation : (utf8 tx.operation).length < 2 ^ 32
  openfield : (utf8 tx.openfield).length < 2 ^ 32

/-- A block of such transactions under a lowercase hexadecimal hash of at most 255 bytes. -/
structure SyncBlock.Canonical (blk : SyncBlock) : Prop where
  hash : ∀ c ∈ blk.hash, isHexLower c
  size : ((fromHex blk.hash).getD (utf8 blk.hash)).length ≤ 255
  transactions : ∀ tx ∈ blk.transactions, tx.Canonical

theorem exists_lp4 {t : Text} (h : (utf8 t).length < 2 ^ 32) :
    ∃ b, (lp4 (utf8 t) : Except (Exc ρ) Bytes) = .ok b := by
  rw [lp4, v2Lp, toBytesLE, if_pos (by omega)]
  exact ⟨_, rfl⟩

theorem exists_encodeHash {hash : Text} (h : ((fromHex hash).getD (utf8 hash)).length ≤ 255) :
    ∃ b, (encodeHash hash : Except (Exc ρ) Bytes) = .ok b := by
  rw [encodeHash]
  cases hraw : fromHex hash with
  | some raw =>
    rw [hraw, Option.getD_some] at h
    simp only [lp1, if_neg (not_lt.2 h)]
    exact ⟨_, rfl⟩
  | none =>
    rw [hraw, Option.getD_none] at h
    simp only [lp1, if_neg (not_lt.2 h)]
    exact ⟨_, rfl⟩

theorem SyncTx.Canonical.recovers {tx : SyncTx} (hb58 : P.Base58Fits) (h : tx.Canonical) :
    Recovers (encodeTx P : SyncTx → Except (Exc ρ) Bytes) (decodeTx P) tx := by
  obtain ⟨cs, hcs, hts⟩ := h.timestamp
  obtain ⟨u, hu, hamount⟩ := h.amount
  obtain ⟨addr, haddr⟩ := exists_packAddr (ρ := ρ) hb58 h.address
  obtain ⟨recip, hrecip⟩ := exists_packAddr (ρ := ρ) hb58 h.recipient
  obtain ⟨sig, hsig⟩ : ∃ b, (packFromWire P tx.signature tx.address : Except (Exc ρ) Bytes) = .ok b := by
    have h1 := length_sigParts_le (P := P) tx.signature tx.address
    have h2 := h.signature
    refine ⟨_, if_neg (?_ : ¬0xFFFF < (sigParts P tx.signature tx.address).2.length)⟩
    omega
  obtain ⟨op, hop⟩ := exists_lp4 (ρ := ρ) h.operation
  obtain ⟨of, hof⟩ := exists_lp4 (ρ := ρ) h.openfield
  have hpack : (packTimestamp tx.timestamp : Except (Exc ρ) Bytes) = .ok (uvarint cs) := by
    rw [packTimestamp, hts, ← timestampText, v2TsCs_timestampText hcs]
    rfl
  have hunits : (toUnits (.str tx.amount) >>= uvarintEncode : Except (Exc ρ) Bytes) = .ok (uvarint u) := by
    rw [hamount, toUnits_fixedText_of_lt hu]
    rfl
  refine ⟨_, by rw [encodeTx, hpack, haddr, hrecip, hunits, hsig, hop, hof]; rfl, fun s => ?_⟩
  simp only [decodeTx, List.append_assoc, uvarintDecode_uvarint, Except.ok_bind, readAddr_packAddr haddr,
    readAddr_packAddr hrecip, readSignature_packFromWire P hsig, unpackPubkey_packPubkey, readText_lp4 hop,
    readText_lp4 hof, Except.pure_eq_ok, fromUnits_natCast, timestampText, ← hts, ← hamount]

theorem SyncBlock.Canonical.recovers {blk : SyncBlock} (hb58 : P.Base58Fits) (h : blk.Canonical) :
    Recovers (encodeBlock P : SyncBlock → Except (Exc ρ) Bytes) (decodeBlock P) blk := by
  obtain ⟨hash, hhash⟩ := exists_encodeHash (ρ := ρ) h.size
  obtain ⟨txs, htxs, hread⟩ := Recovers.all fun tx htx => (h.transactions tx htx).recovers (ρ := ρ) hb58
  refine ⟨_, by rw [encodeBlock, hhash, Except.ok_bind, htxs]; rfl, fun s => ?_⟩
  simp only [decodeBlock, List.append_assoc, uvarintDecode_uvarint, Except.ok_bind,
    readHash_encodeHash (fun b hb => hex_of_fromHex h.hash hb) hhash, hread, Except.pure_eq_ok]

/-- Blocks in canonical form come back from the wire as they are. -/
theorem decodeBlocks_encodeBlocks (hb58 : P.Base58Fits) (blocks : List SyncBlock) (h : ∀ blk ∈ blocks, blk.Canonical) :
    (encodeBlocks P blocks >>= decodeBlocks P : Except (Exc Empty) (List SyncBlock)) = .ok blocks := by
  obtain ⟨body, hbody, hread⟩ := Recovers.all fun blk hblk => (h blk hblk).recovers (ρ := Empty) hb58
  have hrest := hread []
  rw [List.append_nil] at hrest
  rw [encodeBlocks, hbody]
  simp only [Except.ok_bind, Except.pure_eq_ok, decodeBlocks]
  rw [if_neg (by rw [not_not]; rfl), show (syncMagic ++ (uvarint blocks.length ++ body)).drop 4 =
    uvarint blocks.length ++ body from rfl, uvarintDecode_uvarint, Except.ok_bind, hrest]
  rfl

/-- A block of one transaction of `u` units. -/
def sampleSync (u : Nat) : List SyncBlock :=
  [⟨7, hex [1, 2], [⟨fixedText false 2 100, ['a'], ['b'], fixedText false 8 u, ['s'], ['k'], ['0'], []⟩]⟩]

theorem decodeBlocks_encodeBlocks_sample :
    (encodeBlocks .toy (sampleSync 5) >>= decodeBlocks .toy : Except (Exc Empty) (List SyncBlock)) =
      .ok (sampleSync 5) := by
  refine decodeBlocks_encodeBlocks ?_ _ ?_
  · intro s body _ h
    simp only [Prims.toy] at h
    split at h
    · cases h
      exact Nat.zero_le _
    · cases h
  · intro blk hblk
    rw [List.mem_singleton.1 hblk]
    refine ⟨by decide, by decide, fun tx htx => ?_⟩
    rw [List.mem_singleton.1 htx]
    exact ⟨⟨100, by decide, rfl⟩, by decide, by decide, ⟨5, by decide, rfl⟩, by decide, by decide, by decide⟩

/-- An amount with 29 digits is not encoded. -/
theorem encodeBlocks_raises :
    (encodeBlocks .toy (sampleSync (10 ^ 28)) : Except (Exc Empty) Bytes) = .error .invalidOperation := by
  decide +kernel

end Bismuth
