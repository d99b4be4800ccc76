import Bismuth.Codec.Sync

/-!
# Payloads that cannot be read

A payload comes from a peer, so every read is bounded by what is left of it and raises a `ValueError` beyond that.
The one that is not is the tag of an address: `unpack_addr` looks at the first byte of a field that may be empty,
and after a verbatim tag at the length that may be missing.
-/

namespace Bismuth
open Py

/-- An address field without a tag, or with a verbatim tag and nothing after it. -/
def Untagged (s : Bytes) : Prop := (∃ t, s = 0 :: t) ∨ ∃ t, s = 1 :: 0xFF :: t

section
variable {P : Prims} {e : Exc ρ}

/-! ## Bounded reads -/

theorem uvarintDecode_ne_error (he : e ≠ .valueError) (inner : Bool) (s : Bytes) :
    uvarintDecode inner s ≠ .error e := by
  induction s generalizing inner with
  | nil =>
    intro h
    cases h
    exact he rfl
  | cons b s ih =>
    intro h
    rw [uvarintDecode] at h
    split at h
    · split at h <;> cases h
      exact he rfl
    · obtain h | ⟨p, -, h⟩ := Except.bind_eq_error.1 h
      · exact ih true h
      · cases h

theorem uvarintDecode_length_lt {inner : Bool}
    (h : (uvarintDecode inner s : Except (Exc ρ) (Nat × Bytes)) = .ok (n, t)) : t.length < s.length := by
  induction s generalizing inner n with
  | nil => cases h
  | cons b s ih =>
    rw [uvarintDecode] at h
    split at h
    · split at h <;> cases h
      simp
    · obtain ⟨⟨v, t'⟩, hv, h⟩ := Except.bind_eq_ok.1 h
      cases h
      have := ih hv
      rw [List.length_cons]
      omega

section
variable (he : e ≠ .valueError)
include he

theorem rd1_ne_error (s : Bytes) : rd1 s ≠ .error e := by
  intro h
  cases s with
  | nil =>
    cases h
    exact he rfl
  | cons n s =>
    rw [rd1] at h
    split at h <;> cases h
    exact he rfl

theorem utf8_ne_error (b t : Bytes) :
    (match utf8Decode b with
      | some s => (.ok (s, t) : Except (Exc ρ) (Text × Bytes))
      | none => .error .valueError) ≠ .error e := by
  cases utf8Decode b with
  | some s => simp
  | none => simpa using he.symm

theorem readText_ne_error (s : Bytes) : readText s ≠ .error e := by
  rw [readText]
  dsimp only
  split
  · simpa using he.symm
  · split
    · simpa using he.symm
    · exact utf8_ne_error he _ _

theorem readSignature_ne_error (s : Bytes) : readSignature s ≠ .error e := by
  intro h
  match s, h with
  | [], h | [_], h | [_, _], h => exact he (Except.error.inj h).symm
  | tag :: a :: b :: s, h =>
    simp only [readSignature] at h
    split at h
    · exact he (Except.error.inj h).symm
    · obtain h | ⟨t, -, h⟩ := Except.bind_eq_error.1 h
      · rw [sigEncode] at h
        split at h
        · split at h <;> cases h
          exact he rfl
        · split at h <;> cases h
      · cases h

theorem unpackPubkey_ne_error (s : Bytes) : unpackPubkey s ≠ .error e := by
  intro h
  cases s with
  | nil => exact he (Except.error.inj h).symm
  | cons flag s =>
    rw [unpackPubkey] at h
    obtain h | ⟨⟨n, s'⟩, -, h⟩ := Except.bind_eq_error.1 h
    · exact uvarintDecode_ne_error he false s h
    · dsimp only at h
      split at h
      · exact he (Except.error.inj h).symm
      · split at h
        · cases h
        · exact utf8_ne_error he _ _ h

theorem readHash_ne_error (s : Bytes) : readHash s ≠ .error e := by
  intro h
  cases s with
  | nil => exact he (Except.error.inj h).symm
  | cons flag s =>
    rw [readHash] at h
    obtain h | ⟨⟨b, s'⟩, -, h⟩ := Except.bind_eq_error.1 h
    · exact rd1_ne_error he s h
    · dsimp only at h
      split at h
      · cases h
      · exact utf8_ne_error he _ _ h

end

/-! ## Addresses -/

theorem unpackAddr_eq_error (he : e ≠ .valueError) (b : Bytes) :
    unpackAddr P b = .error e ↔ e = .indexError ∧ (b = [] ∨ b = [0xFF]) := by
  match b with
  | [] => simp [unpackAddr, eq_comm]
  | [tag] =>
    by_cases htag : tag = 0xFF
    · subst htag
      simp [unpackAddr, eq_comm, show ¬(255 : UInt8) ≤ 4 by decide]
    · simp only [unpackAddr, if_neg htag]
      split
      · simp [htag]
      · split <;> simp [htag, he.symm]
  | tag :: n :: b =>
    simp only [unpackAddr, List.cons_ne_nil, List.cons.injEq, and_false, or_self, iff_false]
    intro h
    split at h
    · cases h
    · split at h
      · cases h
      · split at h
        · split at h
          · exact he (Except.error.inj h).symm
          · split at h <;> cases h
            exact he rfl
        · exact he (Except.error.inj h).symm

theorem rd1_eq_ok {s : Bytes} : (rd1 s : Except (Exc ρ) (Bytes × Bytes)) = .ok (b, t) ↔
    ∃ n, s = n :: (b ++ t) ∧ b.length = n.toNat := by
  cases s with
  | nil => simp [rd1]
  | cons n s =>
    rw [rd1]
    constructor
    · intro h
      split at h <;> cases h
      exact ⟨n, by rw [List.take_append_drop], by rw [List.length_take]; omega⟩
    · rintro ⟨n', h, hlen⟩
      obtain ⟨rfl, rfl⟩ := List.cons.inj h
      rw [if_neg (by rw [List.length_append]; omega), ← hlen, List.take_left, List.drop_left]

theorem readAddr_eq_error (he : e ≠ .valueError) (s : Bytes) :
    readAddr P s = .error e ↔ e = .indexError ∧ Untagged s := by
  have hunpack (b t : Bytes) : (do return (← unpackAddr P b, t) : Except (Exc ρ) (Text × Bytes)) = .error e ↔
      e = .indexError ∧ (b = [] ∨ b = [0xFF]) := by
    rw [← unpackAddr_eq_error (P := P) he]
    cases (unpackAddr P b : Except (Exc ρ) Text) <;> simp
  rw [readAddr, Except.bind_eq_error, or_iff_right (rd1_ne_error he s)]
  constructor
  · rintro ⟨⟨b, t⟩, hrd, h⟩
    obtain ⟨n, rfl, hlen⟩ := rd1_eq_ok.1 hrd
    obtain ⟨rfl, rfl | rfl⟩ := (hunpack b t).1 h
    · exact ⟨rfl, .inl ⟨t, by rw [← UInt8.toNat_inj.1 (show (0 : UInt8).toNat = n.toNat from hlen)]; rfl⟩⟩
    · exact ⟨rfl, .inr ⟨t, by rw [← UInt8.toNat_inj.1 (show (1 : UInt8).toNat = n.toNat from hlen)]; rfl⟩⟩
  · rintro ⟨rfl, ⟨t, rfl⟩ | ⟨t, rfl⟩⟩
    · exact ⟨([], t), rd1_eq_ok.2 ⟨0, rfl, rfl⟩, (hunpack [] t).2 ⟨rfl, .inl rfl⟩⟩
    · exact ⟨([0xFF], t), rd1_eq_ok.2 ⟨1, rfl, rfl⟩, (hunpack [0xFF] t).2 ⟨rfl, .inr rfl⟩⟩

/-! ## Where an address is read -/

variable (P)

/-- `_decode_tx` at `t` reads an address at `s`. -/
inductive TxAddress (t : Bytes) : Bytes → Prop
  | sender : (uvarintDecode false t : Except (Exc Empty) (Nat × Bytes)) = .ok (cs, s) → TxAddress t s
  | recipient : (uvarintDecode false t : Except (Exc Empty) (Nat × Bytes)) = .ok (cs, s) →
    (readAddr P s : Except (Exc Empty) (Text × Bytes)) = .ok (address, s') → TxAddress t s'

/-- The block at `b` has a transaction at `t`. -/
inductive BlockTx (b : Bytes) : Bytes → Prop
  | intro : (uvarintDecode false b : Except (Exc Empty) (Nat × Bytes)) = .ok (n, s) →
    (readHash s : Except (Exc Empty) (Text × Bytes)) = .ok (digest, s') →
    (uvarintDecode false s' : Except (Exc Empty) (Nat × Bytes)) = .ok (ntx, s'') →
    ReadsAt (ε := Exc Empty) (decodeTx P) ntx s'' t → BlockTx b t

/-- The payload has a block at `b`. -/
inductive PayloadBlock (buf : Bytes) : Bytes → Prop
  | intro : buf.take 4 = syncMagic →
    (uvarintDecode false (buf.drop 4) : Except (Exc Empty) (Nat × Bytes)) = .ok (nblocks, s) →
    ReadsAt (ε := Exc Empty) (decodeBlock P) nblocks s b → PayloadBlock buf b

/-- `decode_blocks` comes to read an address at `s`. -/
def AddressAt (buf s : Bytes) : Prop := ∃ b, PayloadBlock P buf b ∧ ∃ t, BlockTx P b t ∧ TxAddress P t s

variable {P}

end

section
variable {P : Prims} {e : Exc Empty} {s t b buf : Bytes}

theorem decodeTx_eq_error (he : e ≠ .valueError) :
    decodeTx P t = .error e ↔ e = .indexError ∧ ∃ s, TxAddress P t s ∧ Untagged s := by
  constructor
  · intro h
    rw [decodeTx] at h
    obtain h | ⟨⟨cs, s⟩, hcs, h⟩ := Except.bind_eq_error.1 h
    · exact absurd h (uvarintDecode_ne_error he _ _)
    obtain h | ⟨⟨address, s1⟩, haddr, h⟩ := Except.bind_eq_error.1 h
    · obtain ⟨rfl, hs⟩ := (readAddr_eq_error he _).1 h
      exact ⟨rfl, s, .sender hcs, hs⟩
    obtain h | ⟨⟨recip, s2⟩, -, h⟩ := Except.bind_eq_error.1 h
    · obtain ⟨rfl, hs⟩ := (readAddr_eq_error he _).1 h
      exact ⟨rfl, s1, .recipient hcs haddr, hs⟩
    obtain h | ⟨⟨u, s3⟩, -, h⟩ := Except.bind_eq_error.1 h
    · exact absurd h (uvarintDecode_ne_error he _ _)
    obtain h | ⟨⟨sig, s4⟩, -, h⟩ := Except.bind_eq_error.1 h
    · exact absurd h (readSignature_ne_error he _)
    obtain h | ⟨⟨pk, s5⟩, -, h⟩ := Except.bind_eq_error.1 h
    · exact absurd h (unpackPubkey_ne_error he _)
    obtain h | ⟨⟨o, s6⟩, -, h⟩ := Except.bind_eq_error.1 h
    · exact absurd h (readText_ne_error he _)
    obtain h | ⟨⟨field, s7⟩, -, h⟩ := Except.bind_eq_error.1 h
    · exact absurd h (readText_ne_error he _)
    cases h
  · rintro ⟨rfl, s, hs | ⟨hs, haddr⟩, hun⟩
    · simp only [decodeTx, hs, Except.ok_bind, (readAddr_eq_error he _).2 ⟨rfl, hun⟩, Except.error_bind]
    · simp only [decodeTx, hs, Except.ok_bind, haddr, (readAddr_eq_error he _).2 ⟨rfl, hun⟩, Except.error_bind]

theorem decodeBlock_eq_error (he : e ≠ .valueError) :
    decodeBlock P b = .error e ↔ e = .indexError ∧ ∃ t, BlockTx P b t ∧ ∃ s, TxAddress P t s ∧ Untagged s := by
  constructor
  · intro h
    rw [decodeBlock] at h
    obtain h | ⟨⟨n, s⟩, hn, h⟩ := Except.bind_eq_error.1 h
    · exact absurd h (uvarintDecode_ne_error he _ _)
    obtain h | ⟨⟨blockHash, s1⟩, hhash, h⟩ := Except.bind_eq_error.1 h
    · exact absurd h (readHash_ne_error he _)
    obtain h | ⟨⟨ntx, s2⟩, hntx, h⟩ := Except.bind_eq_error.1 h
    · exact absurd h (uvarintDecode_ne_error he _ _)
    obtain h | ⟨txs, -, h⟩ := Except.bind_eq_error.1 h
    · obtain ⟨t, hat, ht⟩ := readMany_eq_error.1 h
      obtain ⟨rfl, hs⟩ := (decodeTx_eq_error he).1 ht
      exact ⟨rfl, t, ⟨hn, hhash, hntx, hat⟩, hs⟩
    · cases h
  · rintro ⟨rfl, t, ⟨hn, hhash, hntx, hat⟩, hs⟩
    have hmany := readMany_eq_error.2 ⟨t, hat, (decodeTx_eq_error he).2 ⟨rfl, hs⟩⟩
    simp only [decodeBlock, hn, Except.ok_bind, hhash, hntx, hmany, Except.error_bind]

theorem decodeBlocks_eq_error (he : e ≠ .valueError) :
    decodeBlocks P buf = .error e ↔ e = .indexError ∧ ∃ s, AddressAt P buf s ∧ Untagged s := by
  constructor
  · intro h
    rw [decodeBlocks] at h
    split at h
    · exact absurd (Except.error.inj h).symm he
    rename_i hmagic
    obtain h | ⟨⟨n, s⟩, hn, h⟩ := Except.bind_eq_error.1 h
    · exact absurd h (uvarintDecode_ne_error he _ _)
    obtain h | ⟨blocks, -, h⟩ := Except.bind_eq_error.1 h
    · obtain ⟨b, hat, hb⟩ := readMany_eq_error.1 h
      obtain ⟨rfl, t, ht, s, hs, hun⟩ := (decodeBlock_eq_error he).1 hb
      exact ⟨rfl, s, ⟨b, ⟨not_not.1 hmagic, hn, hat⟩, t, ht, hs⟩, hun⟩
    · cases h
  · rintro ⟨rfl, s, ⟨b, ⟨hmagic, hn, hat⟩, t, ht, hs⟩, hun⟩
    have hmany := readMany_eq_error.2 ⟨b, hat, (decodeBlock_eq_error he).2 ⟨rfl, t, ht, s, hs, hun⟩⟩
    rw [decodeBlocks, if_neg (not_not.2 hmagic)]
    simp only [hn, Except.ok_bind, hmany, Except.error_bind]

/-! ## How many blocks -/

theorem rd1_length_lt (h : (rd1 s : Except (Exc Empty) (Bytes × Bytes)) = .ok (b, t)) : t.length < s.length := by
  obtain ⟨n, rfl, -⟩ := rd1_eq_ok.1 h
  rw [List.length_cons, List.length_append]
  omega

theorem readHash_length_lt (h : (readHash s : Except (Exc Empty) (Text × Bytes)) = .ok (digest, t)) :
    t.length < s.length := by
  cases s with
  | nil => cases h
  | cons flag s =>
    rw [readHash] at h
    obtain ⟨⟨b, s'⟩, hrd, h⟩ := Except.bind_eq_ok.1 h
    have hlt := rd1_length_lt hrd
    have hrest : s' = t := by
      dsimp only at h
      split at h
      · cases h
        rfl
      · split at h <;> cases h
        rfl
    rw [List.length_cons, ← hrest]
    omega

theorem readAddr_length_lt (h : (readAddr P s : Except (Exc Empty) (Text × Bytes)) = .ok (a, t)) :
    t.length < s.length := by
  rw [readAddr] at h
  obtain ⟨⟨b, s'⟩, hrd, h⟩ := Except.bind_eq_ok.1 h
  obtain ⟨a', -, h⟩ := Except.bind_eq_ok.1 h
  cases h
  exact rd1_length_lt hrd

theorem readSignature_length_le (h : (readSignature s : Except (Exc Empty) (Text × Bytes)) = .ok (sig, t)) :
    t.length ≤ s.length := by
  match s, h with
  | [], h | [_], h | [_, _], h => cases h
  | tag :: x :: y :: s, h =>
    simp only [readSignature] at h
    split at h
    · cases h
    · obtain ⟨sig', -, h⟩ := Except.bind_eq_ok.1 h
      cases h
      simp only [List.length_drop, List.length_cons]
      omega

theorem unpackPubkey_length_le (h : (unpackPubkey s : Except (Exc Empty) (Text × Bytes)) = .ok (pk, t)) :
    t.length ≤ s.length := by
  cases s with
  | nil => cases h
  | cons flag s =>
    rw [unpackPubkey] at h
    obtain ⟨⟨n, s'⟩, hn, h⟩ := Except.bind_eq_ok.1 h
    have hlt := uvarintDecode_length_lt hn
    have hrest : t = s'.drop n := by
      dsimp only at h
      split at h
      · cases h
      · split at h
        · cases h
          rfl
        · split at h <;> cases h
          rfl
    rw [List.length_cons, hrest, List.length_drop]
    omega

theorem readText_length_le (h : (readText s : Except (Exc Empty) (Text × Bytes)) = .ok (x, t)) :
    t.length ≤ s.length := by
  rw [readText] at h
  dsimp only at h
  split at h
  · cases h
  · split at h
    · cases h
    · split at h <;> cases h
      simp only [List.length_drop]
      omega

theorem decodeTx_length_lt (h : (decodeTx P s : Except (Exc Empty) (SyncTx × Bytes)) = .ok (tx, t)) :
    t.length < s.length := by
  rw [decodeTx] at h
  obtain ⟨⟨cs, s1⟩, h1, h⟩ := Except.bind_eq_ok.1 h
  obtain ⟨⟨address, s2⟩, h2, h⟩ := Except.bind_eq_ok.1 h
  obtain ⟨⟨recip, s3⟩, h3, h⟩ := Except.bind_eq_ok.1 h
  obtain ⟨⟨u, s4⟩, h4, h⟩ := Except.bind_eq_ok.1 h
  obtain ⟨⟨sig, s5⟩, h5, h⟩ := Except.bind_eq_ok.1 h
  obtain ⟨⟨pk, s6⟩, h6, h⟩ := Except.bind_eq_ok.1 h
  obtain ⟨⟨o, s7⟩, h7, h⟩ := Except.bind_eq_ok.1 h
  obtain ⟨⟨field, s8⟩, h8, h⟩ := Except.bind_eq_ok.1 h
  cases h
  calc t.length ≤ s7.length := readText_length_le h8
    _ ≤ s6.length := readText_length_le h7
    _ ≤ s5.length := unpackPubkey_length_le h6
    _ ≤ s4.length := readSignature_length_le h5
    _ ≤ s3.length := (uvarintDecode_length_lt h4).le
    _ ≤ s2.length := (readAddr_length_lt h3).le
    _ ≤ s1.length := (readAddr_length_lt h2).le
    _ < s.length := uvarintDecode_length_lt h1

theorem decodeBlock_length_lt (h : (decodeBlock P s : Except (Exc Empty) (SyncBlock × Bytes)) = .ok (blk, t)) :
    t.length < s.length := by
  rw [decodeBlock] at h
  obtain ⟨⟨n, s1⟩, h1, h⟩ := Except.bind_eq_ok.1 h
  obtain ⟨⟨digest, s2⟩, h2, h⟩ := Except.bind_eq_ok.1 h
  obtain ⟨⟨ntx, s3⟩, h3, h⟩ := Except.bind_eq_ok.1 h
  obtain ⟨⟨txs, s4⟩, h4, h⟩ := Except.bind_eq_ok.1 h
  cases h
  have htxs := readMany_length_le (fun _ _ _ => decodeTx_length_lt) h4
  calc t.length ≤ s3.length := by omega
    _ ≤ s2.length := (uvarintDecode_length_lt h3).le
    _ ≤ s1.length := (readHash_length_lt h2).le
    _ < s.length := uvarintDecode_length_lt h1

theorem decodeBlocks_length_le (h : (decodeBlocks P buf : Except (Exc Empty) (List SyncBlock)) = .ok blocks) :
    blocks.length ≤ buf.length := by
  rw [decodeBlocks] at h
  split at h
  · cases h
  obtain ⟨⟨n, s⟩, h1, h⟩ := Except.bind_eq_ok.1 h
  obtain ⟨⟨blocks', t⟩, h2, h⟩ := Except.bind_eq_ok.1 h
  cases h
  have hlt := uvarintDecode_length_lt h1
  have hle := readMany_length_le (fun _ _ _ => decodeBlock_length_lt) h2
  rw [List.length_drop] at hlt
  omega

end

/-- A payload gives blocks, no more of them than it has bytes, or a `ValueError`, if and only if every address
that is read in it has a tag, and a verbatim one a length. -/
theorem decodeBlocks_clean_iff (P : Prims) (buf : Bytes) :
    ((∃ blocks, (decodeBlocks P buf : Except (Exc Empty) (List SyncBlock)) = .ok blocks ∧
        blocks.length ≤ buf.length) ∨
      (decodeBlocks P buf : Except (Exc Empty) (List SyncBlock)) = .error .valueError) ↔
      ∀ s, AddressAt P buf s → ¬Untagged s := by
  cases h : (decodeBlocks P buf : Except (Exc Empty) (List SyncBlock)) with
  | ok blocks =>
    refine iff_of_true (.inl ⟨blocks, rfl, decodeBlocks_length_le h⟩) fun s hat hun => ?_
    rw [(decodeBlocks_eq_error (e := .indexError) (by simp)).2 ⟨rfl, s, hat, hun⟩] at h
    cases h
  | error e =>
    by_cases he : e = .valueError
    · refine iff_of_true (.inr (by rw [he])) fun s hat hun => ?_
      rw [(decodeBlocks_eq_error (e := .indexError) (by simp)).2 ⟨rfl, s, hat, hun⟩, he] at h
      cases h
    · obtain ⟨-, s, hat, hun⟩ := (decodeBlocks_eq_error he).1 h
      refine iff_of_false ?_ fun hall => hall s hat hun
      rintro (⟨blocks, hok, -⟩ | herr)
      · cases hok
      · exact he (Except.error.inj herr)

/-- One block of one transaction, that ends with an address of no bytes or with a verbatim tag. -/
theorem decodeBlocks_indexError :
    (decodeBlocks .toy (syncMagic ++ [1, 7, 0, 0, 1, 0, 0]) : Except (Exc Empty) (List SyncBlock)) =
        .error .indexError ∧
      (decodeBlocks .toy (syncMagic ++ [1, 7, 0, 0, 1, 0, 1, 0xFF]) : Except (Exc Empty) (List SyncBlock)) =
        .error .indexError := by
  decide +kernel

end Bismuth
