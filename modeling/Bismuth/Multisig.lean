import Bismuth.Signer
import Mathlib

/-!
# Multisignature spends

`polysign.signer_multisig`. An address commits to a redeem: a threshold and the sorted keys of the
owners. A spend reveals the redeem and as many component signatures as the threshold asks for, in the
order of their owners. What is accepted is a quorum of different owners, and the redeem is the only one of
its threshold and owners.
-/

namespace Bismuth.Multisig
open Py

/-- What the signer takes from `hashlib` and `coincurve`. -/
structure Curve where
  /-- RIPEMD-160 of SHA-256. -/
  hash160 : Bytes → Bytes
  /-- The first four bytes of SHA-256 of SHA-256. -/
  checksum : Bytes → Bytes
  length_checksum : ∀ b, (checksum b).length = 4
  /-- `PublicKey(key)` does not raise. -/
  isPoint : Bytes → Bool
  /-- `verify_signature`. -/
  verifySignature : (signature message key : Bytes) → Bool

inductive Fault where
  -- "require 1 <= M <= N <= …", "bad M/N in redeem"
  | threshold (m n : Nat)
  -- "each owner pubkey must be a 33-byte compressed secp256k1 key", "non-compressed pubkey in redeem"
  | notCompressed
  -- `PublicKey` raises
  | offCurve
  -- "duplicate owner pubkey", "duplicate pubkey in redeem"
  | duplicateKey
  -- "redeem too short"
  | redeemTooShort
  -- "redeem length mismatch"
  | redeemLength
  -- "redeem pubkeys not canonically sorted (BIP67)"
  | notSorted
  -- "multisig redeem does not match the spending address"
  | addressMismatch
  -- "empty signature blob"
  | emptyBlob
  -- "truncated signature header"
  | truncatedHeader
  -- "truncated signature body"
  | truncatedBody
  -- "trailing bytes in signature blob"
  | trailingBytes
  -- "multisig requires exactly … signatures (canonical form), got …"
  | wrongCount (m k : Nat)
  -- "multisig signature indices must be strictly increasing (distinct owners)"
  | notIncreasing
  -- "multisig signature owner index out of range"
  | ownerRange
  -- "invalid multisig component signature from owner …"
  | badComponent (idx : Nat)
  -- "multisig threshold not met"
  | thresholdNotMet (valid m : Nat)
  deriving DecidableEq

abbrev Check := Except (Exc Fault)

/-- `if c: raise ValueError(…)`. -/
def refuseIf (c : Prop) [Decidable c] (f : Fault) : Check Unit := if c then .error (.raised f) else .ok ()

theorem refuseIf_eq_ok [Decidable c] : refuseIf c f = .ok u ↔ ¬c := by
  rw [refuseIf]
  split <;> simp_all

def maxOwners : Nat := 15

variable (C : Curve) (P : Prims)

/-! ## Redeems -/

def sortPubkeys (pubkeys : List Bytes) : List Bytes := pubkeys.insertionSort (· ≤ ·)

def isCompressed (pk : Bytes) : Bool := pk.head? = some 2 || pk.head? = some 3

/-- The loop of `serialize_redeem` over the owners' keys. -/
def checkOwners (seen : List Bytes) : List Bytes → Check Unit
  | [] => .ok ()
  | pk :: pubkeys => do
    refuseIf (pk.length ≠ 33 ∨ isCompressed pk = false) .notCompressed
    refuseIf (C.isPoint pk = false) .offCurve
    refuseIf (pk ∈ seen) .duplicateKey
    checkOwners (pk :: seen) pubkeys

def redeemBytes (m : Nat) (pubkeys : List Bytes) : Bytes :=
  UInt8.ofNat m :: UInt8.ofNat pubkeys.length :: pubkeys.flatten

def serializeRedeem (m : Nat) (pubkeys : List Bytes) : Check Bytes := do
  let n := pubkeys.length
  refuseIf (¬(1 ≤ m ∧ m ≤ n ∧ n ≤ maxOwners)) (.threshold m n)
  checkOwners C [] pubkeys
  return redeemBytes m (sortPubkeys pubkeys)

/-- The check of one key in `parse_redeem`. -/
def checkKey (pk : Bytes) : Check Unit := do
  refuseIf (isCompressed pk = false) .notCompressed
  refuseIf (C.isPoint pk = false) .offCurve

def parseRedeem : Bytes → Check (Nat × Nat × List Bytes)
  | mb :: nb :: body => do
    let m := mb.toNat
    let n := nb.toNat
    refuseIf (¬(1 ≤ m ∧ m ≤ n ∧ n ≤ maxOwners)) (.threshold m n)
    refuseIf (body.length ≠ 33 * n) .redeemLength
    let pubkeys := body.chunks 33 n
    pubkeys.forM (checkKey C)
    refuseIf (¬pubkeys.Nodup) .duplicateKey
    refuseIf (pubkeys ≠ sortPubkeys pubkeys) .notSorted
    return (m, n, pubkeys)
  | _ => .error (.raised .redeemTooShort)

/-! ## Addresses -/

inductive Subtype where
  | mainnet
  | testnet
  deriving DecidableEq

/-- `_address_versions`. -/
def addressVersion : Subtype → Bytes
  | .mainnet => [0x4f, 0x54, 0xc8]
  | .testnet => [0x01, 0x46, 0xeb, 0xa5]

/-- `subtype_for_address`: the longest version first. -/
def subtypeForAddress (address : Text) : Subtype :=
  match P.b58decode address with
  | none => .mainnet
  | some decoded =>
    ([Subtype.testnet, .mainnet].find? fun s =>
      decoded.take (addressVersion s).length = addressVersion s).getD .mainnet

def redeemToAddress (redeem : Bytes) (subtype : Subtype) : Text :=
  let vh := addressVersion subtype ++ C.hash160 redeem
  P.b58encode (vh ++ C.checksum vh)

def addressFor (m : Nat) (pubkeys : List Bytes) (subtype : Subtype) : Check Text := do
  return redeemToAddress C P (← serializeRedeem C m pubkeys) subtype

/-! ## Spends -/

/-- The rounds of `parse_sigs`: the entries, and what is left. -/
def parseEntries : Nat → Bytes → Check (List (Nat × Bytes) × Bytes)
  | 0, blob => .ok ([], blob)
  | k + 1, idx :: ln :: blob => do
    refuseIf (ln.toNat = 0 ∨ blob.length < ln.toNat) .truncatedBody
    let (entries, rest) ← parseEntries k (blob.drop ln.toNat)
    return ((idx.toNat, blob.take ln.toNat) :: entries, rest)
  | _ + 1, _ => .error (.raised .truncatedHeader)

def parseSigs : Bytes → Check (List (Nat × Bytes))
  | [] => .error (.raised .emptyBlob)
  | k :: blob => do
    let (entries, rest) ← parseEntries k.toNat blob
    refuseIf (rest ≠ []) .trailingBytes
    return entries

def countValid (n : Nat) (pubkeys : List Bytes) (buffer : Bytes) :
    (last : Int) → (valid : Nat) → List (Nat × Bytes) → Check Nat
  | _, valid, [] => .ok valid
  | last, valid, (idx, sig) :: entries => do
    refuseIf ((idx : Int) ≤ last) .notIncreasing
    refuseIf (n ≤ idx) .ownerRange
    match pubkeys[idx]? with
    | none => .error .indexError
    | some pk =>
      refuseIf (C.verifySignature sig buffer pk = false) (.badComponent idx)
      countValid n pubkeys buffer idx (valid + 1) entries

/-- `base64.b64decode`. -/
def decodeField (s : Text) : Check Bytes :=
  match base64Decode s with
  | some b => .ok b
  | none => .error .valueError

def verifyBisSignature (signature publicKey : Text) (buffer : Bytes) (address : Text) : Check Unit := do
  let redeem ← decodeField publicKey
  let (m, n, pubkeys) ← parseRedeem C redeem
  refuseIf (redeemToAddress C P redeem (subtypeForAddress P address) ≠ address) .addressMismatch
  let entries ← parseSigs (← decodeField signature)
  refuseIf (entries.length ≠ m) (.wrongCount m entries.length)
  let valid ← countValid C n pubkeys buffer (-1) 0 entries
  refuseIf (valid < m) (.thresholdNotMet valid m)

variable {C P}

/-! ## The keys of the owners -/

structure OwnerKey (C : Curve) (pk : Bytes) : Prop where
  length : pk.length = 33
  compressed : isCompressed pk = true
  isPoint : C.isPoint pk = true

structure Redeem (C : Curve) where
  threshold : Nat
  owners : List Bytes
  one_le : 1 ≤ threshold
  le_owners : threshold ≤ owners.length
  owners_le : owners.length ≤ maxOwners
  key : ∀ pk ∈ owners, OwnerKey C pk
  sorted : owners.SortedLT

namespace Redeem

def bytes (R : Redeem C) : Bytes := redeemBytes R.threshold R.owners

theorem nodup (R : Redeem C) : R.owners.Nodup := R.sorted.nodup

theorem owners_eq {R R' : Redeem C} (h : ∀ pk, pk ∈ R.owners ↔ pk ∈ R'.owners) : R.owners = R'.owners :=
  R.sorted.eq_of_mem_iff R'.sorted h

end Redeem

theorem checkOwners_eq_ok {seen pubkeys : List Bytes} :
    checkOwners C seen pubkeys = .ok u ↔
      (∀ pk ∈ pubkeys, OwnerKey C pk ∧ pk ∉ seen) ∧ pubkeys.Nodup := by
  induction pubkeys generalizing seen with
  | nil => simp [checkOwners]
  | cons pk pubkeys ih =>
    simp only [checkOwners, Except.bind_eq_ok, refuseIf_eq_ok, ih, not_or, not_not, Bool.not_eq_false]
    constructor
    · rintro ⟨-, ⟨hlen, hcomp⟩, -, hpoint, -, hseen, hall, hnd⟩
      refine ⟨?_, ?_⟩
      · intro pk' hpk'
        rcases List.mem_cons.1 hpk' with rfl | hpk'
        · exact ⟨⟨hlen, hcomp, hpoint⟩, hseen⟩
        · exact ⟨(hall pk' hpk').1, fun h => (hall pk' hpk').2 (List.mem_cons_of_mem _ h)⟩
      · exact List.nodup_cons.2 ⟨fun h => (hall pk h).2 List.mem_cons_self, hnd⟩
    · rintro ⟨hall, hnd⟩
      obtain ⟨hmem, hnd⟩ := List.nodup_cons.1 hnd
      obtain ⟨hkey, hseen⟩ := hall pk List.mem_cons_self
      refine ⟨(), ⟨hkey.length, hkey.compressed⟩, (), hkey.isPoint, (), hseen, ?_, hnd⟩
      intro pk' hpk'
      obtain ⟨hkey', hseen'⟩ := hall pk' (List.mem_cons_of_mem _ hpk')
      refine ⟨hkey', fun h => ?_⟩
      rcases List.mem_cons.1 h with rfl | h
      · exact hmem hpk'
      · exact hseen' h

variable {pubkeys : List Bytes}

theorem forM_checkKey_eq_ok : pubkeys.forM (checkKey C) = .ok u ↔
      ∀ pk ∈ pubkeys, isCompressed pk = true ∧ C.isPoint pk = true := by
  induction pubkeys with
  | nil => simp
  | cons pk pubkeys ih =>
    change (checkKey C pk >>= fun _ => pubkeys.forM (checkKey C)) = .ok u ↔ _
    simp only [Except.bind_eq_ok, ih, checkKey, refuseIf_eq_ok, Bool.not_eq_false, List.forall_mem_cons]
    exact ⟨fun ⟨_, ⟨_, h1, h2⟩, h⟩ => ⟨⟨h1, h2⟩, h⟩, fun ⟨⟨h1, h2⟩, h⟩ => ⟨(), ⟨(), h1, h2⟩, h⟩⟩

theorem sortPubkeys_perm (pubkeys : List Bytes) : (sortPubkeys pubkeys).Perm pubkeys :=
  List.perm_insertionSort _ _

theorem sortPubkeys_sorted (pubkeys : List Bytes) : (sortPubkeys pubkeys).SortedLE :=
  List.sortedLE_iff_pairwise.2 (List.pairwise_insertionSort _ _)

theorem sortPubkeys_eq_self_iff : pubkeys = sortPubkeys pubkeys ↔ pubkeys.SortedLE := by
  constructor
  · intro h
    rw [h]
    exact sortPubkeys_sorted pubkeys
  · intro h
    exact (sortPubkeys_perm pubkeys).symm.eq_of_sortedLE h (sortPubkeys_sorted pubkeys)

/-! ## What the two codecs of the redeem accept -/

theorem toNat_ofNat_le (h : n ≤ maxOwners) : (UInt8.ofNat n).toNat = n :=
  UInt8.toNat_ofNat_of_lt' (lt_of_le_of_lt h (by decide))

theorem serializeRedeem_eq_ok : serializeRedeem C m pubkeys = .ok redeem ↔
      ∃ R : Redeem C, R.bytes = redeem ∧ R.threshold = m ∧ R.owners.Perm pubkeys := by
  simp only [serializeRedeem, Except.bind_eq_ok, refuseIf_eq_ok, not_not, checkOwners_eq_ok,
    Except.pure_eq_ok, Except.ok.injEq]
  constructor
  · rintro ⟨-, ⟨h1, hle, hmax⟩, -, ⟨hkeys, hnd⟩, rfl⟩
    have hperm := sortPubkeys_perm pubkeys
    refine ⟨⟨m, sortPubkeys pubkeys, h1, ?_, ?_, ?_, ?_⟩, rfl, rfl, hperm⟩
    · rw [hperm.length_eq]
      exact hle
    · rw [hperm.length_eq]
      exact hmax
    · exact fun pk hpk => (hkeys pk (hperm.mem_iff.1 hpk)).1
    · exact (sortPubkeys_sorted pubkeys).sortedLT_of_nodup (hperm.nodup_iff.2 hnd)
  · rintro ⟨R, rfl, rfl, hperm⟩
    have hsort : sortPubkeys pubkeys = R.owners :=
      ((sortPubkeys_perm pubkeys).trans hperm.symm).eq_of_sortedLE (sortPubkeys_sorted pubkeys)
        R.sorted.sortedLE
    refine ⟨(), ⟨R.one_le, ?_, ?_⟩, (), ⟨?_, hperm.nodup_iff.1 R.nodup⟩, ?_⟩
    · rw [← hperm.length_eq]
      exact R.le_owners
    · rw [← hperm.length_eq]
      exact R.owners_le
    · exact fun pk hpk => ⟨R.key pk (hperm.mem_iff.2 hpk), List.not_mem_nil⟩
    · rw [hsort]
      rfl

theorem parseRedeem_eq_ok {redeem : Bytes} :
    parseRedeem C redeem = .ok (m, n, pubkeys) ↔
      ∃ R : Redeem C, R.bytes = redeem ∧ R.threshold = m ∧ R.owners.length = n ∧ R.owners = pubkeys := by
  constructor
  · intro h
    match redeem with
    | [] | [_] => cases h
    | mb :: nb :: body =>
      simp only [parseRedeem, Except.bind_eq_ok, refuseIf_eq_ok, not_not, forM_checkKey_eq_ok,
        sortPubkeys_eq_self_iff, Except.pure_eq_ok, Except.ok.injEq, Prod.mk.injEq, ne_eq] at h
      obtain ⟨-, ⟨h1, hle, hmax⟩, -, hlen, -, hkeys, -, hnd, -, hsorted, rfl, rfl, rfl⟩ := h
      have hbytes : redeemBytes mb.toNat (body.chunks 33 nb.toNat) = mb :: nb :: body := by
        rw [redeemBytes, List.length_chunks, List.flatten_chunks hlen, UInt8.ofNat_toNat,
          UInt8.ofNat_toNat]
      refine ⟨⟨mb.toNat, body.chunks 33 nb.toNat, h1, ?_, ?_, ?_, hsorted.sortedLT_of_nodup hnd⟩, hbytes,
        rfl, List.length_chunks _ _ _, rfl⟩
      · rw [List.length_chunks]
        exact hle
      · rw [List.length_chunks]
        exact hmax
      · exact fun pk hpk => ⟨List.length_of_mem_chunks hlen hpk, (hkeys pk hpk).1, (hkeys pk hpk).2⟩
  · rintro ⟨R, rfl, rfl, rfl, rfl⟩
    have hm := toNat_ofNat_le (R.le_owners.trans R.owners_le)
    have hn := toNat_ofNat_le R.owners_le
    have hlens : ∀ pk ∈ R.owners, pk.length = 33 := fun pk hpk => (R.key pk hpk).length
    simp only [Redeem.bytes, redeemBytes, parseRedeem, hm, hn, List.chunks_flatten hlens,
      Except.bind_eq_ok, refuseIf_eq_ok, not_not, forM_checkKey_eq_ok, sortPubkeys_eq_self_iff, ne_eq,
      Except.pure_eq_ok]
    exact ⟨(), ⟨R.one_le, R.le_owners, R.owners_le⟩, (), List.length_flatten_of_forall hlens, (),
      fun pk hpk => ⟨(R.key pk hpk).compressed, (R.key pk hpk).isPoint⟩, (), R.nodup, (),
      R.sorted.sortedLE, trivial⟩

theorem Redeem.eq_of_bytes {R R' : Redeem C} (h : R.bytes = R'.bytes) :
    R.threshold = R'.threshold ∧ R.owners = R'.owners := by
  have hR := parseRedeem_eq_ok.2 ⟨R, rfl, rfl, rfl, rfl⟩
  have hR' := parseRedeem_eq_ok.2 ⟨R', rfl, rfl, rfl, rfl⟩
  rw [h, hR'] at hR
  obtain ⟨hm, -, hks⟩ := Prod.mk.inj (Except.ok.inj hR) |>.imp_right Prod.mk.inj
  exact ⟨hm.symm, hks.symm⟩

theorem Redeem.bytes_congr {R R' : Redeem C} (hm : R.threshold = R'.threshold)
    (h : ∀ pk, pk ∈ R.owners ↔ pk ∈ R'.owners) : R.bytes = R'.bytes := by
  rw [bytes, bytes, hm, owners_eq h]

/-! ## The signature field -/

def entriesBytes (entries : List (Nat × Bytes)) : Bytes :=
  entries.flatMap fun e => UInt8.ofNat e.1 :: UInt8.ofNat e.2.length :: e.2

def sigsBytes (entries : List (Nat × Bytes)) : Bytes :=
  UInt8.ofNat entries.length :: entriesBytes entries

/-- An index and a signature that fit in a byte each, the signature by its length. -/
def Fits (e : Nat × Bytes) : Prop := e.1 < 256 ∧ 1 ≤ e.2.length ∧ e.2.length < 256

variable {entries : List (Nat × Bytes)}

theorem parseEntries_eq_ok {blob rest : Bytes} : parseEntries k blob = .ok (entries, rest) ↔
      entries.length = k ∧ (∀ e ∈ entries, Fits e) ∧ blob = entriesBytes entries ++ rest := by
  induction k generalizing blob entries with
  | zero =>
    constructor
    · intro h
      cases h
      exact ⟨rfl, nofun, rfl⟩
    · rintro ⟨hlen, -, rfl⟩
      rw [List.eq_nil_of_length_eq_zero hlen]
      rfl
  | succ k ih =>
    constructor
    · intro h
      match blob with
      | [] | [_] => cases h
      | idx :: ln :: blob =>
        simp only [parseEntries, Except.bind_eq_ok, refuseIf_eq_ok, not_or, not_lt] at h
        obtain ⟨-, ⟨hpos, hle⟩, ⟨es, r⟩, hes, h⟩ := h
        cases h
        obtain ⟨hlen, hfits, hblob⟩ := ih.1 hes
        have htake : (blob.take ln.toNat).length = ln.toNat := by
          rw [List.length_take]
          omega
        refine ⟨by rw [List.length_cons, hlen], ?_, ?_⟩
        · intro e he
          rcases List.mem_cons.1 he with rfl | he
          · exact ⟨idx.toNat_lt, by rw [htake]; omega, by rw [htake]; exact ln.toNat_lt⟩
          · exact hfits e he
        · rw [entriesBytes, List.flatMap_cons, htake, UInt8.ofNat_toNat, UInt8.ofNat_toNat,
            ← entriesBytes, List.append_assoc, List.cons_append, List.cons_append, ← hblob,
            List.take_append_drop]
    · rintro ⟨hlen, hfits, rfl⟩
      obtain ⟨⟨idx, sig⟩, es, rfl⟩ := List.exists_cons_of_length_eq_add_one hlen
      obtain ⟨hidx, hpos, hlt⟩ : idx < 256 ∧ 1 ≤ sig.length ∧ sig.length < 256 :=
        hfits _ List.mem_cons_self
      have hln : (UInt8.ofNat sig.length).toNat = sig.length := UInt8.toNat_ofNat_of_lt' hlt
      have hrest := ih.2 ⟨Nat.succ.inj hlen, fun e he => hfits e (List.mem_cons_of_mem _ he), rfl⟩
      simp only [entriesBytes, List.flatMap_cons, List.cons_append, parseEntries, List.append_assoc,
        Except.bind_eq_ok, refuseIf_eq_ok, hln, List.drop_left, List.take_left]
      refine ⟨(), by rw [List.length_append]; omega, _, hrest, ?_⟩
      rw [UInt8.toNat_ofNat_of_lt' hidx]
      rfl

theorem parseSigs_eq_ok {blob : Bytes} : parseSigs blob = .ok entries ↔
      entries.length < 256 ∧ (∀ e ∈ entries, Fits e) ∧ blob = sigsBytes entries := by
  constructor
  · intro h
    match blob with
    | [] => cases h
    | k :: blob =>
      simp only [parseSigs, Except.bind_eq_ok, refuseIf_eq_ok, ne_eq, not_not] at h
      obtain ⟨⟨es, rest⟩, hes, -, hrest, h⟩ := h
      cases h
      obtain rfl : rest = [] := hrest
      obtain ⟨hlen, hfits, hblob⟩ := parseEntries_eq_ok.1 hes
      refine ⟨hlen ▸ k.toNat_lt, hfits, ?_⟩
      rw [sigsBytes, hlen, UInt8.ofNat_toNat, hblob, List.append_nil]
  · rintro ⟨hlt, hfits, rfl⟩
    have hk : (UInt8.ofNat entries.length).toNat = entries.length := UInt8.toNat_ofNat_of_lt' hlt
    simp only [sigsBytes, parseSigs, Except.bind_eq_ok, refuseIf_eq_ok, hk]
    exact ⟨_, parseEntries_eq_ok.2 ⟨rfl, hfits, (List.append_nil _).symm⟩, (), not_not.2 rfl, rfl⟩

variable {buffer : Bytes}

/-- Every component is valid under its owner's key, and the owners come in order. -/
theorem countValid_eq_ok {last : Int} {valid : Nat} :
    countValid C pubkeys.length pubkeys buffer last valid entries = .ok valid' ↔
      valid' = valid + entries.length ∧ (∀ e ∈ entries, last < e.1) ∧
        entries.Pairwise (·.1 < ·.1) ∧
        ∀ e ∈ entries, ∃ pk, pubkeys[e.1]? = some pk ∧ C.verifySignature e.2 buffer pk = true := by
  induction entries generalizing last valid with
  | nil =>
    rw [countValid, Except.ok.injEq]
    exact ⟨fun h => ⟨h.symm, nofun, .nil, nofun⟩, fun h => h.1.symm⟩
  | cons e entries ih =>
    obtain ⟨idx, sig⟩ := e
    simp only [countValid, Except.bind_eq_ok, refuseIf_eq_ok, not_le]
    constructor
    · rintro ⟨-, hlast, -, hidx, h⟩
      rw [List.getElem?_eq_getElem hidx] at h
      simp only [Except.bind_eq_ok, refuseIf_eq_ok, Bool.not_eq_false, ih] at h
      obtain ⟨-, hsig, rfl, hlt, hpair, hall⟩ := h
      refine ⟨by rw [List.length_cons]; omega, ?_, ?_, ?_⟩
      · intro e he
        rcases List.mem_cons.1 he with rfl | he
        · exact hlast
        · exact hlast.trans (hlt e he)
      · exact List.pairwise_cons.2 ⟨fun e he => by exact_mod_cast hlt e he, hpair⟩
      · intro e he
        rcases List.mem_cons.1 he with rfl | he
        · exact ⟨_, List.getElem?_eq_getElem hidx, hsig⟩
        · exact hall e he
    · rintro ⟨rfl, hlt, hpair, hall⟩
      obtain ⟨hfirst, hpair⟩ := List.pairwise_cons.1 hpair
      obtain ⟨pk, hpk, hsig⟩ := hall _ List.mem_cons_self
      obtain ⟨hidx, -⟩ := List.getElem?_eq_some_iff.1 hpk
      refine ⟨(), hlt _ List.mem_cons_self, (), hidx, ?_⟩
      rw [hpk]
      simp only [Except.bind_eq_ok, refuseIf_eq_ok, Bool.not_eq_false, ih]
      refine ⟨(), hsig, by rw [List.length_cons]; omega, ?_, hpair, ?_⟩
      · exact fun e he => by exact_mod_cast hfirst e he
      · exact fun e he => hall e (List.mem_cons_of_mem _ he)

/-! ## What is accepted -/

/-- The components are as many as the threshold asks for, each is valid under the key of its owner, and no
owner has two of them. -/
structure Quorum (R : Redeem C) (buffer : Bytes) (entries : List (Nat × Bytes)) : Prop where
  length : entries.length = R.threshold
  fits : ∀ e ∈ entries, Fits e
  increasing : entries.Pairwise (·.1 < ·.1)
  valid : ∀ e ∈ entries, ∃ pk, R.owners[e.1]? = some pk ∧ C.verifySignature e.2 buffer pk = true

theorem decodeField_eq_ok : decodeField s = .ok b ↔ base64Decode s = some b := by
  rw [decodeField]
  split <;> simp_all

theorem verifyBisSignature_eq_ok {signature publicKey : Text} {address : Text} :
    verifyBisSignature C P signature publicKey buffer address = .ok () ↔
      ∃ (R : Redeem C) (entries : List (Nat × Bytes)), base64Decode publicKey = some R.bytes ∧
        redeemToAddress C P R.bytes (subtypeForAddress P address) = address ∧
        base64Decode signature = some (sigsBytes entries) ∧ Quorum R buffer entries := by
  simp only [verifyBisSignature, Except.bind_eq_ok, refuseIf_eq_ok, decodeField_eq_ok, ne_eq, not_not]
  constructor
  · rintro ⟨redeem, hredeem, ⟨m, n, pubkeys⟩, hparse, -, haddress, blob, hblob, entries, hentries, -, hlen,
      valid, hvalid, -⟩
    obtain ⟨R, rfl, rfl, rfl, rfl⟩ := parseRedeem_eq_ok.1 hparse
    obtain ⟨-, hfits, rfl⟩ := parseSigs_eq_ok.1 hentries
    obtain ⟨-, -, hinc, hall⟩ := countValid_eq_ok.1 hvalid
    exact ⟨R, entries, hredeem, haddress, hblob, hlen, hfits, hinc, hall⟩
  · rintro ⟨R, entries, hredeem, haddress, hblob, hlen, hfits, hinc, hall⟩
    have hlt : entries.length < 256 := by
      have h1 := R.le_owners
      have h2 : R.owners.length ≤ 15 := R.owners_le
      omega
    have hcount : countValid C R.owners.length R.owners buffer (-1) 0 entries = .ok entries.length :=
      countValid_eq_ok.2 ⟨(Nat.zero_add _).symm, fun e _ => by omega, hinc, hall⟩
    exact ⟨_, hredeem, _, parseRedeem_eq_ok.2 ⟨R, rfl, rfl, rfl, rfl⟩, (), haddress, _, hblob, _,
      parseSigs_eq_ok.2 ⟨hlt, hfits, rfl⟩, (), hlen, _, hcount, hlen.not_lt⟩

def signer (R : Redeem C) (e : Nat × Bytes) : Bytes × Bytes := ((R.owners[e.1]?).getD [], e.2)

theorem Quorum.nodup_signers {R : Redeem C}
    (H : Quorum R buffer entries) : ((entries.map (signer R)).map Prod.fst).Nodup := by
  rw [List.map_map, List.Nodup, List.pairwise_map]
  refine H.increasing.imp_of_mem fun {e e'} he he' hlt heq => ?_
  obtain ⟨pk, hpk, -⟩ := H.valid e he
  obtain ⟨pk', hpk', -⟩ := H.valid e' he'
  simp only [Function.comp_apply, signer, hpk, hpk', Option.getD_some] at heq
  obtain ⟨hidx', -⟩ := List.getElem?_eq_some_iff.1 hpk'
  apply List.nodup_iff_getElem?_ne_getElem?.1 R.nodup e.1 e'.1 hlt hidx'
  rw [hpk, hpk', heq]

theorem Quorum.valid_signers {R : Redeem C} (H : Quorum R buffer entries) :
    ∀ s ∈ entries.map (signer R), s.1 ∈ R.owners ∧ C.verifySignature s.2 buffer s.1 = true := by
  intro s hs
  obtain ⟨e, he, rfl⟩ := List.mem_map.1 hs
  obtain ⟨pk, hpk, hsig⟩ := H.valid e he
  rw [signer, hpk]
  exact ⟨List.mem_of_getElem? hpk, hsig⟩

theorem redeemToAddress_inj (hh : Function.Injective C.hash160) (hb : Function.Injective P.b58encode)
    (h : redeemToAddress C P redeem s = redeemToAddress C P redeem' s') : redeem = redeem' := by
  replace h := hb h
  have hs : s = s' := by
    cases s <;> cases s' <;> simp [addressVersion] at h ⊢
  subst hs
  obtain ⟨h, -⟩ := List.append_inj' h (by rw [C.length_checksum, C.length_checksum])
  exact hh (List.append_cancel_left h)

theorem addressFor_eq_ok :
    addressFor C P m pubkeys s = .ok address ↔ ∃ R : Redeem C, redeemToAddress C P R.bytes s = address ∧
      R.threshold = m ∧ R.owners.Perm pubkeys := by
  simp only [addressFor, Except.bind_eq_ok, serializeRedeem_eq_ok, Except.pure_eq_ok, Except.ok.injEq]
  constructor
  · rintro ⟨redeem, ⟨R, rfl, hm, hperm⟩, rfl⟩
    exact ⟨R, rfl, hm, hperm⟩
  · rintro ⟨R, rfl, hm, hperm⟩
    exact ⟨_, ⟨R, rfl, hm, hperm⟩, rfl⟩

/-- A spend that is accepted reveals the redeem of its address, and carries exactly as many components as
its threshold, valid under different keys of it. The order in which the owners are listed does not change
the address. A redeem that is accepted stands for one threshold and one set of owners and is the only one
that does, and so does an address. -/
theorem accepted_spend_has_quorum (hh : Function.Injective C.hash160)
    (hb : Function.Injective P.b58encode) :
    (∀ signature publicKey buffer address,
      verifyBisSignature C P signature publicKey buffer address = .ok () →
      ∃ (R : Redeem C) (entries : List (Nat × Bytes)),
        base64Decode publicKey = some R.bytes ∧ R.owners.Nodup ∧
        address = redeemToAddress C P R.bytes (subtypeForAddress P address) ∧
        base64Decode signature = some (sigsBytes entries) ∧ entries.length = R.threshold ∧
        ((entries.map (signer R)).map Prod.fst).Nodup ∧
        ∀ s ∈ entries.map (signer R), s.1 ∈ R.owners ∧ C.verifySignature s.2 buffer s.1 = true) ∧
    (∀ m pubkeys pubkeys' s address, pubkeys.Perm pubkeys' →
      (addressFor C P m pubkeys s = .ok address ↔ addressFor C P m pubkeys' s = .ok address)) ∧
    (∀ redeem redeem' m n pubkeys m' n' pubkeys', parseRedeem C redeem = .ok (m, n, pubkeys) →
      parseRedeem C redeem' = .ok (m', n', pubkeys') →
      (redeem = redeem' ↔ m = m' ∧ ∀ pk, pk ∈ pubkeys ↔ pk ∈ pubkeys')) ∧
    ∀ (R R' : Redeem C) s s', redeemToAddress C P R.bytes s = redeemToAddress C P R'.bytes s' →
      R.threshold = R'.threshold ∧ R.owners = R'.owners := by
  refine ⟨?_, ?_, ?_, ?_⟩
  · intro signature publicKey buffer address h
    obtain ⟨R, entries, hredeem, haddress, hblob, H⟩ := verifyBisSignature_eq_ok.1 h
    exact ⟨R, entries, hredeem, R.nodup, haddress.symm, hblob, H.length, H.nodup_signers,
      H.valid_signers⟩
  · intro m pubkeys pubkeys' s address hperm
    rw [addressFor_eq_ok, addressFor_eq_ok]
    constructor
    · rintro ⟨R, h, hm, hR⟩
      exact ⟨R, h, hm, hR.trans hperm⟩
    · rintro ⟨R, h, hm, hR⟩
      exact ⟨R, h, hm, hR.trans hperm.symm⟩
  · intro redeem redeem' m n pubkeys m' n' pubkeys' h h'
    obtain ⟨R, rfl, rfl, -, rfl⟩ := parseRedeem_eq_ok.1 h
    obtain ⟨R', rfl, rfl, -, rfl⟩ := parseRedeem_eq_ok.1 h'
    constructor
    · intro heq
      obtain ⟨hm, howners⟩ := Redeem.eq_of_bytes heq
      exact ⟨hm, fun pk => by rw [howners]⟩
    · rintro ⟨hm, howners⟩
      exact Redeem.bytes_congr hm howners
  · intro R R' s s' h
    exact Redeem.eq_of_bytes (redeemToAddress_inj hh hb h)

section Sample

private def sampleCurve : Curve where
  hash160 := id
  checksum _ := [0, 0, 0, 0]
  length_checksum _ := rfl
  isPoint _ := true
  verifySignature sig _ key := sig = key.drop 32

private def samplePrims : Prims := { Prims.toy with b58encode := hex }

private def ownerKey (i : UInt8) : Bytes := 2 :: List.replicate 31 0 ++ [i]

private def sampleRedeem : Bytes := redeemBytes 2 [ownerKey 1, ownerKey 2, ownerKey 3]

private def sampleAddress : Text := redeemToAddress sampleCurve samplePrims sampleRedeem .mainnet

private def sampleSignature : Text := base64Encode (sigsBytes [(0, [1]), (2, [3])])

/-- Two of three owners sign. -/
theorem accepted_spend_has_quorum_sample :
    verifyBisSignature sampleCurve samplePrims sampleSignature (base64Encode sampleRedeem) []
        sampleAddress = .ok () ∧
      ∃ (R : Redeem sampleCurve) (entries : List (Nat × Bytes)),
        base64Decode (base64Encode sampleRedeem) = some R.bytes ∧ R.owners.Nodup ∧
        sampleAddress = redeemToAddress sampleCurve samplePrims R.bytes
          (subtypeForAddress samplePrims sampleAddress) ∧
        base64Decode sampleSignature = some (sigsBytes entries) ∧ entries.length = R.threshold ∧
        ((entries.map (signer R)).map Prod.fst).Nodup ∧
        ∀ s ∈ entries.map (signer R), s.1 ∈ R.owners ∧ sampleCurve.verifySignature s.2 [] s.1 = true := by
  have h : verifyBisSignature sampleCurve samplePrims sampleSignature (base64Encode sampleRedeem) []
      sampleAddress = .ok () := by decide +kernel
  exact ⟨h, (accepted_spend_has_quorum (C := sampleCurve) (P := samplePrims) Function.injective_id
    hex_injective).1 _ _ _ _ h⟩

end Sample

/-! ## The node's check -/

def verifyBisSignatureRaw (C : Curve) (P : Prims) (signature publicKey buffer : Bytes) (address : Text) :
    Check Unit :=
  verifyBisSignature C P (base64Encode signature) (base64Encode publicKey) buffer address

def withMultisig (C : Curve) (P : Prims) : Prims :=
  { P with
    verify := fun scheme signature key message address =>
      if scheme = .multisig then verifyBisSignatureRaw C P signature key message address = .ok ()
      else P.verify scheme signature key message address }

/-- The dispatch by address runs this check on the spends of multisignature addresses. -/
theorem verifyBisSignature_withMultisig (h : addressToSigner P address = some .multisig)
    {signature publicKey : Text} :
    Bismuth.verifyBisSignature (withMultisig C P) signature publicKey buffer address = .ok () ↔
      verifyBisSignature C P signature publicKey buffer address = .ok () := by
  have h' : addressToSigner (withMultisig C P) address = some .multisig := h
  have hdecode : ∀ {s b}, b64decode s = .ok b ↔ base64Decode s = some b := by
    intro s b
    rw [b64decode]
    split <;> simp_all
  have hraw : ∀ sig key, (withMultisig C P).verify .multisig sig key buffer address = true ↔
      ∃ (R : Redeem C) (entries : List (Nat × Bytes)), key = R.bytes ∧
        redeemToAddress C P R.bytes (subtypeForAddress P address) = address ∧
        sig = sigsBytes entries ∧ Quorum R buffer entries := by
    intro sig key
    simp only [withMultisig, if_true]
    rw [decide_eq_true_iff, verifyBisSignatureRaw, verifyBisSignature_eq_ok]
    simp only [base64Decode_encode, Option.some.injEq]
  rw [Bismuth.verifyBisSignature, h']
  simp only [Except.bind_eq_ok, hdecode, require_eq_ok, hraw, verifyBisSignature_eq_ok]
  constructor
  · rintro ⟨key, hkey, sig, hsig, R, entries, rfl, haddress, rfl, H⟩
    exact ⟨R, entries, hkey, haddress, hsig, H⟩
  · rintro ⟨R, entries, hkey, haddress, hsig, H⟩
    exact ⟨_, hkey, _, hsig, R, entries, rfl, haddress, rfl, H⟩

end Bismuth.Multisig
