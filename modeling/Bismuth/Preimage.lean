import Bismuth.Lib.SelfDelimiting
import Bismuth.Address
import Bismuth.Reject
import Bismuth.Serialize

/-!
# The binary pre-images

The bytes that are signed and hashed after the fork determine the fields they were built from.
-/

namespace Bismuth
open Py

variable {ρ : Type}

/-! ## Fields -/

theorem toBytesLE_ok {n : Int} (h : toBytesLE w n = (.ok b : Except (Exc ρ) Bytes)) :
    0 ≤ n ∧ n < 256 ^ w ∧ b = leBytes w n.toNat := by
  rw [toBytesLE] at h
  split at h <;> cases h
  rename_i hn
  exact ⟨hn.1, hn.2, rfl⟩

theorem toBytesLE_selfDelimiting (w : Nat) :
    SelfDelimiting (toBytesLE w : Int → Except (Exc ρ) Bytes) Eq := by
  refine SelfDelimiting.of_length (w := w) (fun h => ?_) fun h h' => ?_
  · obtain ⟨-, -, rfl⟩ := toBytesLE_ok h
    exact length_leBytes _ _
  · obtain ⟨h1, h2, rfl⟩ := toBytesLE_ok h
    obtain ⟨h1', h2', heq⟩ := toBytesLE_ok h'
    have hval := congrArg leVal heq
    rw [leVal_leBytes (by zify; omega), leVal_leBytes (by zify; omega)] at hval
    omega

theorem v2Lp_selfDelimiting (w : Nat) :
    SelfDelimiting (v2Lp · w : Bytes → Except (Exc ρ) Bytes) Eq := by
  intro s s' b b' x y h h' heq
  simp only [v2Lp, Except.bind_eq_ok, Except.pure_eq_ok, Except.ok.injEq] at h h'
  obtain ⟨l, hl, rfl⟩ := h
  obtain ⟨l', hl', rfl⟩ := h'
  rw [List.append_assoc, List.append_assoc] at heq
  obtain ⟨hlen, heq⟩ := toBytesLE_selfDelimiting w hl hl' heq
  exact List.append_inj heq (by exact_mod_cast hlen)

theorem v2Lp_utf8_selfDelimiting (w : Nat) :
    SelfDelimiting (fun s : Text => (v2Lp (utf8 s) w : Except (Exc ρ) Bytes)) Eq := by
  intro s s' b b' x y h h' heq
  obtain ⟨hs, hxy⟩ := v2Lp_selfDelimiting w h h' heq
  exact ⟨utf8_injective hs, hxy⟩

/-- A field that is left out when it is empty. -/
def v2Opt (s : Text) : Except (Exc ρ) Bytes := if utf8 s = [] then pure [] else v2Lp (utf8 s) 4

theorem v2OpOf_eq (operation openfield : Text) : (v2OpOf operation openfield : Except (Exc ρ) Bytes) =
    do
      let op ← v2Opt operation
      let of ← v2Opt openfield
      return (((if utf8 operation = [] then 0 else 1) + (if utf8 openfield = [] then 0 else 2) : UInt8) ::
        (op ++ of)) := by
  unfold v2OpOf v2Opt
  by_cases h1 : utf8 operation = [] <;> by_cases h2 : utf8 openfield = [] <;>
    simp only [h1, h2, if_true, if_false]

theorem v2Opt_selfDelimiting {s s' : Text} (h : v2Opt s = (.ok b : Except (Exc ρ) Bytes))
    (h' : v2Opt s' = (.ok b' : Except (Exc ρ) Bytes)) (hflag : utf8 s = [] ↔ utf8 s' = [])
    (heq : b ++ x = b' ++ y) : s = s' ∧ x = y := by
  rw [v2Opt] at h h'
  split at h
  · rename_i hs
    rw [if_pos (hflag.1 hs)] at h'
    cases h
    cases h'
    exact ⟨utf8_injective (hs.trans (hflag.1 hs).symm), heq⟩
  · rename_i hs
    rw [if_neg (hflag.not.1 hs)] at h'
    exact v2Lp_utf8_selfDelimiting 4 h h' heq

theorem v2OpOf_selfDelimiting :
    SelfDelimiting (fun p : Text × Text => (v2OpOf p.1 p.2 : Except (Exc ρ) Bytes)) Eq := by
  rintro ⟨op, of⟩ ⟨op', of'⟩ b b' x y h h' heq
  simp only [v2OpOf_eq, Except.bind_eq_ok, Except.pure_eq_ok, Except.ok.injEq] at h h'
  obtain ⟨o, ho, f, hf, rfl⟩ := h
  obtain ⟨o', ho', f', hf', rfl⟩ := h'
  rw [List.cons_append, List.cons_append, List.cons.injEq, List.append_assoc, List.append_assoc] at heq
  obtain ⟨hflags, heq⟩ := heq
  have hop : utf8 op = [] ↔ utf8 op' = [] := by
    by_cases h1 : utf8 op = [] <;> by_cases h2 : utf8 of = [] <;> by_cases h3 : utf8 op' = [] <;>
      by_cases h4 : utf8 of' = [] <;> simp [h1, h2, h3, h4] at hflags ⊢
  have hof : utf8 of = [] ↔ utf8 of' = [] := by
    by_cases h1 : utf8 op = [] <;> by_cases h2 : utf8 of = [] <;> by_cases h3 : utf8 op' = [] <;>
      by_cases h4 : utf8 of' = [] <;> simp [h1, h2, h3, h4] at hflags ⊢
  obtain ⟨rfl, heq⟩ := v2Opt_selfDelimiting ho ho' hop heq
  obtain ⟨rfl, heq⟩ := v2Opt_selfDelimiting hf hf' hof heq
  exact ⟨rfl, heq⟩

/-! ## The signing pre-image -/

theorem signatureBufferV2_inj {ts ts' u u' : Int}
    (h : signatureBufferV2 ts a r u op of = (.ok b : Except (Exc ρ) Bytes))
    (h' : signatureBufferV2 ts' a' r' u' op' of' = (.ok b : Except (Exc ρ) Bytes)) :
    ts = ts' ∧ a = a' ∧ r = r' ∧ u = u' ∧ op = op' ∧ of = of' := by
  simp only [signatureBufferV2, Except.bind_eq_ok, Except.pure_eq_ok, Except.ok.injEq] at h h'
  obtain ⟨b1, h1, b2, h2, b3, h3, b4, h4, b5, h5, rfl⟩ := h
  obtain ⟨c1, h1', c2, h2', c3, h3', c4, h4', c5, h5', heq⟩ := h'
  simp only [List.cons.injEq, true_and, List.append_assoc] at heq
  obtain ⟨rfl, heq⟩ := toBytesLE_selfDelimiting 8 h1 h1' heq.symm
  obtain ⟨rfl, heq⟩ := toBytesLE_selfDelimiting 8 h2 h2' heq
  obtain ⟨rfl, heq⟩ := v2Lp_utf8_selfDelimiting 1 h3 h3' heq
  obtain ⟨rfl, heq⟩ := v2Lp_utf8_selfDelimiting 1 h4 h4' heq
  obtain ⟨hp, -⟩ := @v2OpOf_selfDelimiting _ (op, of) (op', of') _ _ [] [] h5 h5'
    (by simpa using heq)
  cases hp
  exact ⟨rfl, rfl, rfl, rfl, rfl, rfl⟩

/-! ## The block pre-image -/

/-- Two converted transactions with the same fields, the timestamps as centiseconds and the amounts as
units. -/
structure TxTuple.Same (t t' : TxTuple) : Prop where
  timestamp : (v2TsCs t.timestamp : Except Err Int) = v2TsCs t'.timestamp
  amount : (v2Units t.amount : Except Err Int) = v2Units t'.amount
  address : t.address = t'.address
  recipient : t.recipient = t'.recipient
  signature : t.signature = t'.signature
  publicKey : t.publicKey = t'.publicKey
  operation : t.operation = t'.operation
  openfield : t.openfield = t'.openfield

def v2Slots (t : TxTuple) (isCoinbase : Bool) : Except Err Bytes :=
  if isCoinbase then
    if 255 < (utf8 t.signature).length ∨ 255 < (utf8 t.publicKey).length then throw .valueError
    else do return (← v2Lp (utf8 t.signature) 1) ++ (← v2Lp (utf8 t.publicKey) 1)
  else do return (← v2Lp (utf8 t.signature) 2) ++ (← v2Lp (utf8 t.publicKey) 2)

theorem v2Slots_selfDelimiting (isCoinbase : Bool) : SelfDelimiting (v2Slots · isCoinbase)
    fun t t' => t.signature = t'.signature ∧ t.publicKey = t'.publicKey := by
  have key : ∀ (w : Nat) {t t' : TxTuple} {b b' x y : Bytes},
      (do return (← v2Lp (utf8 t.signature) w) ++ (← v2Lp (utf8 t.publicKey) w) : Except Err Bytes) =
        .ok b →
      (do return (← v2Lp (utf8 t'.signature) w) ++ (← v2Lp (utf8 t'.publicKey) w) : Except Err Bytes) =
        .ok b' →
      b ++ x = b' ++ y → (t.signature = t'.signature ∧ t.publicKey = t'.publicKey) ∧ x = y := by
    intro w t t' b b' x y h h' heq
    simp only [Except.bind_eq_ok, Except.pure_eq_ok, Except.ok.injEq] at h h'
    obtain ⟨b1, h1, b2, h2, rfl⟩ := h
    obtain ⟨c1, h1', c2, h2', rfl⟩ := h'
    rw [List.append_assoc, List.append_assoc] at heq
    obtain ⟨hs, heq⟩ := v2Lp_utf8_selfDelimiting w h1 h1' heq
    obtain ⟨hp, heq⟩ := v2Lp_utf8_selfDelimiting w h2 h2' heq
    exact ⟨⟨hs, hp⟩, heq⟩
  intro t t' b b' x y h h' heq
  simp only [v2Slots] at h h'
  cases isCoinbase with
  | true =>
    simp only [if_true] at h h'
    split at h
    · cases h
    · split at h'
      · cases h'
      · exact key 1 h h' heq
  | false => exact key 2 h h' heq

theorem v2TxBytes_eq (t : TxTuple) (isCoinbase : Bool) : (v2TxBytes t isCoinbase : Except Err Bytes) =
    do
      let ts ← toBytesLE 8 (← v2TsCs t.timestamp)
      let amount ← toBytesLE 8 (← v2Units t.amount)
      let address ← v2Lp (utf8 t.address) 1
      let recipient ← v2Lp (utf8 t.recipient) 1
      let mid ← v2Slots t isCoinbase
      let rest ← v2OpOf t.operation t.openfield
      return ts ++ amount ++ address ++ recipient ++ mid ++ rest := by
  unfold v2TxBytes v2Slots
  cases isCoinbase with
  | true =>
    simp only [if_true]
    split <;> simp only [bind_assoc, pure_bind]
  | false =>
    simp only [Bool.false_eq_true, if_false, bind_assoc, pure_bind]

theorem v2TxBytes_selfDelimiting (isCoinbase : Bool) :
    SelfDelimiting (fun t => (v2TxBytes t isCoinbase : Except Err Bytes)) TxTuple.Same := by
  intro t t' b b' x y h h' heq
  simp only [v2TxBytes_eq, Except.bind_eq_ok, Except.pure_eq_ok, Except.ok.injEq] at h h'
  obtain ⟨ts, hts, b1, h1, u, hu, b2, h2, b3, h3, b4, h4, b5, h5, b6, h6, rfl⟩ := h
  obtain ⟨ts', hts', c1, h1', u', hu', c2, h2', c3, h3', c4, h4', c5, h5', c6, h6', rfl⟩ := h'
  simp only [List.append_assoc] at heq
  obtain ⟨rfl, heq⟩ := toBytesLE_selfDelimiting 8 h1 h1' heq
  obtain ⟨rfl, heq⟩ := toBytesLE_selfDelimiting 8 h2 h2' heq
  obtain ⟨ha, heq⟩ := v2Lp_utf8_selfDelimiting 1 h3 h3' heq
  obtain ⟨hr, heq⟩ := v2Lp_utf8_selfDelimiting 1 h4 h4' heq
  obtain ⟨⟨hs, hp⟩, heq⟩ := v2Slots_selfDelimiting isCoinbase h5 h5' heq
  obtain ⟨hof, heq⟩ := @v2OpOf_selfDelimiting _ (t.operation, t.openfield)
    (t'.operation, t'.openfield) _ _ _ _ h6 h6' heq
  obtain ⟨hop, hfield⟩ := Prod.mk.inj hof
  exact ⟨⟨hts.trans hts'.symm, hu.trans hu'.symm, ha, hr, hs, hp, hop, hfield⟩, heq⟩

/-- Lists of one length, read one after the other with the last one as the coinbase. -/
theorem v2BlockBytes_inj {l l' : List TxTuple} (hlen : l.length = l'.length) (hne : l ≠ [])
    (h : v2BlockBytes l = (.ok b : Except Err Bytes)) (h' : v2BlockBytes l' = (.ok b' : Except Err Bytes))
    (heq : b ++ x = b' ++ y) : List.Forall₂ TxTuple.Same l l' ∧ x = y := by
  induction l generalizing l' b b' x y with
  | nil => exact absurd rfl hne
  | cons t l ih =>
    cases l' with
    | nil => cases hlen
    | cons t' l' =>
      cases l with
      | nil =>
        obtain rfl : l' = [] := by simpa using hlen.symm
        obtain ⟨hs, hxy⟩ := v2TxBytes_selfDelimiting true h h' heq
        exact ⟨.cons hs .nil, hxy⟩
      | cons u l =>
        cases l' with
        | nil => simp at hlen
        | cons u' l' =>
          simp only [v2BlockBytes, Except.bind_eq_ok, Except.pure_eq_ok, Except.ok.injEq] at h h'
          obtain ⟨b1, h1, b2, h2, rfl⟩ := h
          obtain ⟨c1, h1', c2, h2', rfl⟩ := h'
          rw [List.append_assoc, List.append_assoc] at heq
          obtain ⟨hs, heq⟩ := v2TxBytes_selfDelimiting false h1 h1' heq
          obtain ⟨hl, hxy⟩ := ih (Nat.succ.inj hlen) (List.cons_ne_nil _ _) h2 h2' heq
          exact ⟨.cons hs hl, hxy⟩

/-! ## The parent -/

structure IsBlockHash (s : Text) : Prop where
  length : s.length = 56 ∨ s.length = 64
  hex : ∀ c ∈ s, isHexLower c

/-- The parent's bytes in `block_hash_v2`. -/
def parentBytes (previousHash : Text) : Bytes :=
  if previousHash.length = 64 then (fromHex previousHash).getD (utf8 previousHash)
  else utf8 previousHash

theorem length_utf8_of_hex {s : Text} (h : ∀ c ∈ s, isHexLower c) : (utf8 s).length = s.length := by
  induction s with
  | nil => rfl
  | cons c s ih =>
    have hc : (String.utf8EncodeChar c).length = 1 := by
      obtain ⟨n, hn, rfl⟩ := exists_digitChar (h c (by simp))
      interval_cases n <;> rfl
    rw [utf8, List.flatMap_cons, List.length_append, hc]
    change 1 + (utf8 s).length = _
    rw [ih fun c hc => h c (by simp [hc]), List.length_cons, Nat.add_comm]

theorem parentBytes_inj {s s' : Text} (hs : IsBlockHash s) (hs' : IsBlockHash s')
    (h : parentBytes s = parentBytes s') : s = s' := by
  have raw : ∀ {s}, IsBlockHash s → s.length = 64 →
      ∃ b, s = hex b ∧ parentBytes s = b ∧ b.length = 32 := by
    intro s hs hlen
    obtain ⟨b, rfl⟩ := exists_hex s 32 hlen hs.hex
    refine ⟨b, rfl, by rw [parentBytes, if_pos hlen, fromHex_hex, Option.getD_some], ?_⟩
    rw [length_hex] at hlen
    omega
  have text : ∀ {s}, IsBlockHash s → s.length = 56 → parentBytes s = utf8 s ∧ (utf8 s).length = 56 := by
    intro s hs hlen
    exact ⟨by rw [parentBytes, if_neg (by omega)], (length_utf8_of_hex hs.hex).trans hlen⟩
  rcases hs.length with hl | hl <;> rcases hs'.length with hl' | hl'
  · rw [(text hs hl).1, (text hs' hl').1] at h
    exact utf8_injective h
  · obtain ⟨b, rfl, hb, hblen⟩ := raw hs' hl'
    obtain ⟨heq, hlen⟩ := text hs hl
    rw [heq, hb] at h
    rw [h] at hlen
    omega
  · obtain ⟨b, rfl, hb, hblen⟩ := raw hs hl
    obtain ⟨heq, hlen⟩ := text hs' hl'
    rw [heq, hb] at h
    rw [← h] at hlen
    omega
  · obtain ⟨b, rfl, hb, -⟩ := raw hs hl
    obtain ⟨b', rfl, hb', -⟩ := raw hs' hl'
    rw [← hb, h, hb']

/-- The bytes that `block_hash_v2` hashes. -/
def blockPreimageV2 (txs : List TxTuple) (previousHash : Text) : Except Err Bytes := do
  return (← toBytesLE 4 txs.length) ++ (← v2BlockBytes txs) ++ parentBytes previousHash

theorem blockHashV2_eq (P : Prims) (txs : List TxTuple) (previousHash : Text) :
    blockHashV2 P txs previousHash = P.blake2bHex <$> blockPreimageV2 txs previousHash := by
  simp only [blockHashV2, blockPreimageV2, parentBytes, map_bind, map_pure]

theorem blockPreimageV2_inj {l l' : List TxTuple} {s s' : Text} (hne : l ≠ []) (hs : IsBlockHash s)
    (hs' : IsBlockHash s') (h : blockPreimageV2 l s = .ok b) (h' : blockPreimageV2 l' s' = .ok b) :
    List.Forall₂ TxTuple.Same l l' ∧ s = s' := by
  simp only [blockPreimageV2, Except.bind_eq_ok, Except.pure_eq_ok, Except.ok.injEq] at h h'
  obtain ⟨n, hn, t, ht, rfl⟩ := h
  obtain ⟨n', hn', t', ht', heq⟩ := h'
  rw [List.append_assoc, List.append_assoc] at heq
  obtain ⟨hlen, heq⟩ := toBytesLE_selfDelimiting 4 hn hn' heq.symm
  obtain ⟨htxs, hprev⟩ := v2BlockBytes_inj (by exact_mod_cast hlen) hne ht ht' heq
  exact ⟨htxs, parentBytes_inj hs hs' hprev⟩

/-! ## What encodes -/

theorem exists_toBytesLE {n : Int} :
    (∃ b, toBytesLE w n = (.ok b : Except (Exc ρ) Bytes)) ↔ 0 ≤ n ∧ n < 256 ^ w := by
  rw [toBytesLE]
  split <;> simp [*]

theorem exists_v2Lp {s : Bytes} :
    (∃ b, v2Lp s w = (.ok b : Except (Exc ρ) Bytes)) ↔ s.length < 256 ^ w := by
  have h := exists_toBytesLE (ρ := ρ) (w := w) (n := (s.length : Int))
  simp only [v2Lp, Except.bind_eq_ok, Except.pure_eq_ok, Except.ok.injEq]
  constructor
  · rintro ⟨-, l, hl, -⟩
    exact_mod_cast (h.1 ⟨l, hl⟩).2
  · intro hs
    obtain ⟨l, hl⟩ := h.2 ⟨by omega, by exact_mod_cast hs⟩
    exact ⟨_, l, hl, rfl⟩

theorem exists_v2Opt {s : Text} :
    (∃ b, v2Opt s = (.ok b : Except (Exc ρ) Bytes)) ↔ (utf8 s).length < 256 ^ 4 := by
  rw [v2Opt]
  split
  · rename_i h
    simp [h]
  · exact exists_v2Lp

theorem exists_v2OpOf {op of : Text} : (∃ b, v2OpOf op of = (.ok b : Except (Exc ρ) Bytes)) ↔
    (utf8 op).length < 256 ^ 4 ∧ (utf8 of).length < 256 ^ 4 := by
  rw [← exists_v2Opt (ρ := ρ), ← exists_v2Opt (ρ := ρ)]
  simp only [v2OpOf_eq, Except.bind_eq_ok, Except.pure_eq_ok, Except.ok.injEq]
  constructor
  · rintro ⟨-, o, ho, f, hf, -⟩
    exact ⟨⟨o, ho⟩, f, hf⟩
  · rintro ⟨⟨o, ho⟩, f, hf⟩
    exact ⟨_, o, ho, f, hf, rfl⟩

structure SignedFits (ts : Int) (address recipient : Text) (units : Int) (operation openfield : Text) :
    Prop where
  timestamp : 0 ≤ ts ∧ ts < 256 ^ 8
  amount : 0 ≤ units ∧ units < 256 ^ 8
  address : (utf8 address).length < 256 ^ 1
  recipient : (utf8 recipient).length < 256 ^ 1
  free : (utf8 operation).length < 256 ^ 4 ∧ (utf8 openfield).length < 256 ^ 4

theorem exists_signatureBufferV2 {ts u : Int} :
    (∃ b, signatureBufferV2 ts a r u op of = (.ok b : Except (Exc ρ) Bytes)) ↔
      SignedFits ts a r u op of := by
  simp only [signatureBufferV2, Except.bind_eq_ok, Except.pure_eq_ok, Except.ok.injEq]
  constructor
  · rintro ⟨-, b1, h1, b2, h2, b3, h3, b4, h4, b5, h5, -⟩
    exact ⟨exists_toBytesLE.1 ⟨b1, h1⟩, exists_toBytesLE.1 ⟨b2, h2⟩, exists_v2Lp.1 ⟨b3, h3⟩,
      exists_v2Lp.1 ⟨b4, h4⟩, exists_v2OpOf.1 ⟨b5, h5⟩⟩
  · intro h
    obtain ⟨b1, h1⟩ := exists_toBytesLE.2 h.timestamp
    obtain ⟨b2, h2⟩ := exists_toBytesLE.2 h.amount
    obtain ⟨b3, h3⟩ := exists_v2Lp.2 h.address
    obtain ⟨b4, h4⟩ := exists_v2Lp.2 h.recipient
    obtain ⟨b5, h5⟩ := exists_v2OpOf.2 h.free
    exact ⟨_, b1, h1, b2, h2, b3, h3, b4, h4, b5, h5, rfl⟩

/-- The bounds of a converted transaction: a coinbase's two slots have one byte for their length, a
signature and a key two. -/
structure TxTuple.Fits (t : TxTuple) (isCoinbase : Bool) : Prop where
  timestamp : ∃ n, v2TsCs t.timestamp = (.ok n : Except Err Int) ∧ 0 ≤ n ∧ n < 256 ^ 8
  amount : ∃ n, v2Units t.amount = (.ok n : Except Err Int) ∧ 0 ≤ n ∧ n < 256 ^ 8
  address : (utf8 t.address).length < 256 ^ 1
  recipient : (utf8 t.recipient).length < 256 ^ 1
  signature : (utf8 t.signature).length < 256 ^ (if isCoinbase then 1 else 2)
  publicKey : (utf8 t.publicKey).length < 256 ^ (if isCoinbase then 1 else 2)
  free : (utf8 t.operation).length < 256 ^ 4 ∧ (utf8 t.openfield).length < 256 ^ 4

theorem exists_v2Slots {t : TxTuple} {isCoinbase : Bool} : (∃ b, v2Slots t isCoinbase = .ok b) ↔
    (utf8 t.signature).length < 256 ^ (if isCoinbase then 1 else 2) ∧
      (utf8 t.publicKey).length < 256 ^ (if isCoinbase then 1 else 2) := by
  have key : ∀ w, (∃ b, (do return (← v2Lp (utf8 t.signature) w) ++ (← v2Lp (utf8 t.publicKey) w) :
      Except Err Bytes) = .ok b) ↔
      (utf8 t.signature).length < 256 ^ w ∧ (utf8 t.publicKey).length < 256 ^ w := by
    intro w
    rw [← exists_v2Lp (ρ := Reject), ← exists_v2Lp (ρ := Reject)]
    simp only [Except.bind_eq_ok, Except.pure_eq_ok, Except.ok.injEq]
    constructor
    · rintro ⟨-, b1, h1, b2, h2, -⟩
      exact ⟨⟨b1, h1⟩, b2, h2⟩
    · rintro ⟨⟨b1, h1⟩, b2, h2⟩
      exact ⟨_, b1, h1, b2, h2, rfl⟩
  cases isCoinbase with
  | true =>
    simp only [v2Slots, if_true]
    split
    · rename_i h
      simp only [Except.throw_eq_error, reduceCtorEq, exists_false, false_iff]
      omega
    · exact key 1
  | false => exact key 2

theorem exists_v2TxBytes {t : TxTuple} {isCoinbase : Bool} :
    (∃ b, v2TxBytes t isCoinbase = (.ok b : Except Err Bytes)) ↔ t.Fits isCoinbase := by
  simp only [v2TxBytes_eq, Except.bind_eq_ok, Except.pure_eq_ok, Except.ok.injEq]
  constructor
  · rintro ⟨-, ts, hts, b1, h1, u, hu, b2, h2, b3, h3, b4, h4, b5, h5, b6, h6, -⟩
    have hslots := exists_v2Slots.1 ⟨b5, h5⟩
    exact ⟨⟨ts, hts, exists_toBytesLE.1 ⟨b1, h1⟩⟩, ⟨u, hu, exists_toBytesLE.1 ⟨b2, h2⟩⟩,
      exists_v2Lp.1 ⟨b3, h3⟩, exists_v2Lp.1 ⟨b4, h4⟩, hslots.1, hslots.2, exists_v2OpOf.1 ⟨b6, h6⟩⟩
  · intro h
    obtain ⟨ts, hts, hts'⟩ := h.timestamp
    obtain ⟨u, hu, hu'⟩ := h.amount
    obtain ⟨b1, h1⟩ := exists_toBytesLE.2 hts'
    obtain ⟨b2, h2⟩ := exists_toBytesLE.2 hu'
    obtain ⟨b3, h3⟩ := exists_v2Lp.2 h.address
    obtain ⟨b4, h4⟩ := exists_v2Lp.2 h.recipient
    obtain ⟨b5, h5⟩ := exists_v2Slots.2 ⟨h.signature, h.publicKey⟩
    obtain ⟨b6, h6⟩ := exists_v2OpOf.2 h.free
    exact ⟨_, ts, hts, b1, h1, u, hu, b2, h2, b3, h3, b4, h4, b5, h5, b6, h6, rfl⟩

/-- The transactions of a block, the last one as the coinbase. -/
def BlockFits : List TxTuple → Prop
  | [] => True
  | [t] => t.Fits true
  | t :: ts => t.Fits false ∧ BlockFits ts

theorem exists_v2BlockBytes {l : List TxTuple} :
    (∃ b, v2BlockBytes l = (.ok b : Except Err Bytes)) ↔ BlockFits l := by
  induction l with
  | nil => exact ⟨fun _ => trivial, fun _ => ⟨[], rfl⟩⟩
  | cons t l ih =>
    cases l with
    | nil => exact exists_v2TxBytes
    | cons u l =>
      simp only [v2BlockBytes, BlockFits, Except.bind_eq_ok, Except.pure_eq_ok, Except.ok.injEq]
      rw [← ih, ← exists_v2TxBytes]
      constructor
      · rintro ⟨-, b1, h1, b2, h2, -⟩
        exact ⟨⟨b1, h1⟩, b2, h2⟩
      · rintro ⟨⟨b1, h1⟩, b2, h2⟩
        exact ⟨_, b1, h1, b2, h2, rfl⟩

theorem exists_blockPreimageV2 {l : List TxTuple} {s : Text} :
    (∃ b, blockPreimageV2 l s = .ok b) ↔ l.length < 256 ^ 4 ∧ BlockFits l := by
  rw [← exists_v2BlockBytes]
  simp only [blockPreimageV2, Except.bind_eq_ok, Except.pure_eq_ok, Except.ok.injEq]
  constructor
  · rintro ⟨-, n, hn, t, ht, -⟩
    exact ⟨by exact_mod_cast (exists_toBytesLE.1 ⟨n, hn⟩).2, t, ht⟩
  · rintro ⟨hlen, t, ht⟩
    obtain ⟨n, hn⟩ := (exists_toBytesLE (ρ := Reject) (w := 4) (n := (l.length : Int))).2
      ⟨by omega, by exact_mod_cast hlen⟩
    exact ⟨_, n, hn, t, ht, rfl⟩

/-! ## The result -/

/-- Signed contents that differ, an absent operation or openfield counted as an empty one, give
different bytes, and so do blocks that differ in a transaction or in the parent. What does not encode is
a field out of its bounds, and raises. -/
theorem preimages_unambiguous :
    (∀ (ts ts' : Int) (a a' r r' : Text) (u u' : Int) (op op' of of' : Option Text) (b : Bytes),
      signatureBufferV2 ts a r u (op.getD []) (of.getD []) = (.ok b : Except Err Bytes) →
      signatureBufferV2 ts' a' r' u' (op'.getD []) (of'.getD []) = (.ok b : Except Err Bytes) →
      ts = ts' ∧ a = a' ∧ r = r' ∧ u = u' ∧ op.getD [] = op'.getD [] ∧ of.getD [] = of'.getD []) ∧
    (∀ (P : Prims) (l l' : List TxTuple) (s s' : Text) (b : Bytes), l ≠ [] → l' ≠ [] →
      IsBlockHash s → IsBlockHash s' →
      blockHashV2 P l s = P.blake2bHex <$> blockPreimageV2 l s ∧
      (blockPreimageV2 l s = .ok b → blockPreimageV2 l' s' = .ok b →
        List.Forall₂ TxTuple.Same l l' ∧ s = s')) ∧
    (∀ (ts : Int) (a r : Text) (u : Int) (op of : Option Text),
      (SignedFits ts a r u (op.getD []) (of.getD []) ∧
        ∃ b, signatureBufferV2 ts a r u (op.getD []) (of.getD []) = (.ok b : Except Err Bytes)) ∨
      (¬ SignedFits ts a r u (op.getD []) (of.getD []) ∧
        ∃ e, signatureBufferV2 ts a r u (op.getD []) (of.getD []) = (.error e : Except Err Bytes))) ∧
    (∀ (l : List TxTuple) (s : Text),
      (l.length < 256 ^ 4 ∧ BlockFits l ∧ ∃ b, blockPreimageV2 l s = .ok b) ∨
      (¬ (l.length < 256 ^ 4 ∧ BlockFits l) ∧ ∃ e, blockPreimageV2 l s = .error e)) := by
  refine ⟨fun _ _ _ _ _ _ _ _ _ _ _ _ _ => signatureBufferV2_inj,
    fun P l l' s s' b hne _ hs hs' => ⟨blockHashV2_eq P l s, blockPreimageV2_inj hne hs hs'⟩, ?_, ?_⟩
  · intro ts a r u op of
    have h : (∃ b, signatureBufferV2 ts a r u (op.getD []) (of.getD []) = (.ok b : Except Err Bytes)) ↔
        SignedFits ts a r u (op.getD []) (of.getD []) := exists_signatureBufferV2
    cases hb : (signatureBufferV2 ts a r u (op.getD []) (of.getD []) : Except Err Bytes) with
    | ok b => exact .inl ⟨h.1 ⟨b, hb⟩, b, rfl⟩
    | error e => exact .inr ⟨fun hfit => by simp [hb] at h; exact h hfit, e, rfl⟩
  · intro l s
    have h := exists_blockPreimageV2 (l := l) (s := s)
    cases hb : blockPreimageV2 l s with
    | ok b => exact .inl ⟨(h.1 ⟨b, hb⟩).1, (h.1 ⟨b, hb⟩).2, b, rfl⟩
    | error e => exact .inr ⟨fun hfit => by simpa [hb] using h.2 hfit, e, rfl⟩

def sampleCoinbase : TxTuple :=
  { timestamp := "1.00".toList, address := "ab".toList, recipient := "ab".toList,
    amount := "0.00000000".toList, signature := "nonce".toList, publicKey := [], operation := [],
    openfield := [] }

theorem preimages_unambiguous_sample :
    IsBlockHash (List.replicate 56 'a') ∧
    (∃ b, blockPreimageV2 [sampleCoinbase] (List.replicate 56 'a') = .ok b ∧
      List.Forall₂ TxTuple.Same [sampleCoinbase] [sampleCoinbase]) ∧
    ∃ b, signatureBufferV2 100 ['a'] ['b'] 5 [] ['x'] = (.ok b : Except Err Bytes) ∧
      (none : Option Text).getD [] = (some ([] : Text)).getD [] := by
  have hs : IsBlockHash (List.replicate 56 'a') := ⟨.inl rfl, by decide⟩
  obtain ⟨b, hb⟩ : ∃ b, blockPreimageV2 [sampleCoinbase] (List.replicate 56 'a') = .ok b := by
    refine exists_blockPreimageV2.2 ⟨by decide, ⟨⟨100, by decide +kernel, by decide⟩,
      ⟨0, by decide +kernel, by decide⟩, ?_, ?_, ?_, ?_, ?_, ?_⟩⟩ <;> decide +kernel
  obtain ⟨c, hc⟩ : ∃ b, signatureBufferV2 100 ['a'] ['b'] 5 [] ['x'] = (.ok b : Except Err Bytes) :=
    exists_signatureBufferV2.2 ⟨by decide, by decide, by decide, by decide, by decide⟩
  obtain ⟨hsig, hblock, -, -⟩ := preimages_unambiguous
  refine ⟨hs, ⟨b, hb, ?_⟩, c, hc, ?_⟩
  · exact ((hblock Prims.toy _ _ _ _ b (by simp) (by simp) hs hs).2 hb hb).1
  · exact (hsig 100 100 ['a'] ['a'] ['b'] ['b'] 5 5 none (some []) (some ['x']) (some ['x']) c hc
      hc).2.2.2.2.1

end Bismuth
