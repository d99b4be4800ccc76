import Bismuth.Lib.Separated
import Bismuth.Store.Body
import Bismuth.Token.Index

/-!
# The live operations of the token index

Every table of the tokens is determined by the operations that are recorded and not undone: the sums and
counts by the operations themselves, the keys of `cred` and `deb` by their sequence numbers as well.
-/

namespace Bismuth
open Py

/-! ## Keys -/

/-- No NUL character, the separator of the keys. -/
def NulFree (s : Text) : Prop := '\x00' ∉ s

instance (s : Text) : Decidable (NulFree s) := inferInstanceAs (Decidable ('\x00' ∉ s))

theorem NulFree.utf8 {s : Text} (h : NulFree s) : 0 ∉ utf8 s := by
  intro h0
  obtain ⟨c, hc, h0⟩ := List.mem_flatMap.1 h0
  exact h (zero_mem_utf8EncodeChar h0 ▸ hc)

/-- `_hq` of numbers in range. -/
def hqBytes (height seq : Nat) : Bytes := beBytes 8 height ++ beBytes 8 seq

theorem hq_eq (hh : height < 2 ^ 64) (hs : seq < 2 ^ 64) : hq height seq = .ok (hqBytes height seq) := by
  rw [hq, packBE, packBE, if_pos (by omega), if_pos (by omega)]
  rfl

theorem journalKey_eq (hh : height < 2 ^ 64) (hs : seq < 2 ^ 64) :
    journalKey height seq = .ok (2 ^ 64 * height + seq) := if_pos ⟨hh, hs⟩

@[simp] theorem length_hqBytes (height seq : Nat) : (hqBytes height seq).length = 16 := by
  simp [hqBytes]

theorem tailHeight_append (k : Bytes) (hh : height < 2 ^ 64) (seq : Nat) :
    tailHeight (k ++ hqBytes height seq) = height := by
  rw [tailHeight, List.length_append, length_hqBytes, Nat.add_sub_cancel, List.drop_left, hqBytes,
    List.take_left' (length_beBytes 8 height), beVal_beBytes (by omega)]

theorem hqBytes_inj (hh : h < 2 ^ 64) (hs : s < 2 ^ 64) (hh' : h' < 2 ^ 64) (hs' : s' < 2 ^ 64)
    (heq : hqBytes h s = hqBytes h' s') : h = h' ∧ s = s' := by
  obtain ⟨h1, h2⟩ := List.append_inj heq (by simp)
  constructor
  · rw [← beVal_beBytes (show h < 256 ^ 8 by omega), h1, beVal_beBytes (by omega)]
  · rw [← beVal_beBytes (show s < 256 ^ 8 by omega), h2, beVal_beBytes (by omega)]

theorem partyPrefix_isPrefixOf_append (ht : NulFree token) (hp : NulFree party) (t p : Text) (k : Bytes) :
    (partyPrefix token party).isPrefixOf (partyPrefix t p ++ k) =
      (partyPrefix token party).isPrefixOf (partyPrefix t p) := by
  rw [Bool.eq_iff_iff, List.isPrefixOf_iff_prefix, List.isPrefixOf_iff_prefix]
  refine List.sep_sep_prefix_append ht.utf8 hp.utf8 ?_
  simp only [partyPrefix, List.count_append, List.count_cons_self, List.count_nil]
  omega

theorem partyPrefix_isPrefixOf_iff (ht : NulFree token) (hp : NulFree party) (ht' : NulFree t)
    (hp' : NulFree p) :
    (partyPrefix token party).isPrefixOf (partyPrefix t p) = true ↔ token = t ∧ party = p := by
  rw [List.isPrefixOf_iff_prefix, partyPrefix, partyPrefix,
    List.sep_sep_prefix_iff ht.utf8 hp.utf8 ht'.utf8 hp'.utf8, utf8_injective.eq_iff,
    utf8_injective.eq_iff]

/-! ## Live operations -/

structure LiveOp where
  height : Nat
  seq : Nat
  op : TokenOp

namespace LiveOp
variable (e : LiveOp)

def key : Nat := 2 ^ 64 * e.height + e.seq

/-- Its rows in `cred`, `deb` and `tokreg`. -/
def credit? : Option (Bytes × Int) :=
  e.op.move?.map fun m => (partyPrefix m.token m.recipient ++ hqBytes e.height e.seq, m.amount)

def debit? : Option (Bytes × Int) :=
  e.op.move?.map fun m => (partyPrefix m.token m.address ++ hqBytes e.height e.seq, m.amount)

def reg? : Option (Bytes × TokenReg) :=
  match e.op with
  | .issue m txid => some (utf8 m.token, ⟨e.height, m.recipient, txid, m.amount⟩)
  | _ => none

/-- The keys of the rows end with the height and the sequence number. -/
theorem credit?_tail (e : LiveOp) (k : Bytes) (v : Int) (h : e.credit? = some (k, v)) :
    ∃ pre, k = pre ++ hqBytes e.height e.seq := by
  obtain ⟨m, -, hm⟩ := Option.map_eq_some_iff.1 h
  cases hm
  exact ⟨_, rfl⟩

theorem debit?_tail (e : LiveOp) (k : Bytes) (v : Int) (h : e.debit? = some (k, v)) :
    ∃ pre, k = pre ++ hqBytes e.height e.seq := by
  obtain ⟨m, -, hm⟩ := Option.map_eq_some_iff.1 h
  cases hm
  exact ⟨_, rfl⟩

end LiveOp

/-- What an operation is counted under in `addrtok` and in `tokset`. -/
def TokenOp.links : TokenOp → List Bytes
  | .issue m _ => [addrTokKey m.recipient m.token, addrTokKey m.address m.token]
  | .transfer m _ => [addrTokKey m.address m.token, addrTokKey m.recipient m.token]
  | .noop _ => []

def TokenOp.tokens (op : TokenOp) : List Bytes := op.move?.toList.map fun m => utf8 m.token

def TokenOp.Fits (height : Nat) (op : TokenOp) : Prop :=
  height < 2 ^ 64 ∧ utf8 op.txid ≠ [] ∧ (utf8 op.txid).length ≤ 511 ∧
    ∀ m ∈ op.move?, utf8 m.token ≠ [] ∧ (partyPrefix m.token m.recipient).length ≤ 495 ∧
      (partyPrefix m.token m.address).length ≤ 495

instance (height : Nat) (op : TokenOp) : Decidable (op.Fits height) := by
  unfold TokenOp.Fits
  infer_instance

/-- The tables of the tokens hold the operations `live`. -/
structure Refines (ti : TokenIndex) (live : List LiveOp) : Prop where
  journal : ti.journal.Lists (live.map fun e => (e.key, e.op))
  cred : ti.cred.Lists (live.filterMap LiveOp.credit?)
  deb : ti.deb.Lists (live.filterMap LiveOp.debit?)
  seen : ti.seen.Lists (live.map fun e => (utf8 e.op.txid, ()))
  tokreg : ti.tokreg.Lists (live.filterMap LiveOp.reg?)
  addrtok : ti.addrtok.Counts (live.flatMap fun e => e.op.links)
  tokset : ti.tokset.Counts (live.flatMap fun e => e.op.tokens)
  fits : ∀ e ∈ live, e.op.Fits e.height
  seq_le : ∀ e ∈ live, e.seq ≤ ti.seq
  seq_lt : ti.seq < 2 ^ 64

namespace Refines
variable {ti ti' : TokenIndex} {live live' : List LiveOp} {e : LiveOp}

theorem empty : Refines {} [] where
  journal := .empty
  cred := .empty
  deb := .empty
  seen := .empty
  tokreg := .empty
  addrtok := .empty
  tokset := .empty
  fits := by simp
  seq_le := by simp
  seq_lt := by decide

theorem perm (H : Refines ti live) (h : live.Perm live') : Refines ti live' where
  journal := H.journal.perm (h.map _)
  cred := H.cred.perm (h.filterMap _)
  deb := H.deb.perm (h.filterMap _)
  seen := H.seen.perm (h.map _)
  tokreg := H.tokreg.perm (h.filterMap _)
  addrtok := H.addrtok.perm (h.flatMap_right _)
  tokset := H.tokset.perm (h.flatMap_right _)
  fits e he := H.fits e (h.mem_iff.2 he)
  seq_le e he := H.seq_le e (h.mem_iff.2 he)
  seq_lt := H.seq_lt

end Refines

/-! ## Calls -/

inductive TokenCall where
  | registerIssue (height : Nat) (token issuer txid : Text) (supply : Val)
  | applyTransfer (height : Nat) (token sender recipient txid : Text) (amount : Val)
  | markNoop (height : Nat) (txid : Text)

namespace TokenCall

def height : TokenCall → Nat
  | .registerIssue h _ _ _ _ | .applyTransfer h _ _ _ _ _ | .markNoop h _ => h

def op : TokenCall → Except Err TokenOp
  | .registerIssue _ token issuer txid supply => do
    return .issue ⟨token, issuer, issuedMarker, ← TokenIndex.readSupply supply⟩ txid
  | .applyTransfer _ token sender recipient txid amount => do
    return .transfer ⟨token, recipient, sender, ← amount.toInt⟩ txid
  | .markNoop _ txid => .ok (.noop txid)

def run (ti : TokenIndex) : TokenCall → Except Err (Bool × TokenIndex)
  | .registerIssue h token issuer txid supply => ti.registerIssue h token issuer txid supply
  | .applyTransfer h token sender recipient txid amount =>
    ti.applyTransfer h token sender recipient txid amount
  | .markNoop h txid => ti.markNoop h txid

/-- The store after the call, whether it returns or raises. -/
def apply (ti : TokenIndex) (c : TokenCall) : TokenIndex :=
  match c.run ti with
  | .ok (_, ti') => ti'
  | .error _ => ti

end TokenCall

def putSome (t : OrdTable Bytes V) : Option (Bytes × V) → OrdTable Bytes V
  | some (k, v) => t.put k v
  | none => t

/-- The store with one more operation in all of its tables. -/
def TokenIndex.recorded (ti : TokenIndex) (height : Nat) (op : TokenOp) : TokenIndex :=
  let e : LiveOp := ⟨height, ti.seq + 1, op⟩
  { ti with
    seq := ti.seq + 1
    tokAnchor := max ti.tokAnchor height
    tokreg := putSome ti.tokreg e.reg?
    seen := ti.seen.put (utf8 op.txid) ()
    cred := putSome ti.cred e.credit?
    deb := putSome ti.deb e.debit?
    addrtok := op.links.foldl (fun t k => t.bump k 1) ti.addrtok
    tokset := op.tokens.foldl (fun t k => t.bump k 1) ti.tokset
    journal := ti.journal.put e.key op }

/-- The store accepts the operation: it fits, and neither its transaction nor its issuance is known. -/
def TokenIndex.Takes (ti : TokenIndex) (height : Nat) (op : TokenOp) : Prop :=
  op.Fits height ∧ ti.seq + 1 < 2 ^ 64 ∧ ti.seen.get? (utf8 op.txid) = none ∧
    ∀ m txid, op = .issue m txid → ti.tokreg.get? (utf8 m.token) = none

/-! ## What a call that returned did -/

theorem lmdbGet_eq_ok {t : OrdTable Bytes V} : lmdbGet t k = .ok x ↔ k ≠ [] ∧ t.get? k = x := by
  rw [lmdbGet]
  split <;> simp_all

theorem lmdbKey_eq_ok : lmdbKey k = .ok k' ↔ k ≠ [] ∧ k.length ≤ 511 ∧ k = k' := by
  rw [lmdbKey]
  split
  · rename_i h
    simp only [reduceCtorEq, false_iff]
    rintro ⟨h1, h2, -⟩
    exact h.elim h1 (by omega)
  · rename_i h
    rw [not_or, not_lt] at h
    simp [h]

theorem incrCount_eq_ok {t t' : OrdTable Bytes Int} {delta : Int} :
    incrCount t k delta = .ok t' ↔ k ≠ [] ∧ (0 < (t.get? k).getD 0 + delta → k.length ≤ 511) ∧
      t.bump k delta = t' := by
  simp only [incrCount, Except.bind_eq_ok, lmdbGet_eq_ok, OrdTable.bump]
  constructor
  · rintro ⟨_, ⟨hk, rfl⟩, h⟩
    split at h
    · rename_i hpos
      obtain ⟨k', hk', h⟩ := Except.bind_eq_ok.1 h
      obtain ⟨-, hlen, rfl⟩ := lmdbKey_eq_ok.1 hk'
      cases h
      exact ⟨hk, fun _ => hlen, if_pos hpos⟩
    · rename_i hpos
      cases h
      exact ⟨hk, fun h => absurd h hpos, if_neg hpos⟩
  · rintro ⟨hk, hlen, rfl⟩
    refine ⟨_, ⟨hk, rfl⟩, ?_⟩
    split
    · rename_i hpos
      rw [lmdbKey_eq_ok.2 ⟨hk, hlen hpos, rfl⟩]
      rfl
    · rfl

theorem hq_eq_ok : hq height seq = .ok k ↔ height < 2 ^ 64 ∧ seq < 2 ^ 64 ∧ hqBytes height seq = k := by
  constructor
  · intro h
    simp only [hq, packBE, Except.bind_eq_ok] at h
    obtain ⟨_, h1, _, h2, h⟩ := h
    split at h1 <;> cases h1
    split at h2 <;> cases h2
    cases h
    exact ⟨by omega, by omega, rfl⟩
  · rintro ⟨h1, h2, rfl⟩
    exact hq_eq h1 h2

theorem partyKey_eq_ok : partyKey token party height seq = .ok k ↔
    height < 2 ^ 64 ∧ seq < 2 ^ 64 ∧ partyPrefix token party ++ hqBytes height seq = k := by
  simp only [partyKey, Except.bind_eq_ok, hq_eq_ok, Except.pure_eq_ok, Except.ok.injEq]
  constructor
  · rintro ⟨_, ⟨h1, h2, rfl⟩, rfl⟩
    exact ⟨h1, h2, rfl⟩
  · rintro ⟨h1, h2, rfl⟩
    exact ⟨_, ⟨h1, h2, rfl⟩, rfl⟩

theorem journalKey_eq_ok : journalKey height seq = .ok k ↔
    height < 2 ^ 64 ∧ seq < 2 ^ 64 ∧ 2 ^ 64 * height + seq = k := by
  rw [journalKey]
  split
  · rename_i h
    rw [Except.ok.injEq, and_iff_right h.1, and_iff_right h.2]
  · rename_i h
    simp only [reduceCtorEq, false_iff]
    exact fun h' => h ⟨h'.1, h'.2.1⟩

theorem length_addrTokKey (address token : Text) :
    (addrTokKey address token).length + 1 = (partyPrefix token address).length := by
  simp only [addrTokKey, partyPrefix, List.length_append, List.length_cons, List.length_nil]
  omega

variable {t : OrdTable Bytes Int}

theorem incrAddrTok_eq {delta : Int} {links : List Text}
    (h : ∀ a ∈ links, (partyPrefix token a).length ≤ 495) : incrAddrTok token delta t links =
      .ok ((links.map fun a => addrTokKey a token).foldl (fun t k => t.bump k delta) t) := by
  induction links generalizing t with
  | nil => rfl
  | cons a links ih =>
    have hlen := length_addrTokKey a token
    have ha := h a (by simp)
    have hincr : incrCount t (addrTokKey a token) delta = .ok (t.bump (addrTokKey a token) delta) :=
      incrCount_eq_ok.2 ⟨by simp [addrTokKey], fun _ => by omega, rfl⟩
    rw [incrAddrTok, hincr, Except.ok_bind, ih fun a ha => h a (by simp [ha])]
    rfl

variable {ti ti' : TokenIndex}

/-- The tables after the rows of an operation that moves tokens. -/
theorem putMove_eq_ok {m : Movement} {links : List Text} (hlinks : ∀ a ∈ links, a = m.recipient ∨ a = m.address) :
    ti.putMove m links height seq = .ok ti' ↔
      (height < 2 ^ 64 ∧ seq < 2 ^ 64 ∧ utf8 m.token ≠ [] ∧
        (partyPrefix m.token m.recipient).length ≤ 495 ∧ (partyPrefix m.token m.address).length ≤ 495) ∧
      ti' = { ti with
        cred := ti.cred.put (partyPrefix m.token m.recipient ++ hqBytes height seq) m.amount
        deb := ti.deb.put (partyPrefix m.token m.address ++ hqBytes height seq) m.amount
        addrtok := (links.map fun a => addrTokKey a m.token).foldl (fun t k => t.bump k 1) ti.addrtok
        tokset := ti.tokset.bump (utf8 m.token) 1 } := by
  have hlinks' (h1 : (partyPrefix m.token m.recipient).length ≤ 495)
      (h2 : (partyPrefix m.token m.address).length ≤ 495) :
      ∀ a ∈ links, (partyPrefix m.token a).length ≤ 495 := fun a ha => by
    rcases hlinks a ha with rfl | rfl
    · exact h1
    · exact h2
  simp only [TokenIndex.putMove, Except.bind_eq_ok, partyKey_eq_ok, lmdbKey_eq_ok, incrCount_eq_ok,
    Except.pure_eq_ok, Except.ok.injEq]
  constructor
  · rintro ⟨_, ⟨hh, hs, rfl⟩, _, ⟨-, hlen1, rfl⟩, _, ⟨-, -, rfl⟩, _, ⟨-, hlen2, rfl⟩, addrtok, haddr, _,
      ⟨htok, -, rfl⟩, rfl⟩
    rw [List.length_append, length_hqBytes] at hlen1 hlen2
    rw [incrAddrTok_eq (hlinks' (by omega) (by omega))] at haddr
    cases haddr
    exact ⟨⟨hh, hs, htok, by omega, by omega⟩, rfl⟩
  · rintro ⟨⟨hh, hs, htok, hlen1, hlen2⟩, rfl⟩
    have hmem : ∀ party, partyPrefix m.token party ++ hqBytes height seq ≠ [] := by simp [partyPrefix]
    have hlen : (utf8 m.token).length ≤ 511 := by
      simp only [partyPrefix, List.length_append, List.length_cons] at hlen1
      omega
    refine ⟨_, ⟨hh, hs, rfl⟩, _, ⟨hmem _, ?_, rfl⟩, _, ⟨hh, hs, rfl⟩, _, ⟨hmem _, ?_, rfl⟩, _,
      incrAddrTok_eq (hlinks' hlen1 hlen2), _, ⟨htok, fun _ => hlen, rfl⟩, rfl⟩
    · rw [List.length_append, length_hqBytes]
      omega
    · rw [List.length_append, length_hqBytes]
      omega

theorem putJournal_eq_ok {op : TokenOp} : ti.putJournal height seq op = .ok ti' ↔
    (height < 2 ^ 64 ∧ seq < 2 ^ 64) ∧ ti' = { ti with
      journal := ti.journal.put (2 ^ 64 * height + seq) op, tokAnchor := max ti.tokAnchor height } := by
  have hbump (ti : TokenIndex) : ti.bumpTokAnchor height =
      { ti with tokAnchor := max ti.tokAnchor height } := by
    rw [TokenIndex.bumpTokAnchor]
    split
    · rw [max_eq_right (by omega)]
    · rw [max_eq_left (by omega)]
  simp only [TokenIndex.putJournal, Except.bind_eq_ok, journalKey_eq_ok, Except.pure_eq_ok,
    Except.ok.injEq, hbump]
  constructor
  · rintro ⟨_, ⟨hh, hs, rfl⟩, rfl⟩
    exact ⟨⟨hh, hs⟩, rfl⟩
  · rintro ⟨⟨hh, hs⟩, rfl⟩
    exact ⟨_, ⟨hh, hs, rfl⟩, rfl⟩

theorem TokenOp.Fits.of_move {op : TokenOp} (hh : height < 2 ^ 64) (hne : utf8 op.txid ≠ [])
    (hlen : (utf8 op.txid).length ≤ 511) (hm : op.move? = some m)
    (h : utf8 m.token ≠ [] ∧ (partyPrefix m.token m.recipient).length ≤ 495 ∧
      (partyPrefix m.token m.address).length ≤ 495) : op.Fits height := by
  refine ⟨hh, hne, hlen, ?_⟩
  rw [hm]
  rintro _ ⟨⟩
  exact h

theorem registerIssue_true_iff : ti.registerIssue height token issuer txid supply = .ok (true, ti') ↔
      ∃ n, TokenIndex.readSupply supply = .ok n ∧
        ti.Takes height (.issue ⟨token, issuer, issuedMarker, n⟩ txid) ∧
        ti' = ti.recorded height (.issue ⟨token, issuer, issuedMarker, n⟩ txid) := by
  constructor
  · intro h
    obtain ⟨n, hn, h⟩ := Except.bind_eq_ok.1 h
    obtain ⟨x, hx, h⟩ := Except.bind_eq_ok.1 h
    obtain ⟨htok, rfl⟩ := lmdbGet_eq_ok.1 hx
    split at h
    · cases h
    · rename_i hreg
      obtain ⟨y, hy, h⟩ := Except.bind_eq_ok.1 h
      obtain ⟨htx, rfl⟩ := lmdbGet_eq_ok.1 hy
      split at h
      · cases h
      · rename_i hseen
        simp only [Except.bind_eq_ok, lmdbKey_eq_ok] at h
        obtain ⟨_, ⟨-, -, rfl⟩, _, ⟨-, htxlen, rfl⟩, ti₁, hmove, ti₂, hj, h⟩ := h
        obtain ⟨⟨hh, hs, hfit⟩, rfl⟩ := (putMove_eq_ok (by simp)).1 hmove
        obtain ⟨-, rfl⟩ := putJournal_eq_ok.1 hj
        cases h
        refine ⟨n, hn, ⟨.of_move hh htx htxlen rfl hfit, hs, Option.not_isSome_iff_eq_none.1 hseen, ?_⟩, rfl⟩
        rintro _ _ ⟨⟩
        simpa using hreg
  · rintro ⟨n, hn, ⟨⟨hh, htx, htxlen, hfit⟩, hs, hseen, hreg⟩, rfl⟩
    obtain ⟨htok, h1, h2⟩ := hfit _ rfl
    have hreg := hreg _ _ rfl
    have hlen : (utf8 token).length ≤ 511 := by
      simp only [partyPrefix, List.length_append, List.length_cons] at h1
      omega
    simp only [TokenOp.txid] at htx htxlen hseen
    simp only [TokenIndex.registerIssue, hn, Except.ok_bind, lmdbGet_eq_ok.2 ⟨htok, hreg⟩,
      lmdbGet_eq_ok.2 ⟨htx, hseen⟩, Option.isSome_none, Bool.false_eq_true, if_false,
      lmdbKey_eq_ok.2 ⟨htok, hlen, rfl⟩, lmdbKey_eq_ok.2 ⟨htx, htxlen, rfl⟩]
    rw [(putMove_eq_ok (by simp)).2 ⟨⟨hh, hs, htok, h1, h2⟩, rfl⟩, Except.ok_bind,
      putJournal_eq_ok.2 ⟨⟨hh, hs⟩, rfl⟩]
    rfl

theorem applyTransfer_true_iff : ti.applyTransfer height token sender recipient txid amount = .ok (true, ti') ↔
      ∃ n, amount.toInt = (.ok n : Except Err Int) ∧
        ti.Takes height (.transfer ⟨token, recipient, sender, n⟩ txid) ∧
        ti' = ti.recorded height (.transfer ⟨token, recipient, sender, n⟩ txid) := by
  constructor
  · intro h
    obtain ⟨n, hn, h⟩ := Except.bind_eq_ok.1 h
    obtain ⟨y, hy, h⟩ := Except.bind_eq_ok.1 h
    obtain ⟨htx, rfl⟩ := lmdbGet_eq_ok.1 hy
    split at h
    · cases h
    · rename_i hseen
      simp only [Except.bind_eq_ok, lmdbKey_eq_ok] at h
      obtain ⟨_, ⟨-, htxlen, rfl⟩, ti₁, hmove, ti₂, hj, h⟩ := h
      obtain ⟨⟨hh, hs, hfit⟩, rfl⟩ := (putMove_eq_ok (by simp)).1 hmove
      obtain ⟨-, rfl⟩ := putJournal_eq_ok.1 hj
      cases h
      refine ⟨n, hn, ⟨.of_move hh htx htxlen rfl hfit, hs, Option.not_isSome_iff_eq_none.1 hseen, ?_⟩, rfl⟩
      rintro _ _ ⟨⟩
  · rintro ⟨n, hn, ⟨⟨hh, htx, htxlen, hfit⟩, hs, hseen, -⟩, rfl⟩
    obtain ⟨htok, h1, h2⟩ := hfit _ rfl
    simp only [TokenOp.txid] at htx htxlen hseen
    simp only [TokenIndex.applyTransfer, hn, Except.ok_bind, lmdbGet_eq_ok.2 ⟨htx, hseen⟩,
      Option.isSome_none, Bool.false_eq_true, if_false, lmdbKey_eq_ok.2 ⟨htx, htxlen, rfl⟩]
    rw [(putMove_eq_ok (by simp)).2 ⟨⟨hh, hs, htok, h1, h2⟩, rfl⟩, Except.ok_bind,
      putJournal_eq_ok.2 ⟨⟨hh, hs⟩, rfl⟩]
    rfl

theorem markNoop_true_iff : ti.markNoop height txid = .ok (true, ti') ↔
    ti.Takes height (.noop txid) ∧ ti' = ti.recorded height (.noop txid) := by
  constructor
  · intro h
    obtain ⟨y, hy, h⟩ := Except.bind_eq_ok.1 h
    obtain ⟨htx, rfl⟩ := lmdbGet_eq_ok.1 hy
    split at h
    · cases h
    · rename_i hseen
      simp only [Except.bind_eq_ok, lmdbKey_eq_ok] at h
      obtain ⟨_, ⟨-, htxlen, rfl⟩, ti₂, hj, h⟩ := h
      obtain ⟨⟨hh, hs⟩, rfl⟩ := putJournal_eq_ok.1 hj
      cases h
      refine ⟨⟨⟨hh, htx, htxlen, ?_⟩, hs, Option.not_isSome_iff_eq_none.1 hseen, ?_⟩, rfl⟩
      · rintro _ ⟨⟩
      · rintro _ _ ⟨⟩
  · rintro ⟨⟨⟨hh, htx, htxlen, -⟩, hs, hseen, -⟩, rfl⟩
    simp only [TokenOp.txid] at htx htxlen hseen
    simp only [TokenIndex.markNoop, Except.ok_bind, lmdbGet_eq_ok.2 ⟨htx, hseen⟩,
      Option.isSome_none, Bool.false_eq_true, if_false, lmdbKey_eq_ok.2 ⟨htx, htxlen, rfl⟩]
    rw [putJournal_eq_ok.2 ⟨⟨hh, hs⟩, rfl⟩]
    rfl

namespace TokenCall
variable {c : TokenCall} {ti ti' : TokenIndex}

/-- A call records its operation exactly when the store takes it. -/
theorem run_true_iff : c.run ti = .ok (true, ti') ↔
    ∃ op, c.op = .ok op ∧ ti.Takes c.height op ∧ ti' = ti.recorded c.height op := by
  cases c with
  | registerIssue h token issuer txid supply =>
    rw [run, registerIssue_true_iff]
    simp only [op, Except.bind_eq_ok, Except.pure_eq_ok, Except.ok.injEq]
    constructor
    · rintro ⟨n, hn, h⟩
      exact ⟨_, ⟨n, hn, rfl⟩, h⟩
    · rintro ⟨_, ⟨n, hn, rfl⟩, h⟩
      exact ⟨n, hn, h⟩
  | applyTransfer h token sender recipient txid amount =>
    rw [run, applyTransfer_true_iff]
    simp only [op, Except.bind_eq_ok, Except.pure_eq_ok, Except.ok.injEq]
    constructor
    · rintro ⟨n, hn, h⟩
      exact ⟨_, ⟨n, hn, rfl⟩, h⟩
    · rintro ⟨_, ⟨n, hn, rfl⟩, h⟩
      exact ⟨n, hn, h⟩
  | markNoop h txid =>
    rw [run, markNoop_true_iff]
    constructor
    · exact fun h => ⟨_, rfl, h⟩
    · rintro ⟨_, ⟨⟩, h⟩
      exact h

theorem run_false (h : c.run ti = .ok (false, ti')) : ti' = ti := by
  cases c with
  | registerIssue =>
    obtain ⟨_, -, h⟩ := Except.bind_eq_ok.1 h
    obtain ⟨_, -, h⟩ := Except.bind_eq_ok.1 h
    split at h
    · cases h
      rfl
    · obtain ⟨_, -, h⟩ := Except.bind_eq_ok.1 h
      split at h
      · cases h
        rfl
      · simp only [Except.bind_eq_ok] at h
        obtain ⟨_, -, _, -, _, -, _, -, h⟩ := h
        cases h
  | applyTransfer =>
    obtain ⟨_, -, h⟩ := Except.bind_eq_ok.1 h
    obtain ⟨_, -, h⟩ := Except.bind_eq_ok.1 h
    split at h
    · cases h
      rfl
    · simp only [Except.bind_eq_ok] at h
      obtain ⟨_, -, _, -, _, -, h⟩ := h
      cases h
  | markNoop =>
    obtain ⟨_, -, h⟩ := Except.bind_eq_ok.1 h
    split at h
    · cases h
      rfl
    · simp only [Except.bind_eq_ok] at h
      obtain ⟨_, -, _, -, h⟩ := h
      cases h

theorem apply_of_takes {op : TokenOp} (hop : c.op = .ok op) (h : ti.Takes c.height op) :
    c.apply ti = ti.recorded c.height op := by
  rw [apply, run_true_iff.2 ⟨op, hop, h, rfl⟩]

theorem apply_of_not_takes (h : ∀ op, c.op = .ok op → ¬ti.Takes c.height op) : c.apply ti = ti := by
  rw [apply]
  split
  · rename_i b ti' hrun
    cases b with
    | false => exact run_false hrun
    | true =>
      obtain ⟨op, hop, htakes, -⟩ := run_true_iff.1 hrun
      exact absurd htakes (h op hop)
  · rfl

end TokenCall

/-! ## Recording and undoing -/

theorem Lists_putSome {t : OrdTable Bytes V} {l : List (Bytes × V)} {x : Option (Bytes × V)}
    (h : t.Lists l) (hx : ∀ k v, x = some (k, v) → t.get? k = none) :
    (putSome t x).Lists (x.toList ++ l) := by
  cases x with
  | none => exact h
  | some e => exact h.put e.2 (hx e.1 e.2 rfl)

theorem Counts_foldl_bump {l ks : List Bytes} (h : t.Counts l) :
    (ks.foldl (fun t k => t.bump k 1) t).Counts (ks ++ l) := by
  induction ks generalizing t l with
  | nil => exact h
  | cons k ks ih => exact (ih (h.bump_one k)).perm List.perm_middle

theorem Counts_foldl_bump_neg {l ks : List Bytes} (h : t.Counts (ks ++ l)) :
    (ks.foldl (fun t k => t.bump k (-1)) t).Counts l := by
  induction ks generalizing t with
  | nil => exact h
  | cons k ks ih => exact ih h.bump_neg_one

namespace Refines
variable {ti : TokenIndex} {live : List LiveOp} {e : LiveOp}

/-- The rows of the live operations end with their sequence numbers, so that a new one has keys of its own. -/
theorem get?_fresh (H : Refines ti live) (hh : height < 2 ^ 64) (hs : ti.seq + 1 < 2 ^ 64)
    {f : LiveOp → Option (Bytes × Int)} {t : OrdTable Bytes Int} (ht : t.Lists (live.filterMap f))
    (hf : ∀ e k v, f e = some (k, v) → ∃ pre, k = pre ++ hqBytes e.height e.seq) (pre : Bytes) :
    t.get? (pre ++ hqBytes height (ti.seq + 1)) = none := by
  rw [ht.get?_eq_none]
  rintro ⟨k, v⟩ hmem heq
  obtain ⟨e, he, hrow⟩ := List.mem_filterMap.1 hmem
  obtain ⟨pre', rfl⟩ := hf e k v hrow
  obtain ⟨-, htail⟩ := List.append_inj' heq (by simp)
  have hseq := H.seq_le e he
  have := (hqBytes_inj (H.fits e he).1 (by omega) hh hs htail).2
  omega

theorem record (H : Refines ti live) (h : ti.Takes height op) :
    Refines (ti.recorded height op) (⟨height, ti.seq + 1, op⟩ :: live) := by
  obtain ⟨hfit, hs, hseen, hreg⟩ := h
  have hh := hfit.1
  constructor
  · refine H.journal.put op (H.journal.get?_eq_none.2 ?_)
    rintro _ hmem
    obtain ⟨e, he, rfl⟩ := List.mem_map.1 hmem
    have := H.seq_le e he
    simp only [LiveOp.key]
    omega
  · rw [List.filterMap_cons_toList]
    refine Lists_putSome H.cred fun k v hx => ?_
    obtain ⟨pre, rfl⟩ := LiveOp.credit?_tail _ k v hx
    exact H.get?_fresh hh hs H.cred LiveOp.credit?_tail pre
  · rw [List.filterMap_cons_toList]
    refine Lists_putSome H.deb fun k v hx => ?_
    obtain ⟨pre, rfl⟩ := LiveOp.debit?_tail _ k v hx
    exact H.get?_fresh hh hs H.deb LiveOp.debit?_tail pre
  · exact H.seen.put () hseen
  · rw [List.filterMap_cons_toList]
    refine Lists_putSome H.tokreg fun k v hx => ?_
    cases op with
    | issue m txid =>
      cases hx
      exact hreg m txid rfl
    | transfer => cases hx
    | noop => cases hx
  · exact Counts_foldl_bump H.addrtok
  · exact Counts_foldl_bump H.tokset
  · exact List.forall_mem_cons.2 ⟨hfit, H.fits⟩
  · exact List.forall_mem_cons.2 ⟨le_rfl, fun e he => (H.seq_le e he).trans (Nat.le_succ _)⟩
  · exact hs

theorem dropMove_eq (ti : TokenIndex) {m : Movement} (hh : height < 2 ^ 64) (hs : seq < 2 ^ 64)
    (h : utf8 m.token ≠ [] ∧ (partyPrefix m.token m.recipient).length ≤ 495 ∧
      (partyPrefix m.token m.address).length ≤ 495) :
    ti.dropMove m height seq = .ok { ti with
      cred := ti.cred.erase (partyPrefix m.token m.recipient ++ hqBytes height seq)
      deb := ti.deb.erase (partyPrefix m.token m.address ++ hqBytes height seq)
      addrtok := [addrTokKey m.recipient m.token, addrTokKey m.address m.token].foldl
        (fun t k => t.bump k (-1)) ti.addrtok
      tokset := ti.tokset.bump (utf8 m.token) (-1) } := by
  obtain ⟨htok, h1, h2⟩ := h
  have hlen : (utf8 m.token).length ≤ 511 := by
    simp only [partyPrefix, List.length_append, List.length_cons] at h1
    omega
  have hlinks : ∀ a ∈ [m.recipient, m.address], (partyPrefix m.token a).length ≤ 495 := by
    simp [h1, h2]
  simp only [TokenIndex.dropMove, partyKey_eq_ok.2 ⟨hh, hs, rfl⟩, Except.ok_bind,
    incrAddrTok_eq hlinks, incrCount_eq_ok.2 ⟨htok, fun _ => hlen, rfl⟩]
  rfl

theorem undo (H : Refines ti (e :: live)) :
    ∃ ti', ti.undoToken e.key e.op = .ok ti' ∧ Refines ti' live ∧ ti'.seq = ti.seq := by
  obtain ⟨height, seq, op⟩ := e
  have hseq : seq ≤ ti.seq := H.seq_le _ List.mem_cons_self
  have hs : seq < 2 ^ 64 := lt_of_le_of_lt hseq H.seq_lt
  have hfit : op.Fits height := H.fits _ List.mem_cons_self
  have hheight : LiveOp.key ⟨height, seq, op⟩ / 2 ^ 64 = height := by
    simp only [LiveOp.key]
    omega
  have hmod : LiveOp.key ⟨height, seq, op⟩ % 2 ^ 64 = seq := by
    simp only [LiveOp.key]
    omega
  have hjournal := H.journal.erase
  have hseen := H.seen.erase
  have hfits : ∀ e ∈ live, e.op.Fits e.height := fun e he => H.fits e (by simp [he])
  have hle : ∀ e ∈ live, e.seq ≤ ti.seq := fun e he => H.seq_le e (by simp [he])
  cases op with
  | noop txid =>
    exact ⟨_, rfl, ⟨hjournal, H.cred, H.deb, hseen, H.tokreg, H.addrtok, H.tokset, hfits, hle, H.seq_lt⟩,
      rfl⟩
  | transfer m txid =>
    have hdrop := dropMove_eq ti hfit.1 hs (hfit.2.2.2 m rfl)
    rw [TokenIndex.undoToken, hheight, hmod]
    simp only [TokenOp.move?, hdrop, Except.ok_bind]
    exact ⟨_, rfl, ⟨hjournal, H.cred.erase, H.deb.erase, hseen, H.tokreg,
      Counts_foldl_bump_neg (H.addrtok.perm (.swap ..)), H.tokset.bump_neg_one, hfits, hle, H.seq_lt⟩, rfl⟩
  | issue m txid =>
    have hdrop := dropMove_eq ti hfit.1 hs (hfit.2.2.2 m rfl)
    rw [TokenIndex.undoToken, hheight, hmod]
    simp only [TokenOp.move?, hdrop, Except.ok_bind]
    exact ⟨_, rfl, ⟨hjournal, H.cred.erase, H.deb.erase, hseen, H.tokreg.erase,
      Counts_foldl_bump_neg H.addrtok, H.tokset.bump_neg_one, hfits, hle, H.seq_lt⟩, rfl⟩

theorem undoAll {es : List LiveOp} (H : Refines ti (es ++ live)) :
    ∃ ti', TokenIndex.undoTokens (es.map fun e => (e.key, e.op)) ti = .ok ti' ∧ Refines ti' live ∧
      ti'.seq = ti.seq := by
  induction es generalizing ti with
  | nil => exact ⟨ti, rfl, H, rfl⟩
  | cons e es ih =>
    obtain ⟨ti₁, h₁, H₁, hs₁⟩ := H.undo
    obtain ⟨ti₂, h₂, H₂, hs₂⟩ := ih H₁
    refine ⟨ti₂, ?_, H₂, hs₂.trans hs₁⟩
    rw [List.map_cons, TokenIndex.undoTokens, h₁]
    exact h₂

theorem rollback (H : Refines ti live) (hh : height < 2 ^ 64) :
    ∃ ti', ti.tokensRollback height = .ok ti' ∧ Refines ti' (live.filter (·.height < height)) ∧
      ti'.seq = ti.seq ∧ ti'.tokAnchor = height - 1 := by
  obtain ⟨live', hperm, hentries⟩ := List.Perm.exists_map_eq (f := fun e : LiveOp => (e.key, e.op)) H.journal
  have hkey : ∀ e ∈ live', (2 ^ 64 * height + 0 ≤ e.key ↔ ¬e.height < height) := by
    intro e he
    have hseq : e.seq < 2 ^ 64 := lt_of_le_of_lt (H.seq_le e (hperm.mem_iff.1 he)) H.seq_lt
    simp only [LiveOp.key]
    constructor <;> intro h <;> omega
  have hfilter : ti.journal.entries.filter (2 ^ 64 * height + 0 ≤ ·.1) =
      (live'.filter fun e => !decide (e.height < height)).map fun e => (e.key, e.op) := by
    rw [← hentries, List.filter_map]
    refine congrArg _ (List.filter_congr fun e he => ?_)
    simp only [Function.comp, ← decide_not, decide_eq_decide]
    exact hkey e he
  have hsplit : live.Perm ((live'.filter fun e => !decide (e.height < height)) ++
      live.filter (·.height < height)) :=
    (hperm.symm.trans (List.filter_append_perm (fun e => decide (e.height < height)) live').symm).trans
      (List.perm_append_comm.trans ((hperm.filter _).append_left _))
  obtain ⟨ti₁, hundo, H₁, hs₁⟩ := (H.perm hsplit).undoAll
  refine ⟨{ ti₁ with tokAnchor := height - 1 }, ?_, ⟨H₁.journal, H₁.cred, H₁.deb, H₁.seen, H₁.tokreg,
    H₁.addrtok, H₁.tokset, H₁.fits, H₁.seq_le, H₁.seq_lt⟩, hs₁, rfl⟩
  rw [TokenIndex.tokensRollback, journalKey_eq hh (by decide), Except.ok_bind, hfilter, hundo]
  rfl

end Refines

end Bismuth
