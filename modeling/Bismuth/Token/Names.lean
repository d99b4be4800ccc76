import Bismuth.Token.Plugin

/-!
# The aliases

What the alias part of the index is for: a map from a name to its owner and the height since which they have it.
The journal is the history of that map, newest entry last, and `aliases_rollback` goes back in it.
-/

namespace Bismuth
open Py

/-- Who has which name, and since when. -/
abbrev Names := Text → Option (Text × Nat)

namespace AliasOp

def name : AliasOp → Text
  | register name _ | transfer name _ _ _ | free name _ _ => name

def holder (height : Nat) : AliasOp → Option (Text × Nat)
  | register _ address | transfer _ address _ _ => some (address, height)
  | free _ _ _ => none

def prev : AliasOp → Option (Text × Nat)
  | register _ _ => none
  | transfer _ _ prev prevHeight | free _ prev prevHeight => some (prev, prevHeight)

theorem height_of_holder {op : AliasOp} (h : op.holder height = some (a, h')) : h' = height := by
  cases op with
  | register =>
    cases h
    rfl
  | transfer =>
    cases h
    rfl
  | free => cases h

end AliasOp

namespace AliasCall

def Fits : AliasCall → Prop
  | register height address name => height < 2 ^ 64 ∧ utf8 name ≠ [] ∧
    (utf8 address).length + (utf8 name).length ≤ 501
  | transfer height _ recipient name => height < 2 ^ 64 ∧ utf8 name ≠ [] ∧
    (utf8 recipient).length + (utf8 name).length ≤ 501
  | free height _ name => height < 2 ^ 64 ∧ utf8 name ≠ []

instance (c : AliasCall) : Decidable c.Fits := by
  cases c <;> unfold Fits <;> infer_instance

/-- The operation that the call is about when `prev` has the name. -/
def wants (prev : Option (Text × Nat)) : AliasCall → Option AliasOp
  | register _ address name => if prev = none then some (.register name address) else none
  | transfer _ sender recipient name =>
    (prev.filter (·.1 = sender)).map fun p => .transfer name recipient sender p.2
  | free _ sender name => (prev.filter (·.1 = sender)).map fun p => .free name sender p.2

/-- The operation that the call records when `m` says who has the names. -/
def op? (m : Names) (c : AliasCall) : Option AliasOp := if c.Fits then c.wants (m c.name) else none

end AliasCall

def Names.step (m : Names) (c : AliasCall) : Names :=
  match c.op? m with
  | some op => Function.update m c.name (op.holder c.height)
  | none => m

variable {c : AliasCall} {m : Names}

theorem Names.step_of_op (h : c.op? m = some op) : m.step c = Function.update m c.name (op.holder c.height) := by
  rw [step, h]

theorem Names.step_of_op_none (h : c.op? m = none) : m.step c = m := by
  rw [step, h]

theorem AliasCall.name_of_wants (h : c.wants prev = some op) : op.name = c.name ∧ op.prev = prev := by
  cases c with
  | register height address name =>
    rw [wants] at h
    split at h
    · rename_i hprev
      cases h
      exact ⟨rfl, hprev.symm⟩
    · cases h
  | transfer height sender recipient name =>
    obtain ⟨p, hp, rfl⟩ := Option.map_eq_some_iff.1 h
    obtain ⟨rfl, hs⟩ := Option.filter_eq_some_iff.1 hp
    exact ⟨rfl, by rw [← of_decide_eq_true hs]; rfl⟩
  | free height sender name =>
    obtain ⟨p, hp, rfl⟩ := Option.map_eq_some_iff.1 h
    obtain ⟨rfl, hs⟩ := Option.filter_eq_some_iff.1 hp
    exact ⟨rfl, by rw [← of_decide_eq_true hs]; rfl⟩

theorem AliasCall.Fits.of_wants (hfits : c.Fits) (h : c.wants prev = some op) :
    c.height < 2 ^ 64 ∧ utf8 op.name ≠ [] ∧
      ∀ a h, op.holder c.height = some (a, h) → (utf8 a).length + (utf8 op.name).length ≤ 501 := by
  cases c with
  | register height address name =>
    rw [wants] at h
    split at h
    · cases h
      refine ⟨hfits.1, hfits.2.1, ?_⟩
      rintro _ _ ⟨⟩
      exact hfits.2.2
    · cases h
  | transfer height sender recipient name =>
    obtain ⟨p, -, rfl⟩ := Option.map_eq_some_iff.1 h
    refine ⟨hfits.1, hfits.2.1, ?_⟩
    rintro _ _ ⟨⟩
    exact hfits.2.2
  | free height sender name =>
    obtain ⟨p, -, rfl⟩ := Option.map_eq_some_iff.1 h
    refine ⟨hfits.1, hfits.2, ?_⟩
    rintro _ _ ⟨⟩

theorem AliasCall.op?_eq_some : c.op? m = some op ↔ c.Fits ∧ c.wants (m c.name) = some op := by
  rw [op?]
  split
  · simp [*]
  · simp [*]

/-! ## The store -/

def revKey (name : Text) (v : Text × Nat) : Bytes := utf8 v.1 ++ 0 :: (beBytes 8 v.2 ++ 0 :: utf8 name)

/-- The reverse map after a name went from one holder to another. -/
def revMoved (rev : OrdTable Bytes Unit) (name : Text) (prev next : Option (Text × Nat)) :
    OrdTable Bytes Unit :=
  let rev := match prev with
    | some v => rev.erase (revKey name v)
    | none => rev
  match next with
  | some v => rev.put (revKey name v) ()
  | none => rev

/-- The store with one more alias operation, `rev` being its reverse map. -/
def TokenIndex.aliasRecorded (ti : TokenIndex) (height : Nat) (op : AliasOp) (rev : OrdTable Bytes Unit) :
    TokenIndex :=
  { ti with
    seq := ti.seq + 1
    aliasAnchor := max ti.aliasAnchor height
    aliasFwd := match op.holder height with
      | some v => ti.aliasFwd.put (utf8 op.name) v
      | none => ti.aliasFwd.erase (utf8 op.name)
    aliasRev := rev
    ajournal := ti.ajournal.put (2 ^ 64 * height + (ti.seq + 1)) op }

structure HoldsNames (ti : TokenIndex) (m : Names) : Prop where
  fwd : ∀ name, ti.aliasFwd.get? (utf8 name) = m name
  height : ∀ name owner h, m name = some (owner, h) → h < 2 ^ 64

theorem get?_aliasRecorded {ti : TokenIndex}
    (hfwd : ∀ name, ti.aliasFwd.get? (utf8 name) = m name) (height : Nat) (op : AliasOp)
    (rev : OrdTable Bytes Unit) (name : Text) :
    (ti.aliasRecorded height op rev).aliasFwd.get? (utf8 name) =
      Function.update m op.name (op.holder height) name := by
  rw [TokenIndex.aliasRecorded]
  by_cases heq : name = op.name
  · subst heq
    rw [Function.update_self]
    cases op.holder height with
    | none => exact (OrdTable.get?_erase _ _ _).trans (if_pos rfl)
    | some v => exact OrdTable.get?_put_self _ _ _
  · have hutf : ¬utf8 name = utf8 op.name := fun h => heq (utf8_injective h)
    rw [Function.update_of_ne heq, ← hfwd]
    cases op.holder height with
    | none => exact (OrdTable.get?_erase _ _ _).trans (if_neg hutf)
    | some v => exact (OrdTable.get?_put _ _ _ _).trans (if_neg hutf)

theorem bumpAliasAnchor_eq (ti : TokenIndex) (height : Nat) :
    ti.bumpAliasAnchor height = { ti with aliasAnchor := max ti.aliasAnchor height } := by
  rw [TokenIndex.bumpAliasAnchor]
  split
  · rw [max_eq_right (by omega)]
  · rw [max_eq_left (by omega)]

theorem putAliasJournal_eq (ti : TokenIndex) (op : AliasOp) (hh : height < 2 ^ 64) (hs : seq < 2 ^ 64) :
    ti.putAliasJournal height seq op = .ok { ti with
      ajournal := ti.ajournal.put (2 ^ 64 * height + seq) op
      aliasAnchor := max ti.aliasAnchor height } := by
  rw [TokenIndex.putAliasJournal, journalKey_eq hh hs, Except.ok_bind, bumpAliasAnchor_eq]
  rfl

theorem aliasRevKey_eq (address name : Text) (hh : height < 2 ^ 64) :
    aliasRevKey address height name = .ok (utf8 address ++ 0 :: (beBytes 8 height ++ 0 :: utf8 name)) := by
  rw [aliasRevKey, packBE, if_pos (by omega)]
  rfl

theorem lmdbKey_aliasRevKey {address name : Text} (height : Nat) :
    lmdbKey (utf8 address ++ 0 :: (beBytes 8 height ++ 0 :: utf8 name)) = .ok k ↔
      (utf8 address).length + (utf8 name).length ≤ 501 ∧
        utf8 address ++ 0 :: (beBytes 8 height ++ 0 :: utf8 name) = k := by
  rw [lmdbKey_eq_ok]
  simp only [List.length_append, List.length_cons, length_beBytes, ne_eq, List.append_eq_nil_iff,
    reduceCtorEq, and_false, not_false_eq_true, true_and, and_congr_left_iff]
  omega

namespace AliasCall
variable {ti : TokenIndex} {m : Names} {c : AliasCall}

theorem apply_of_op (H : HoldsNames ti m) (hs : ti.seq + 1 < 2 ^ 64) (h : c.op? m = some op) :
    c.apply ti = ti.aliasRecorded c.height op
      (revMoved ti.aliasRev op.name op.prev (op.holder c.height)) := by
  obtain ⟨hfits, hw⟩ := op?_eq_some.1 h
  cases c with
  | register height address name =>
    obtain ⟨hh, hname, hlen⟩ := hfits
    rw [wants] at hw
    split at hw
    · rename_i hm
      cases hw
      rw [AliasCall.name, ← H.fwd] at hm
      simp only [apply, run, TokenIndex.registerAlias, lmdbGet_eq_ok.2 ⟨hname, hm⟩, Except.ok_bind,
        Option.isSome_none, Bool.false_eq_true, if_false, aliasRevKey_eq address name hh,
        lmdbKey_eq_ok.2 ⟨hname, (by omega : (utf8 name).length ≤ 511), rfl⟩,
        (lmdbKey_aliasRevKey height).2 ⟨hlen, rfl⟩, putAliasJournal_eq _ _ hh hs]
      rfl
    · cases hw
  | transfer height sender recipient name =>
    obtain ⟨hh, hname, hlen⟩ := hfits
    obtain ⟨⟨owner, prevHeight⟩, hp, rfl⟩ := Option.map_eq_some_iff.1 hw
    obtain ⟨hm, ho⟩ := Option.filter_eq_some_iff.1 hp
    obtain rfl := of_decide_eq_true ho
    have hph := H.height _ _ _ hm
    rw [AliasCall.name, ← H.fwd] at hm
    simp only [apply, run, TokenIndex.transferAlias, lmdbGet_eq_ok.2 ⟨hname, hm⟩, Except.ok_bind,
      ne_eq, not_true_eq_false, if_false, aliasRevKey_eq _ name hh, aliasRevKey_eq _ name hph,
      lmdbKey_eq_ok.2 ⟨hname, (by omega : (utf8 name).length ≤ 511), rfl⟩,
      (lmdbKey_aliasRevKey height).2 ⟨hlen, rfl⟩, putAliasJournal_eq _ _ hh hs]
    rfl
  | free height sender name =>
    obtain ⟨hh, hname⟩ := hfits
    obtain ⟨⟨owner, prevHeight⟩, hp, rfl⟩ := Option.map_eq_some_iff.1 hw
    obtain ⟨hm, ho⟩ := Option.filter_eq_some_iff.1 hp
    obtain rfl := of_decide_eq_true ho
    have hph := H.height _ _ _ hm
    rw [AliasCall.name, ← H.fwd] at hm
    simp only [apply, run, TokenIndex.freeAlias, lmdbGet_eq_ok.2 ⟨hname, hm⟩, Except.ok_bind,
      ne_eq, not_true_eq_false, if_false, aliasRevKey_eq _ name hph, putAliasJournal_eq _ _ hh hs]
    rfl

theorem fits_of_putAliasJournal {ti' : TokenIndex} {height : Nat} (h : ti.putAliasJournal height seq op = .ok ti') :
    height < 2 ^ 64 ∧ seq < 2 ^ 64 := by
  obtain ⟨_, hk, -⟩ := Except.bind_eq_ok.1 h
  obtain ⟨hh, hs, -⟩ := journalKey_eq_ok.1 hk
  exact ⟨hh, hs⟩

/-- A call that returns records its operation, or is refused and only moves the anchor. -/
theorem run_ok {ti' : TokenIndex} (H : HoldsNames ti m) (h : c.run ti = .ok (b, ti')) :
    match b with
    | true => ti.seq + 1 < 2 ^ 64 ∧ ∃ op, c.op? m = some op
    | false => ti' = ti.bumpAliasAnchor c.height := by
  cases c with
  | register height address name =>
    obtain ⟨_, hget, h⟩ := Except.bind_eq_ok.1 h
    obtain ⟨hname, rfl⟩ := lmdbGet_eq_ok.1 hget
    split at h
    · cases h
      rfl
    · rename_i hfree
      simp only [Except.bind_eq_ok] at h
      obtain ⟨_, -, key, hkey, _, hlen, _, hj, h⟩ := h
      cases h
      obtain ⟨hh, hs⟩ := fits_of_putAliasJournal hj
      rw [aliasRevKey_eq _ _ hh] at hkey
      cases hkey
      refine ⟨hs, _, op?_eq_some.2 ⟨⟨hh, hname, ((lmdbKey_aliasRevKey height).1 hlen).1⟩, if_pos ?_⟩⟩
      rw [AliasCall.name, ← H.fwd]
      simpa using hfree
  | transfer height sender recipient name =>
    obtain ⟨_, hget, h⟩ := Except.bind_eq_ok.1 h
    obtain ⟨hname, rfl⟩ := lmdbGet_eq_ok.1 hget
    split at h
    · rename_i owner prevHeight hheld
      split at h
      · cases h
        rfl
      · rename_i howner
        simp only [Except.bind_eq_ok] at h
        obtain ⟨_, -, _, -, key, hkey, _, hlen, _, hj, h⟩ := h
        cases h
        obtain ⟨hh, hs⟩ := fits_of_putAliasJournal hj
        rw [aliasRevKey_eq _ _ hh] at hkey
        cases hkey
        refine ⟨hs, .transfer name recipient sender prevHeight,
          op?_eq_some.2 ⟨⟨hh, hname, ((lmdbKey_aliasRevKey height).1 hlen).1⟩, ?_⟩⟩
        rw [wants, AliasCall.name, ← H.fwd, hheld, Option.filter_some, if_pos (by simpa using howner)]
        rfl
    · cases h
      rfl
  | free height sender name =>
    obtain ⟨_, hget, h⟩ := Except.bind_eq_ok.1 h
    obtain ⟨hname, rfl⟩ := lmdbGet_eq_ok.1 hget
    split at h
    · rename_i owner prevHeight hheld
      split at h
      · cases h
        rfl
      · rename_i howner
        simp only [Except.bind_eq_ok] at h
        obtain ⟨_, -, _, hj, h⟩ := h
        cases h
        obtain ⟨hh, hs⟩ := fits_of_putAliasJournal hj
        refine ⟨hs, .free name sender prevHeight, op?_eq_some.2 ⟨⟨hh, hname⟩, ?_⟩⟩
        rw [wants, AliasCall.name, ← H.fwd, hheld, Option.filter_some, if_pos (by simpa using howner)]
        rfl
    · cases h
      rfl

/-- A call that has nothing to record, or no number left for it, only moves the anchor. -/
theorem apply_of_refused (H : HoldsNames ti m) (h : ti.seq + 1 < 2 ^ 64 → c.op? m = none) :
    ∃ anchor, ti.aliasAnchor ≤ anchor ∧ anchor ≤ max ti.aliasAnchor c.height ∧
      c.apply ti = { ti with aliasAnchor := anchor } := by
  rw [apply]
  split
  · rename_i b ti' hrun
    have hok := run_ok H hrun
    cases b with
    | true =>
      obtain ⟨hs, op, hop⟩ := hok
      rw [h hs] at hop
      cases hop
    | false =>
      rw [hok, bumpAliasAnchor_eq]
      exact ⟨_, le_max_left _ _, le_rfl, rfl⟩
  · exact ⟨_, le_rfl, le_max_left _ _, rfl⟩

theorem apply_of_op_none (H : HoldsNames ti m) (h : c.op? m = none) :
    ∃ anchor, ti.aliasAnchor ≤ anchor ∧ anchor ≤ max ti.aliasAnchor c.height ∧
      c.apply ti = { ti with aliasAnchor := anchor } := apply_of_refused H fun _ => h

end AliasCall

/-! ## The history -/

structure AliasEntry where
  height : Nat
  seq : Nat
  op : AliasOp

def AliasEntry.key (e : AliasEntry) : Nat := 2 ^ 64 * e.height + e.seq

/-- The reverse map after operations were undone, the newest first. -/
def revUndone (rev : OrdTable Bytes Unit) (es : List AliasEntry) : OrdTable Bytes Unit :=
  es.foldl (fun rev e => revMoved rev e.op.name (e.op.holder e.height) e.op.prev) rev

def Names.of : List AliasEntry → Names
  | [] => fun _ => none
  | e :: log => Function.update (of log) e.op.name (e.op.holder e.height)

/-- Every entry of a history tells who had the name before, and its keys fit. -/
def AliasEntry.Valid : List AliasEntry → Prop
  | [] => True
  | e :: log => e.op.prev = Names.of log e.op.name ∧ e.height < 2 ^ 64 ∧ utf8 e.op.name ≠ [] ∧
    (∀ a h, e.op.holder e.height = some (a, h) → (utf8 a).length + (utf8 e.op.name).length ≤ 501) ∧
    Valid log

structure Recounts (ti : TokenIndex) (log : List AliasEntry) : Prop where
  journal : ti.ajournal.entries.reverse = log.map fun e => (e.key, e.op)
  fwd : ∀ name, ti.aliasFwd.get? (utf8 name) = Names.of log name
  valid : AliasEntry.Valid log
  seq_le : ∀ e ∈ log, e.seq ≤ ti.seq
  seq_lt : ti.seq < 2 ^ 64

theorem Names.exists_of_of {log : List AliasEntry} (h : Names.of log name = some v) :
    ∃ e ∈ log, e.op.holder e.height = some v := by
  induction log with
  | nil => cases h
  | cons e log ih =>
    rw [Names.of] at h
    by_cases heq : name = e.op.name
    · subst heq
      rw [Function.update_self] at h
      exact ⟨e, List.mem_cons_self, h⟩
    · rw [Function.update_of_ne heq] at h
      obtain ⟨e', he', hh⟩ := ih h
      exact ⟨e', List.mem_cons_of_mem _ he', hh⟩

theorem Names.of_fits {log : List AliasEntry} (h : AliasEntry.Valid log)
    (hm : Names.of log name = some (a, height)) :
    height < 2 ^ 64 ∧ utf8 name ≠ [] ∧ (utf8 a).length + (utf8 name).length ≤ 501 := by
  induction log with
  | nil => cases hm
  | cons e log ih =>
    obtain ⟨-, hh, hname, hlen, hlog⟩ := h
    rw [of] at hm
    by_cases heq : name = e.op.name
    · subst heq
      rw [Function.update_self] at hm
      obtain rfl := AliasOp.height_of_holder hm
      exact ⟨hh, hname, hlen a _ hm⟩
    · rw [Function.update_of_ne heq] at hm
      exact ih hlog hm

namespace Recounts
variable {ti : TokenIndex} {log : List AliasEntry}

theorem empty : Recounts {} [] where
  journal := rfl
  fwd _ := rfl
  valid := trivial
  seq_le := by simp
  seq_lt := by decide

theorem holdsNames (H : Recounts ti log) : HoldsNames ti (Names.of log) where
  fwd := H.fwd
  height _ _ _ h := (Names.of_fits H.valid h).1

theorem congr {ti' : TokenIndex} (H : Recounts ti log) (hj : ti'.ajournal = ti.ajournal)
    (hf : ti'.aliasFwd = ti.aliasFwd) (hs : ti.seq ≤ ti'.seq) (hlt : ti'.seq < 2 ^ 64) :
    Recounts ti' log where
  journal := hj ▸ H.journal
  fwd := hf ▸ H.fwd
  valid := H.valid
  seq_le e he := (H.seq_le e he).trans hs
  seq_lt := hlt

/-- A new operation at a height that is not below the others goes to the end of the journal. -/
theorem record {c : AliasCall} (H : Recounts ti log) (hs : ti.seq + 1 < 2 ^ 64)
    (hop : c.op? (Names.of log) = some op) (hheight : ∀ e ∈ log, e.height ≤ c.height)
    (rev : OrdTable Bytes Unit) :
    Recounts (ti.aliasRecorded c.height op rev) (⟨c.height, ti.seq + 1, op⟩ :: log) := by
  obtain ⟨hfits, hw⟩ := AliasCall.op?_eq_some.1 hop
  obtain ⟨hname, hprev⟩ := AliasCall.name_of_wants hw
  obtain ⟨hh, hne, hlen⟩ := hfits.of_wants hw
  constructor
  · have hlast : ∀ e ∈ ti.ajournal.entries, e.1 < 2 ^ 64 * c.height + (ti.seq + 1) := by
      intro e he
      rw [← List.mem_reverse, H.journal] at he
      obtain ⟨e', he', rfl⟩ := List.mem_map.1 he
      have h1 := H.seq_le e' he'
      have h2 := hheight e' he'
      simp only [AliasEntry.key]
      omega
    rw [TokenIndex.aliasRecorded, OrdTable.entries_put_of_lt op hlast, List.reverse_append, H.journal]
    rfl
  · exact get?_aliasRecorded H.fwd c.height op rev
  · exact ⟨by rw [hprev, hname], hh, hne, hlen, H.valid⟩
  · exact List.forall_mem_cons.2 ⟨le_rfl, fun e he => (H.seq_le e he).trans (Nat.le_succ _)⟩
  · exact hs

theorem undo {e : AliasEntry} (H : Recounts ti (e :: log)) :
    ∃ ti', ti.undoAlias e.key e.op = .ok ti' ∧ Recounts ti' log ∧
      ti' = { ti with
        aliasFwd := ti'.aliasFwd, aliasRev := revMoved ti.aliasRev e.op.name (e.op.holder e.height) e.op.prev
        ajournal := ti'.ajournal } := by
  obtain ⟨height, seq, op⟩ := e
  obtain ⟨hprev, hh, hname, hlen, hvalid⟩ := H.valid
  have hseq : seq < 2 ^ 64 := lt_of_le_of_lt (H.seq_le _ List.mem_cons_self) H.seq_lt
  have hkey : AliasEntry.key ⟨height, seq, op⟩ / 2 ^ 64 = height := by
    simp only [AliasEntry.key]
    omega
  have hjournal : (ti.ajournal.erase (AliasEntry.key ⟨height, seq, op⟩)).entries.reverse =
      log.map fun e => (e.key, e.op) := by
    have hsorted := List.pairwise_reverse.2 ti.ajournal.sorted
    have hj := H.journal
    rw [hj, List.map_cons, List.pairwise_cons] at hsorted
    rw [OrdTable.entries_erase, ← List.filter_reverse, hj, List.map_cons, List.filter_cons_of_neg (by simp)]
    refine List.filter_eq_self.2 fun e he => ?_
    simpa using (hsorted.1 e he).ne
  have hle : ∀ e ∈ log, e.seq ≤ ti.seq := fun e he => H.seq_le e (by simp [he])
  have hfwd : ∀ name, name ≠ op.name → ti.aliasFwd.get? (utf8 name) = Names.of log name := by
    intro name hne
    rw [H.fwd, Names.of, Function.update_of_ne hne]
  have hrestored : ∀ v, op.prev = some v → ∀ name,
      (ti.aliasFwd.put (utf8 op.name) v).get? (utf8 name) = Names.of log name := by
    intro v hv name
    simp only [OrdTable.get?_put, utf8_injective.eq_iff]
    split
    · rename_i heq
      rw [heq, ← hprev, hv]
    · rename_i hne
      exact hfwd name hne
  cases op with
  | register name address =>
    have hname : utf8 name ≠ [] := hname
    have hheld : ti.aliasFwd.get? (utf8 name) = some (address, height) := by
      rw [H.fwd, Names.of]
      exact Function.update_self ..
    rw [TokenIndex.undoAlias, hkey]
    simp only [lmdbGet_eq_ok.2 ⟨hname, hheld⟩, Except.ok_bind, aliasRevKey_eq _ _ hh]
    refine ⟨_, rfl, ?_, rfl⟩
    refine ⟨hjournal, fun name' => ?_, hvalid, hle, H.seq_lt⟩
    simp only [Option.any_some, decide_true, if_true, OrdTable.get?_erase, utf8_injective.eq_iff]
    split
    · rename_i heq
      rw [heq]
      exact hprev
    · rename_i hne
      exact hfwd name' hne
  | transfer name address prev prevHeight =>
    have hname : utf8 name ≠ [] := hname
    obtain ⟨hph, -, hplen⟩ := Names.of_fits hvalid hprev.symm
    simp only [AliasOp.name] at hplen
    rw [TokenIndex.undoAlias, hkey]
    simp only [aliasRevKey_eq _ _ hh, Except.ok_bind, TokenIndex.restoreAlias,
      lmdbKey_eq_ok.2 ⟨hname, (by omega : (utf8 name).length ≤ 511), rfl⟩, aliasRevKey_eq _ _ hph,
      (lmdbKey_aliasRevKey prevHeight).2 ⟨hplen, rfl⟩]
    refine ⟨_, rfl, ?_, rfl⟩
    exact ⟨hjournal, hrestored _ rfl, hvalid, hle, H.seq_lt⟩
  | free name prev prevHeight =>
    have hname : utf8 name ≠ [] := hname
    obtain ⟨hph, -, hplen⟩ := Names.of_fits hvalid hprev.symm
    simp only [AliasOp.name] at hplen
    rw [TokenIndex.undoAlias]
    simp only [Except.ok_bind, TokenIndex.restoreAlias,
      lmdbKey_eq_ok.2 ⟨hname, (by omega : (utf8 name).length ≤ 511), rfl⟩, aliasRevKey_eq _ _ hph,
      (lmdbKey_aliasRevKey prevHeight).2 ⟨hplen, rfl⟩]
    refine ⟨_, rfl, ?_, rfl⟩
    exact ⟨hjournal, hrestored _ rfl, hvalid, hle, H.seq_lt⟩

theorem pairwise (H : Recounts ti log) : log.Pairwise fun e e' => e'.height ≤ e.height := by
  have hsorted := List.pairwise_reverse.2 ti.ajournal.sorted
  rw [H.journal, List.pairwise_map] at hsorted
  refine hsorted.imp_of_mem fun {e e'} he _ hkey => ?_
  have hseq : e.seq < 2 ^ 64 := (H.seq_le e he).trans_lt H.seq_lt
  simp only [AliasEntry.key] at hkey
  omega

theorem height_le {e : AliasEntry} (H : Recounts ti (e :: log)) : ∀ e' ∈ log, e'.height ≤ e.height :=
  (List.pairwise_cons.1 H.pairwise).1

theorem undoAll (H : Recounts ti log) (height : Nat) :
    ∃ ti', TokenIndex.undoAliases ((log.filter fun e => height ≤ e.height).map fun e => (e.key, e.op)) ti =
        .ok ti' ∧ Recounts ti' (log.filter fun e => e.height < height) ∧
      ti' = { ti with
        aliasFwd := ti'.aliasFwd, aliasRev := revUndone ti.aliasRev (log.filter fun e => height ≤ e.height)
        ajournal := ti'.ajournal } := by
  induction log generalizing ti with
  | nil => exact ⟨ti, rfl, H, rfl⟩
  | cons e log ih =>
    by_cases he : height ≤ e.height
    · obtain ⟨ti₁, h₁, H₁, hframe₁⟩ := H.undo
      obtain ⟨ti₂, h₂, H₂, hframe₂⟩ := ih H₁
      rw [List.filter_cons_of_pos (by simpa using he), List.filter_cons_of_neg (by simpa using he),
        List.map_cons, TokenIndex.undoAliases, h₁]
      refine ⟨ti₂, h₂, H₂, ?_⟩
      rw [hframe₂, hframe₁]
      rfl
    · have hlow : ∀ e' ∈ e :: log, e'.height < height := by
        intro e' he'
        rcases List.mem_cons.1 he' with rfl | he'
        · omega
        · have := H.height_le e' he'
          omega
      rw [List.filter_eq_nil_iff.2 fun e' he' => by simpa using hlow e' he',
        List.filter_eq_self.2 fun e' he' => by simpa using hlow e' he']
      exact ⟨ti, rfl, H, rfl⟩

theorem rollback (H : Recounts ti log) (hh : height < 2 ^ 64) :
    ∃ ti', ti.aliasesRollback height = .ok ti' ∧ Recounts ti' (log.filter fun e => e.height < height) ∧
      ti' = { ti with
        aliasAnchor := height - 1, aliasFwd := ti'.aliasFwd
        aliasRev := revUndone ti.aliasRev (log.filter fun e => height ≤ e.height)
        ajournal := ti'.ajournal } := by
  have hfilter : (ti.ajournal.entries.filter (2 ^ 64 * height + 0 ≤ ·.1)).reverse =
      (log.filter fun e => height ≤ e.height).map fun e => (e.key, e.op) := by
    rw [← List.filter_reverse, H.journal, List.filter_map]
    congr 1
    refine List.filter_congr fun e he => ?_
    have hseq : e.seq < 2 ^ 64 := lt_of_le_of_lt (H.seq_le e he) H.seq_lt
    refine decide_eq_decide.2 ?_
    show 2 ^ 64 * height + 0 ≤ 2 ^ 64 * e.height + e.seq ↔ height ≤ e.height
    omega
  obtain ⟨ti', hundo, H', hframe⟩ := H.undoAll height
  rw [TokenIndex.aliasesRollback, journalKey_eq hh (by decide), Except.ok_bind, hfilter, hundo]
  refine ⟨_, rfl, H'.congr rfl rfl le_rfl H'.seq_lt, ?_⟩
  rw [hframe]

end Recounts

end Bismuth
