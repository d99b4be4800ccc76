import Bismuth.Token.Stored

/-!
# Restarts

A restart runs `backfill` on a store that already holds what it finds, from the anchors on. The acts about tokens
are dedups of themselves: their transaction or their token is known. An act about a name is refused the second time
if nothing about the name came after it in its block.
-/

namespace Bismuth
open Py

/-! ## Tokens -/

def TransferAct.op (t : TransferAct) : TokenOp :=
  .transfer ⟨t.token, t.recipient, t.sender, t.amount⟩ t.txid

theorem TransferAct.height_call (t : TransferAct) (balance : Int) : (t.call balance).height = t.height := by
  rw [call]
  split
  · rfl
  · rfl

namespace TokenLedger
variable {l l' : TokenLedger}

/-- Nothing is left to do for the act: the ledger knows its transaction or its token since its height, or its keys
do not fit. -/
def Settled (l : TokenLedger) : Act → Prop
  | .issue height token issuer txid supply => ∀ op,
    (TokenCall.registerIssue height token issuer txid supply).op = .ok op → op.Fits height →
      ∃ e ∈ l, e.1 ≤ height ∧ (e.2.txid = txid ∨ e.2.issued? = some token)
  | .transfer t => t.op.Fits t.height → ∃ e ∈ l, e.1 ≤ t.height ∧ e.2.txid = t.txid
  | .name _ => True

theorem Settled.mono (hl : l ⊆ l') (h : l.Settled a) : l'.Settled a := by
  cases a with
  | issue height token issuer txid supply =>
    intro op hop hfits
    obtain ⟨e, he, h⟩ := h op hop hfits
    exact ⟨e, hl he, h⟩
  | transfer t =>
    intro hfits
    obtain ⟨e, he, h⟩ := h hfits
    exact ⟨e, hl he, h⟩
  | name => trivial

theorem Settled.filter (h : l.Settled a) (hh : a.height < height) :
    Settled (l.filter (·.1 < height)) a := by
  cases a with
  | issue h' token issuer txid supply =>
    intro op hop hfits
    obtain ⟨e, he, hle, h⟩ := h op hop hfits
    exact ⟨e, List.mem_filter.2 ⟨he, by simpa using lt_of_le_of_lt hle hh⟩, hle, h⟩
  | transfer t =>
    intro hfits
    obtain ⟨e, he, hle, h⟩ := h hfits
    exact ⟨e, List.mem_filter.2 ⟨he, by simpa using lt_of_le_of_lt hle hh⟩, hle, h⟩
  | name => trivial

theorem subset_step (l : TokenLedger) (c : TokenCall) : l ⊆ l.step c := by
  rw [step]
  split
  · split
    · exact List.subset_cons_self _ _
    · exact List.Subset.refl _
  · exact List.Subset.refl _

/-- A call whose keys fit is recorded, or what it would record is known. -/
theorem exists_of_step {c : TokenCall} (hop : c.op = .ok op) (hfits : op.Fits c.height)
    (hl : ∀ e ∈ l, e.1 ≤ c.height) : ∃ e ∈ l.step c, e.1 ≤ c.height ∧
      (e.2.txid = op.txid ∨ ∃ token ∈ op.issued?, e.2.issued? = some token) := by
  rw [step, hop]
  simp only
  by_cases htakes : l.Takes c.height op
  · rw [if_pos htakes]
    exact ⟨_, List.mem_cons_self, le_rfl, .inl rfl⟩
  · rw [if_neg htakes]
    rw [Takes, not_and] at htakes
    have hknown := htakes hfits
    by_cases hsees : l.sees op.txid = false
    · have hknows : ¬∀ token ∈ op.issued?, l.knows token = false := fun h => hknown ⟨hsees, h⟩
      push Not at hknows
      obtain ⟨token, ht, hk⟩ := hknows
      obtain ⟨e, he, hi⟩ := List.any_eq_true.1 (Bool.eq_true_of_not_eq_false hk)
      exact ⟨e, he, hl e he, .inr ⟨token, ht, of_decide_eq_true hi⟩⟩
    · obtain ⟨e, he, hi⟩ := List.any_eq_true.1 (Bool.eq_true_of_not_eq_false hsees)
      exact ⟨e, he, hl e he, .inl (of_decide_eq_true hi)⟩

theorem settled_issue (hl : ∀ e ∈ l, e.1 ≤ height) :
    Settled (l.step (.registerIssue height token issuer txid supply)) (.issue height token issuer txid supply) := by
  intro op hop hfits
  obtain ⟨e, he, hle, h⟩ := exists_of_step hop hfits hl
  obtain ⟨n, -, hn⟩ := Except.bind_eq_ok.1 hop
  cases hn
  refine ⟨e, he, hle, h.imp id ?_⟩
  rintro ⟨_, ⟨⟩, h⟩
  exact h

theorem settled_transfer {t : TransferAct} (hl : ∀ e ∈ l, e.1 ≤ t.height) (balance : Int) :
    Settled (l.step (t.call balance)) (.transfer t) := by
  intro hfits
  have hheight := t.height_call balance
  obtain ⟨op, hop, hop', hissued⟩ : ∃ op, (t.call balance).op = .ok op ∧ op.Fits t.height ∧
      op.issued? = none := by
    rw [TransferAct.call]
    split
    · exact ⟨_, rfl, hfits, rfl⟩
    · exact ⟨.noop t.txid, rfl, ⟨hfits.1, hfits.2.1, hfits.2.2.1, by rintro _ ⟨⟩⟩, rfl⟩
  obtain ⟨e, he, hle, h⟩ := exists_of_step hop (hheight ▸ hop') (hheight ▸ hl)
  refine ⟨e, he, hheight ▸ hle, ?_⟩
  rcases h with h | ⟨_, h, -⟩
  · rw [h, TransferAct.txid_of_call hop]
  · rw [hissued] at h
    cases h

end TokenLedger

/-- The tables that balances, registrations and owners are read from are the same. -/
structure Quiet (ti ti' : TokenIndex) : Prop where
  cred : ti'.cred = ti.cred
  deb : ti'.deb = ti.deb
  tokreg : ti'.tokreg = ti.tokreg
  aliasFwd : ti'.aliasFwd = ti.aliasFwd

namespace Quiet
variable {ti ti' ti'' : TokenIndex}

theorem refl (ti : TokenIndex) : Quiet ti ti := ⟨rfl, rfl, rfl, rfl⟩

theorem trans (h : Quiet ti ti') (h' : Quiet ti' ti'') : Quiet ti ti'' :=
  ⟨h'.cred.trans h.cred, h'.deb.trans h.deb, h'.tokreg.trans h.tokreg, h'.aliasFwd.trans h.aliasFwd⟩

end Quiet

namespace Follows
variable {ti : TokenIndex} {l : TokenLedger}

/-- A second call for something that is settled changes no balance and no registration. -/
theorem quiet_call {c : TokenCall} (H : Follows ti l) (hs : ti.seq + 1 < 2 ^ 64)
    (h : ∀ op, c.op = .ok op → l.Takes c.height op → op.move? = none) : Quiet ti (c.apply ti) := by
  obtain ⟨live, H, hl⟩ := H
  by_cases htakes : ∃ op, c.op = .ok op ∧ ti.Takes c.height op
  · obtain ⟨op, hop, htakes⟩ := htakes
    have hnone := h op hop ((TokenLedger.takes_perm hl).1 ((H.takes_iff hs).1 htakes))
    rw [c.apply_of_takes hop htakes]
    cases op with
    | noop => exact ⟨rfl, rfl, rfl, rfl⟩
    | issue => cases hnone
    | transfer => cases hnone
  · push Not at htakes
    rw [c.apply_of_not_takes htakes]
    exact .refl ti

end Follows

/-! ## Names -/

def Anchored (cs : List AliasCall) (anchor : Nat) : Prop :=
  ∀ pre c post, cs = pre ++ c :: post →
    (c.op? (pre.foldl Names.step fun _ => none)).isSome → c.height ≤ anchor

namespace AliasCall
variable {c : AliasCall} {m : Names}

def Moves : AliasCall → Prop
  | transfer _ sender recipient _ => recipient ≠ sender
  | _ => True

theorem op?_of_holder (hc : c.Moves) (h : c.op? m = some op) (hm : m' c.name = op.holder c.height) :
    c.op? m' = none := by
  obtain ⟨hfits, hw⟩ := op?_eq_some.1 h
  rw [op?, if_pos hfits, hm]
  cases c with
  | register height address name =>
    rw [wants] at hw
    split at hw
    · cases hw
      rfl
    · cases hw
  | transfer height sender recipient name =>
    obtain ⟨p, -, rfl⟩ := Option.map_eq_some_iff.1 hw
    have hne : recipient ≠ sender := hc
    simp [wants, AliasOp.holder, Option.filter, hne]
  | free height sender name =>
    obtain ⟨p, -, rfl⟩ := Option.map_eq_some_iff.1 hw
    rfl

theorem op?_congr {m' : Names} (h : m c.name = m' c.name) : c.op? m = c.op? m' := by
  rw [op?, op?, h]

end AliasCall

namespace Names

theorem step_of_ne {c : AliasCall} (m : Names) (h : name ≠ c.name) : m.step c name = m name := by
  rw [step_eq_update, Function.update_of_ne h]

theorem foldl_step_of_refused {cs : List AliasCall} (m : Names)
    (hquiet : ∀ pre c post, cs = pre ++ c :: post → c.name = name → c.op? (pre.foldl step m) = none) :
    cs.foldl step m name = m name := by
  induction cs generalizing m with
  | nil => rfl
  | cons c cs ih =>
    have hstep : m.step c name = m name := by
      by_cases hn : c.name = name
      · have hnone : c.op? m = none := hquiet [] c cs rfl hn
        rw [step_of_op_none hnone]
      · exact step_of_ne m (Ne.symm hn)
    rw [List.foldl_cons, ih (m.step c), hstep]
    intro pre c' post hcs hn
    exact hquiet (c :: pre) c' post (by rw [hcs]; rfl) hn

end Names

variable {cs : List AliasCall}

/-- A call from the anchor on is refused the second time, when its block has no other call about the name. -/
theorem Anchored.refused {c : AliasCall} (H : Anchored cs anchor) (hsorted : cs.Pairwise (·.height ≤ ·.height))
    (hone : cs.Pairwise fun c c' => c.height = c'.height → c.name ≠ c'.name) (hc : c ∈ cs)
    (hmoves : c.Moves) (hh : anchor ≤ c.height) : c.op? (cs.foldl Names.step fun _ => none) = none := by
  obtain ⟨pre, post, rfl⟩ := List.append_of_mem hc
  -- what came after it about its name was refused
  have hlast : (pre ++ c :: post).foldl Names.step (fun _ => none) c.name =
      (pre.foldl Names.step fun _ => none).step c c.name := by
    rw [List.foldl_append, List.foldl_cons]
    apply Names.foldl_step_of_refused
    rintro pre' c' post' rfl hname
    have hpre : pre'.foldl Names.step ((pre.foldl Names.step fun _ => none).step c) =
        (pre ++ c :: pre').foldl Names.step fun _ => none := by
      rw [List.foldl_append, List.foldl_cons]
    rw [hpre]
    cases hop : c'.op? ((pre ++ c :: pre').foldl Names.step fun _ => none) with
    | none => rfl
    | some op =>
      have hmem : c' ∈ pre' ++ c' :: post' := by simp
      have hle : c'.height ≤ anchor := H (pre ++ c :: pre') c' post' (by simp) (by rw [hop]; rfl)
      have hge : c.height ≤ c'.height :=
        (List.pairwise_cons.1 (List.pairwise_append.1 hsorted).2.1).1 c' hmem
      have hne := (List.pairwise_cons.1 (List.pairwise_append.1 hone).2.1).1 c' hmem (by omega)
      exact absurd hname.symm hne
  cases hop : c.op? (pre.foldl Names.step fun _ => none) with
  | none =>
    rw [Names.step_of_op_none hop] at hlast
    rw [AliasCall.op?_congr hlast, hop]
  | some op =>
    rw [Names.step_of_op hop, Function.update_self] at hlast
    exact AliasCall.op?_of_holder hmoves hop hlast

theorem Anchored.mono (H : Anchored cs anchor) (h : anchor ≤ anchor') : Anchored cs anchor' :=
  fun pre c post hcs hop => (H pre c post hcs hop).trans h

theorem Anchored.of_le (h : ∀ c ∈ cs, c.height ≤ anchor) : Anchored cs anchor := by
  rintro pre c post rfl -
  exact h c (by simp)

theorem Anchored.snoc {c : AliasCall} (H : Anchored cs anchor)
    (h : (c.op? (cs.foldl Names.step fun _ => none)).isSome → c.height ≤ anchor) :
    Anchored (cs ++ [c]) anchor := by
  intro pre c' post hcs hop
  rcases List.eq_nil_or_concat post with rfl | ⟨post, c'', rfl⟩
  · obtain ⟨rfl, hc⟩ := List.append_inj' hcs rfl
    cases hc
    exact h hop
  · rw [List.concat_eq_append, ← List.cons_append, ← List.append_assoc] at hcs
    exact H pre c' post (List.append_inj' hcs rfl).1 hop

structure Retells (log : List AliasEntry) (cs : List AliasCall) : Prop where
  all : Names.of log = cs.foldl Names.step fun _ => none
  below : ∀ height, Names.of (log.filter (·.height < height)) =
    (cs.filter (·.height < height)).foldl Names.step fun _ => none

namespace Retells
variable {log : List AliasEntry} {cs : List AliasCall} {c : AliasCall}

theorem nil : Retells [] [] := ⟨rfl, fun _ => rfl⟩

theorem snoc {log' : List AliasEntry} (H : Retells log cs)
    (hall : Names.of log' = (Names.of log).step c) (hcs : ∀ c' ∈ cs, c'.height ≤ c.height)
    (hlog : ∀ e ∈ log', e.height ≤ c.height)
    (hbelow : ∀ height ≤ c.height, log'.filter (·.height < height) = log.filter (·.height < height)) :
    Retells log' (cs ++ [c]) := by
  have hfold : Names.of log' = (cs ++ [c]).foldl Names.step fun _ => none := by
    rw [List.foldl_append, ← H.all, hall]
    rfl
  refine ⟨hfold, fun height => ?_⟩
  rw [List.filter_append]
  by_cases hh : c.height < height
  · have hkeep : cs.filter (·.height < height) = cs :=
      List.filter_eq_self.2 fun c' hc' => decide_eq_true (lt_of_le_of_lt (hcs c' hc') hh)
    have hkeep' : log'.filter (·.height < height) = log' :=
      List.filter_eq_self.2 fun e he => decide_eq_true (lt_of_le_of_lt (hlog e he) hh)
    rw [hkeep, hkeep', List.filter_cons_of_pos (by simpa using hh), List.filter_nil, hfold]
  · rw [List.filter_cons_of_neg (by simpa using hh), List.filter_nil, List.append_nil,
      hbelow height (not_lt.1 hh)]
    exact H.below height

theorem refused (H : Retells log cs) (hop : c.op? (Names.of log) = none)
    (hcs : ∀ c' ∈ cs, c'.height ≤ c.height) (hlog : ∀ e ∈ log, e.height ≤ c.height) :
    Retells log (cs ++ [c]) :=
  H.snoc (Names.step_of_op_none hop).symm hcs hlog fun _ _ => rfl

theorem record (H : Retells log cs) (hop : c.op? (Names.of log) = some op)
    (hcs : ∀ c' ∈ cs, c'.height ≤ c.height) (hlog : ∀ e ∈ log, e.height ≤ c.height) (seq : Nat) :
    Retells (⟨c.height, seq, op⟩ :: log) (cs ++ [c]) := by
  have hname : op.name = c.name := (AliasCall.name_of_wants (AliasCall.op?_eq_some.1 hop).2).1
  refine H.snoc ?_ hcs ?_ fun height hh => ?_
  · rw [Names.step_of_op hop, Names.of, hname]
  · rintro e (_ | ⟨_, he⟩)
    · exact le_rfl
    · exact hlog e he
  · rw [List.filter_cons_of_neg]
    simpa using hh

theorem filter (H : Retells log cs) (height : Nat) :
    Retells (log.filter (·.height < height)) (cs.filter (·.height < height)) := by
  refine ⟨H.below height, fun height' => ?_⟩
  rw [List.filter_filter, List.filter_filter]
  have := H.below (min height' height)
  simpa [lt_min_iff] using this

end Retells

/-! ## Runs -/

theorem undoToken_frame {ti ti' : TokenIndex} (h : ti.undoToken k op = .ok ti') :
    ti'.aliasFwd = ti.aliasFwd ∧ ti'.ajournal = ti.ajournal ∧ ti'.aliasAnchor = ti.aliasAnchor := by
  obtain ⟨moved, hmoved, h⟩ := Except.bind_eq_ok.1 h
  cases h
  cases hm : op.move? with
  | none =>
    rw [hm] at hmoved
    cases hmoved
    exact ⟨rfl, rfl, rfl⟩
  | some m =>
    rw [hm] at hmoved
    obtain ⟨_, -, hmoved⟩ := Except.bind_eq_ok.1 hmoved
    obtain ⟨_, -, hmoved⟩ := Except.bind_eq_ok.1 hmoved
    obtain ⟨_, -, hmoved⟩ := Except.bind_eq_ok.1 hmoved
    obtain ⟨_, -, hmoved⟩ := Except.bind_eq_ok.1 hmoved
    cases hmoved
    exact ⟨rfl, rfl, rfl⟩

theorem undoTokens_frame {ti ti' : TokenIndex} (h : TokenIndex.undoTokens es ti = .ok ti') :
    ti'.aliasFwd = ti.aliasFwd ∧ ti'.ajournal = ti.ajournal ∧ ti'.aliasAnchor = ti.aliasAnchor := by
  induction es generalizing ti with
  | nil =>
    cases h
    exact ⟨rfl, rfl, rfl⟩
  | cons e es ih =>
    obtain ⟨ti₁, h₁, h⟩ := Except.bind_eq_ok.1 h
    obtain ⟨hf₁, hj₁, ha₁⟩ := undoToken_frame h₁
    obtain ⟨hf, hj, ha⟩ := ih h
    exact ⟨hf.trans hf₁, hj.trans hj₁, ha.trans ha₁⟩

theorem TokenIndex.rolledBack_frame (ti : TokenIndex) (height : Nat) :
    (ti.rolledBack height).aliasFwd = ti.aliasFwd ∧ (ti.rolledBack height).ajournal = ti.ajournal ∧
      (ti.rolledBack height).aliasAnchor = ti.aliasAnchor := by
  rw [rolledBack]
  split
  · rename_i ti' h
    obtain ⟨_, -, h⟩ := Except.bind_eq_ok.1 h
    obtain ⟨ti₁, h₁, h⟩ := Except.bind_eq_ok.1 h
    cases h
    obtain ⟨hf, hj, ha⟩ := undoTokens_frame h₁
    exact ⟨hf, hj, ha⟩
  · exact ⟨rfl, rfl, rfl⟩

theorem TokenCall.seq_le_apply (c : TokenCall) (ti : TokenIndex) : ti.seq ≤ (c.apply ti).seq := by
  rw [apply]
  split
  · rename_i b ti' hrun
    cases b with
    | false => rw [run_false hrun]
    | true =>
      obtain ⟨op, -, -, rfl⟩ := run_true_iff.1 hrun
      exact Nat.le_succ _
  · exact le_rfl

/-- The store holds what the acts made of it, and nothing is left to do for them. -/
structure Synced (acts : List Act) (ti : TokenIndex) : Prop where
  sorted : acts.Pairwise (·.height ≤ ·.height)
  tokens : ∃ l : TokenLedger, Follows ti l ∧ (∀ e ∈ l, ∃ a ∈ acts, e.1 = a.height) ∧ ∀ a ∈ acts, l.Settled a
  names : ∃ log, Recounts ti log ∧ (∀ e ∈ log, ∃ a ∈ acts, e.height = a.height) ∧
    Retells log (acts.filterMap Act.call?)
  anchored : Anchored (acts.filterMap Act.call?) ti.aliasAnchor
  anchor_lt : ti.aliasAnchor < 2 ^ 64

namespace Synced
variable {acts : List Act} {ti : TokenIndex}

theorem empty : Synced [] {} where
  sorted := .nil
  tokens := ⟨[], .empty, by simp, by simp⟩
  names := ⟨[], .empty, by simp, .nil⟩
  anchored := .of_le (by simp)
  anchor_lt := by decide

theorem sorted_snoc {a : Act} (H : Synced acts ti) (ha : ∀ a' ∈ acts, a'.height ≤ a.height) :
    (acts ++ [a]).Pairwise (·.height ≤ ·.height) := by
  rw [List.pairwise_append]
  refine ⟨H.sorted, List.pairwise_singleton _ _, fun a' ha' a'' ha'' => ?_⟩
  rw [List.mem_singleton.1 ha'']
  exact ha a' ha'

/-- An act about tokens that makes the call `c`. -/
theorem call {a : Act} {c : TokenCall} (H : Synced acts ti) (hs : ti.seq + 1 < 2 ^ 64)
    (ha : ∀ a' ∈ acts, a'.height ≤ a.height) (hname : a.call? = none) (hheight : c.height = a.height)
    (hsettled : ∀ l : TokenLedger, (∀ e ∈ l, e.1 ≤ a.height) → (l.step c).Settled a) :
    Synced (acts ++ [a]) (c.apply ti) ∧ (c.apply ti).seq ≤ ti.seq + 1 := by
  obtain ⟨l, hl, hheights, hset⟩ := H.tokens
  obtain ⟨log, hlog, hlogh, hre⟩ := H.names
  obtain ⟨hfwd, hj, hanchor⟩ := c.apply_frame ti
  obtain ⟨hstep, hseq⟩ := hl.step hs c
  have hge : ti.seq ≤ (c.apply ti).seq := c.seq_le_apply ti
  have hcalls : (acts ++ [a]).filterMap Act.call? = acts.filterMap Act.call? := by
    rw [List.filterMap_append, List.filterMap_cons, hname]
    simp
  refine ⟨⟨H.sorted_snoc ha, ⟨_, hstep, fun e he => ?_, fun a' ha' => ?_⟩,
    ⟨log, hlog.congr hj hfwd hge (by omega), fun e he => ?_, hcalls ▸ hre⟩, ?_, hanchor ▸ H.anchor_lt⟩, hseq⟩
  · rcases TokenLedger.mem_step he with he | ⟨he, -⟩
    · obtain ⟨a', ha', h⟩ := hheights e he
      exact ⟨a', by simp [ha'], h⟩
    · exact ⟨a, by simp, he.trans hheight⟩
  · rcases List.mem_append.1 ha' with ha' | ha'
    · exact (hset a' ha').mono (l.subset_step c)
    · rw [List.mem_singleton.1 ha']
      refine hsettled l fun e he => ?_
      obtain ⟨a'', ha'', h⟩ := hheights e he
      exact h ▸ ha a'' ha''
  · obtain ⟨a', ha', h⟩ := hlogh e he
    exact ⟨a', by simp [ha'], h⟩
  · rw [hcalls, hanchor]
    exact H.anchored

theorem name {c : AliasCall} (H : Synced acts ti) (hs : ti.seq + 1 < 2 ^ 64)
    (ha : ∀ a ∈ acts, a.height ≤ c.height) (hh : c.height < 2 ^ 64) :
    Synced (acts ++ [Act.name c]) (c.apply ti) ∧ (c.apply ti).seq ≤ ti.seq + 1 := by
  obtain ⟨l, ⟨live, hlive, hl⟩, hheights, hset⟩ := H.tokens
  obtain ⟨log, hlog, hlogh, hre⟩ := H.names
  obtain ⟨hframe, hle, hseq⟩ := c.apply_frame hlog.holdsNames hs
  have hcalls : (acts ++ [Act.name c]).filterMap Act.call? = acts.filterMap Act.call? ++ [c] := by
    rw [List.filterMap_append]
    rfl
  have hcs : ∀ c' ∈ acts.filterMap Act.call?, c'.height ≤ c.height := by
    intro c' hc'
    obtain ⟨a, hmem, hcall⟩ := List.mem_filterMap.1 hc'
    cases a with
    | name => cases hcall; exact ha _ hmem
    | issue => cases hcall
    | transfer => cases hcall
  have hlogc : ∀ e ∈ log, e.height ≤ c.height := by
    intro e he
    obtain ⟨a, hmem, h⟩ := hlogh e he
    exact h ▸ ha a hmem
  have hlogh' : ∀ e ∈ log, ∃ a ∈ acts ++ [Act.name c], e.height = a.height := by
    intro e he
    obtain ⟨a, hmem, h⟩ := hlogh e he
    exact ⟨a, by simp [hmem], h⟩
  have htokens : ∃ l : TokenLedger, Follows (c.apply ti) l ∧
      (∀ e ∈ l, ∃ a ∈ acts ++ [Act.name c], e.1 = a.height) ∧ ∀ a ∈ acts ++ [Act.name c], l.Settled a := by
    refine ⟨l, ⟨live, hlive.congr hframe hle (by omega), hl⟩, fun e he => ?_, fun a hmem => ?_⟩
    · obtain ⟨a, hmem, h⟩ := hheights e he
      exact ⟨a, by simp [hmem], h⟩
    · rcases List.mem_append.1 hmem with hmem | hmem
      · exact hset a hmem
      · rw [List.mem_singleton.1 hmem]
        trivial
  refine ⟨?_, hseq⟩
  cases hop : c.op? (Names.of log) with
  | none =>
    obtain ⟨anchor, hge, hanchor, heq⟩ := AliasCall.apply_of_op_none hlog.holdsNames hop
    have hnone : c.op? ((acts.filterMap Act.call?).foldl Names.step fun _ => none) = none := hre.all ▸ hop
    rw [heq] at htokens ⊢
    refine ⟨H.sorted_snoc ha, htokens, ⟨log, hlog.congr rfl rfl le_rfl hlog.seq_lt, hlogh', ?_⟩, ?_, ?_⟩
    · rw [hcalls]
      exact hre.refused hop hcs hlogc
    · rw [hcalls]
      refine (H.anchored.mono hge).snoc fun hsome => ?_
      rw [hnone] at hsome
      cases hsome
    · have := H.anchor_lt
      show anchor < _
      omega
  | some op =>
    rw [AliasCall.apply_of_op hlog.holdsNames hs hop] at htokens ⊢
    refine ⟨H.sorted_snoc ha, htokens, ⟨_, hlog.record hs hop hlogc _, ?_, ?_⟩, ?_, ?_⟩
    · rintro e (_ | ⟨_, he⟩)
      · exact ⟨Act.name c, by simp, rfl⟩
      · exact hlogh' e he
    · rw [hcalls]
      exact hre.record hop hcs hlogc _
    · rw [hcalls]
      exact (H.anchored.mono (le_max_left _ _)).snoc fun _ => le_max_right _ _
    · exact max_lt H.anchor_lt hh

theorem act {a : Act} (H : Synced acts ti) (hs : ti.seq + 1 < 2 ^ 64)
    (ha : ∀ a' ∈ acts, a'.height ≤ a.height) (hh : a.height < 2 ^ 64) :
    Synced (acts ++ [a]) (a.apply ti) ∧ (a.apply ti).seq ≤ ti.seq + 1 := by
  cases a with
  | issue height token issuer txid supply =>
    exact H.call hs ha rfl rfl fun l hl => TokenLedger.settled_issue hl
  | transfer t =>
    refine H.call hs ha rfl ?_ fun l hl => TokenLedger.settled_transfer hl _
    exact t.height_call _
  | name c => exact H.name hs ha hh

theorem applyAll {more : List Act} (H : Synced acts ti) (hs : ti.seq + more.length < 2 ^ 64)
    (hsorted : (acts ++ more).Pairwise (·.height ≤ ·.height)) (hh : ∀ a ∈ more, a.height < 2 ^ 64) :
    Synced (acts ++ more) (Act.applyAll more ti) ∧ (Act.applyAll more ti).seq ≤ ti.seq + more.length := by
  induction more generalizing acts ti with
  | nil =>
    rw [List.append_nil]
    exact ⟨H, le_rfl⟩
  | cons a more ih =>
    rw [List.length_cons] at hs ⊢
    obtain ⟨hact, hseq⟩ := H.act (a := a) (by omega)
      (fun a' ha' => (List.pairwise_append.1 hsorted).2.2 a' ha' a (by simp)) (hh a (by simp))
    rw [List.append_cons] at hsorted ⊢
    obtain ⟨hall, hseq'⟩ := ih hact (by omega) hsorted fun a ha => hh a (by simp [ha])
    exact ⟨hall, hseq'.trans (by omega)⟩

theorem filterMap_filter (acts : List Act) (height : Nat) :
    (acts.filter (·.height < height)).filterMap Act.call? =
      (acts.filterMap Act.call?).filter (·.height < height) := by
  rw [List.filterMap_filter, List.filter_filterMap]
  refine congrArg (List.filterMap · acts) (funext fun a => ?_)
  cases a with
  | name c =>
    by_cases h : c.height < height
    · simp [Act.call?, Act.height, Option.filter, h]
    · simp [Act.call?, Act.height, Option.filter, h]
  | issue => simp [Act.call?]
  | transfer => simp [Act.call?]

theorem onRollback (H : Synced acts ti) (hh : height < 2 ^ 64) :
    Synced (acts.filter (·.height < height)) (TokensAliases.onRollback height ti) ∧
      (TokensAliases.onRollback height ti).seq = ti.seq := by
  obtain ⟨l, hl, hheights, hset⟩ := H.tokens
  obtain ⟨log, hlog, hlogh, hre⟩ := H.names
  obtain ⟨hback, hseq⟩ := hl.rolledBack height
  obtain ⟨hfwd, hj, -⟩ := ti.rolledBack_frame height
  have hlog' : Recounts (ti.rolledBack height) log :=
    hlog.congr hj hfwd hseq.ge (hseq ▸ hlog.seq_lt)
  obtain ⟨ti', hroll, hre', heq⟩ := hlog'.rollback hh
  have hon : TokensAliases.onRollback height ti = ti' := by
    rw [TokensAliases.onRollback, TokenIndex.namesRolledBack, hroll]
  have hseq' : ti'.seq = ti.seq := by
    rw [heq]
    exact hseq
  obtain ⟨live, hlive, hperm⟩ := hback
  rw [hon]
  refine ⟨⟨H.sorted.filter _, ⟨_, ⟨live, hlive.congr ?_ ?_ ?_, hperm⟩, fun e he => ?_, fun a ha => ?_⟩,
    ⟨_, hre', fun e he => ?_, ?_⟩, ?_, ?_⟩, hseq'⟩
  · rw [heq]
  · rw [hseq', hseq]
  · rw [hseq']
    exact hlog.seq_lt
  · obtain ⟨he, hlt⟩ := List.mem_filter.1 he
    obtain ⟨a, ha, h⟩ := hheights e he
    exact ⟨a, List.mem_filter.2 ⟨ha, h ▸ hlt⟩, h⟩
  · obtain ⟨ha, hlt⟩ := List.mem_filter.1 ha
    exact (hset a ha).filter (of_decide_eq_true hlt)
  · obtain ⟨he, hlt⟩ := List.mem_filter.1 he
    obtain ⟨a, ha, h⟩ := hlogh e he
    exact ⟨a, List.mem_filter.2 ⟨ha, h ▸ hlt⟩, h⟩
  · rw [filterMap_filter]
    exact hre.filter height
  · rw [filterMap_filter, heq]
    refine .of_le fun c hc => ?_
    have := of_decide_eq_true (List.mem_filter.1 hc).2
    show c.height ≤ height - 1
    omega
  · rw [heq]
    show height - 1 < _
    omega

end Synced

/-! ## The second time -/

/-- Nothing is left to do for the act in a store that holds the ledger and the names. -/
def Act.Done (l : TokenLedger) (m : Names) (a : Act) : Prop :=
  l.Settled a ∧ ∀ c, a.call? = some c → c.op? m = none

namespace Tracks
variable {ti : TokenIndex} {l : TokenLedger} {m : Names}

theorem quiet_call {c : TokenCall} (H : Tracks ti l m) (hs : ti.seq + 1 < 2 ^ 64)
    (h : ∀ op, c.op = .ok op → l.Takes c.height op → op.move? = none) :
    ∃ l', l ⊆ l' ∧ Tracks (c.apply ti) l' m ∧ (c.apply ti).seq ≤ ti.seq + 1 ∧ Quiet ti (c.apply ti) := by
  obtain ⟨hcall, hseq⟩ := H.call hs c
  exact ⟨_, l.subset_step c, hcall, hseq, H.follows.quiet_call hs h⟩

theorem quiet_act {a : Act} (H : Tracks ti l m) (hs : ti.seq + 1 < 2 ^ 64) (ha : a.Done l m) :
    ∃ l', l ⊆ l' ∧ Tracks (a.apply ti) l' m ∧ (a.apply ti).seq ≤ ti.seq + 1 ∧ Quiet ti (a.apply ti) := by
  obtain ⟨hset, hname⟩ := ha
  cases a with
  | issue height token issuer txid supply =>
    refine H.quiet_call hs fun op hop htakes => ?_
    obtain ⟨e, he, -, hknown⟩ := hset op hop htakes.1
    obtain ⟨n, -, hn⟩ := Except.bind_eq_ok.1 hop
    cases hn
    rcases hknown with htxid | htoken
    · have hsees := htakes.2.1
      rw [TokenLedger.sees, List.any_eq_false] at hsees
      exact absurd (decide_eq_true htxid) (hsees e he)
    · have hknows := htakes.2.2 token rfl
      rw [TokenLedger.knows, List.any_eq_false] at hknows
      exact absurd (decide_eq_true htoken) (hknows e he)
  | transfer t =>
    refine H.quiet_call hs fun op hop htakes => ?_
    have htxid := TransferAct.txid_of_call hop
    rw [TransferAct.call] at hop htakes
    split at hop
    · rename_i hpays
      rw [if_pos hpays] at htakes
      cases hop
      obtain ⟨e, he, -, hknown⟩ := hset htakes.1
      have hsees := htakes.2.1
      rw [TokenLedger.sees, List.any_eq_false] at hsees
      exact absurd (by simpa [htxid] using hknown) (hsees e he)
    · cases hop
      rfl
  | name c =>
    obtain ⟨anchor, -, -, heq⟩ := AliasCall.apply_of_op_none H.names (hname c rfl)
    obtain ⟨live, hlive, hl⟩ := H.follows
    show ∃ l', l ⊆ l' ∧ Tracks (c.apply ti) l' m ∧ (c.apply ti).seq ≤ ti.seq + 1 ∧ Quiet ti (c.apply ti)
    rw [heq]
    exact ⟨l, List.Subset.refl l, ⟨⟨live, hlive.congr rfl le_rfl hlive.seq_lt, hl⟩, ⟨H.names.fwd, H.names.height⟩⟩,
      Nat.le_succ _, ⟨rfl, rfl, rfl, rfl⟩⟩

theorem quiet_acts {acts : List Act} (H : Tracks ti l m) (hs : ti.seq + acts.length < 2 ^ 64)
    (hacts : ∀ a ∈ acts, a.Done l m) : Quiet ti (Act.applyAll acts ti) := by
  induction acts generalizing ti l with
  | nil => exact .refl ti
  | cons a acts ih =>
    rw [List.length_cons] at hs
    obtain ⟨l', hsub, H', hseq, hquiet⟩ := H.quiet_act (by omega) (hacts a (by simp))
    refine hquiet.trans (ih H' (by omega) fun a' ha' => ?_)
    obtain ⟨hset, hname⟩ := hacts a' (by simp [ha'])
    exact ⟨hset.mono hsub, hname⟩

end Tracks

namespace TokensAliases
variable {E : Env}

/-! ## The chain -/

/-- The stores that `on_block` and `_rollback_plugin_stores` reach, with the blocks of the chain and the number
of rows that were indexed. -/
inductive Reached (E : Env) : Nat → List (Nat × List Row) → TokenIndex → Prop
  | start : Reached E 0 [] {}
  | block (h : Reached E n blocks ti) (hnew : ∀ b ∈ blocks, b.1 < height) (hh : height < 2 ^ 64) :
    Reached E (n + rows.length) (blocks ++ [(height, rows)]) (onBlock E height rows ti)
  | rollback (h : Reached E n blocks ti) (hh : height < 2 ^ 64) :
    Reached E n (blocks.filter (·.1 < height)) (onRollback height ti)

theorem chainActs_filter (blocks : List (Nat × List Row)) (height : Nat) :
    chainActs E (blocks.filter (·.1 < height)) = (chainActs E blocks).filter (·.height < height) := by
  induction blocks with
  | nil => rfl
  | cons b blocks ih =>
    rw [chainActs] at ih
    rw [chainActs, chainActs, List.flatMap_cons, List.filter_append]
    by_cases h : b.1 < height
    · rw [List.filter_cons_of_pos (by simpa using h), List.flatMap_cons, ih, ← chainActs]
      refine congrArg (· ++ _) (List.filter_eq_self.2 fun a ha => ?_).symm
      rw [height_of_mem_blockActs ha]
      simpa using h
    · rw [List.filter_cons_of_neg (by simpa using h), ih, ← chainActs]
      refine (congrArg (· ++ _) (List.filter_eq_nil_iff.2 fun a ha => ?_)).symm
      rw [height_of_mem_blockActs ha]
      simpa using h

theorem Reached.sorted (h : Reached E n blocks ti) : blocks.Pairwise (·.1 < ·.1) := by
  induction h with
  | start => exact .nil
  | block _ hnew _ ih =>
    refine List.pairwise_append.2 ⟨ih, List.pairwise_singleton _ _, fun b hb b' hb' => ?_⟩
    rw [List.mem_singleton.1 hb']
    exact hnew b hb
  | rollback _ _ ih => exact ih.filter _

theorem Reached.length_le (h : Reached E n blocks ti) : (blocks.flatMap Prod.snd).length ≤ n := by
  induction h with
  | start => exact le_rfl
  | block _ _ _ ih =>
    rw [List.flatMap_append, List.length_append]
    simpa using ih
  | rollback _ _ ih =>
    refine le_trans ?_ ih
    exact (List.filter_sublist.flatMap _).length_le

theorem Reached.synced (h : Reached E n blocks ti) (hn : n < 2 ^ 61) :
    Synced (chainActs E blocks) ti ∧ ti.seq ≤ 2 * n := by
  induction h with
  | start => exact ⟨.empty, le_rfl⟩
  | @block n blocks ti height rows h hnew hh ih =>
    obtain ⟨H, hseq⟩ := ih (by omega)
    have hsorted : (blocks ++ [(height, rows)]).Pairwise (·.1 < ·.1) := (Reached.block h hnew hh).sorted
    have hacts : chainActs E (blocks ++ [(height, rows)]) = chainActs E blocks ++ blockActs E height rows := by
      simp [chainActs]
    have hlen : (blockActs E height rows).length ≤ 2 * rows.length := by
      simpa [chainActs] using length_chainActs_le (E := E) [(height, rows)]
    have hpair := pairwise_chainActs (E := E) (hsorted.imp fun h => le_of_lt h)
    rw [hacts] at hpair ⊢
    obtain ⟨H', hseq'⟩ := H.applyAll (by omega) hpair fun a ha => (height_of_mem_blockActs ha).symm ▸ hh
    rw [onBlock_eq]
    exact ⟨H', by omega⟩
  | rollback _ hh ih =>
    obtain ⟨H, hseq⟩ := ih hn
    obtain ⟨H', hseq'⟩ := H.onRollback hh
    rw [chainActs_filter]
    exact ⟨H', hseq'.trans_le hseq⟩

/-! ## Restarting -/

structure Steady (E : Env) (blocks : List (Nat × List Row)) : Prop where
  /-- A transfer is signed. -/
  transfers : ∀ x ∈ rowsOf blocks, x.2.operation = opTransfer → x.2.signature.take 56 ≠ ['0']
  /-- A block has at most one operation about an alias. -/
  names : ∀ b ∈ blocks, (((blockActs E b.1 b.2).filterMap Act.call?).map AliasCall.name).Nodup

theorem moves_of_mem_aliasCalls (h : c ∈ aliasCalls height address operation openfield) : c.Moves := by
  rw [aliasCalls] at h
  split at h
  · split at h
    · cases h
    · rw [List.mem_singleton.1 h]
      trivial
  · split at h
    · split at h
      · cases h
      · split at h
        · cases h
        · split at h
          · cases h
          · rename_i hne
            rw [List.mem_singleton.1 h]
            exact hne
    · split at h
      · split at h
        · cases h
        · rw [List.mem_singleton.1 h]
          trivial
      · cases h

theorem mem_chainActs_of_issue {x : Nat × Row} (hx : x ∈ rowsOf blocks) (ha : a ∈ issuePart E x) :
    a ∈ chainActs E blocks := by
  obtain ⟨b, hb, hx⟩ := List.mem_flatMap.1 hx
  obtain ⟨r, hr, rfl⟩ := List.mem_map.1 hx
  exact List.mem_flatMap.2 ⟨b, hb, List.mem_append_left _ (List.mem_flatMap.2 ⟨r, hr, ha⟩)⟩

theorem mem_chainActs_of_other {x : Nat × Row} (hx : x ∈ rowsOf blocks) (ha : a ∈ otherRowActs E x.1 x.2) :
    a ∈ chainActs E blocks := by
  obtain ⟨b, hb, hx⟩ := List.mem_flatMap.1 hx
  obtain ⟨r, hr, rfl⟩ := List.mem_map.1 hx
  exact List.mem_flatMap.2 ⟨b, hb, List.mem_append_right _ (List.mem_flatMap.2 ⟨r, hr, ha⟩)⟩

theorem transferPart_subset (x : Nat × Row) : transferPart E x ⊆ otherRowActs E x.1 x.2 := by
  rw [transferPart]
  split
  · rename_i h
    rw [otherRowActs, if_neg (by simp [h.2]), if_pos h.1]
    exact List.Subset.refl _
  · exact List.nil_subset _

theorem legacyPart_subset (x : Nat × Row) : (legacyPart x).map Act.name ⊆ otherRowActs E x.1 x.2 := by
  rw [legacyPart]
  split
  · rename_i h
    rw [isLegacy, Bool.and_eq_true, Bool.and_eq_true] at h
    obtain ⟨⟨hz, hop⟩, hmark⟩ := h
    have hnot : x.2.operation ∉ opIssue :: opTransfer :: aliasOps := by simpa using hop
    rw [otherRowActs, if_neg (by simp [hz]), if_neg (by rintro h; simp [h] at hnot),
      if_neg (fun h => hnot (by simp [h])), if_pos hmark]
    exact List.Subset.refl _
  · exact List.nil_subset _

theorem opsPart_subset (x : Nat × Row) : (opsPart x).map Act.name ⊆ otherRowActs E x.1 x.2 := by
  rw [opsPart]
  split
  · rename_i h
    have hne : x.2.operation ≠ opTransfer := fun h' => opTransfer_notMem (h' ▸ h.2)
    rw [otherRowActs, if_neg (by simp [h.1]), if_neg hne, if_pos h.2]
    exact List.Subset.refl _
  · exact List.nil_subset _

/-- The operations about names of a steady chain: no two of one block are about the same. -/
theorem Steady.pairwise (hsteady : Steady E blocks) (hsorted : blocks.Pairwise (·.1 < ·.1)) :
    ((chainActs E blocks).filterMap Act.call?).Pairwise fun c c' => c.height = c'.height → c.name ≠ c'.name := by
  have hheight : ∀ b : Nat × List Row, ∀ c ∈ (blockActs E b.1 b.2).filterMap Act.call?, c.height = b.1 := by
    intro b c hc
    obtain ⟨a, ha, hcall⟩ := List.mem_filterMap.1 hc
    cases a with
    | name => cases hcall; exact height_of_mem_blockActs ha
    | issue => cases hcall
    | transfer => cases hcall
  rw [chainActs, List.filterMap_flatMap, List.pairwise_flatMap]
  refine ⟨fun b hb => ?_, hsorted.imp fun hlt c hc c' hc' heq => ?_⟩
  · refine (List.pairwise_map.1 (hsteady.names b hb)).imp ?_
    intro c c' hne _
    exact hne
  · rw [hheight _ c hc, hheight _ c' hc'] at heq
    omega

/-- What a scan from the anchors on asks for was asked for when the blocks were indexed. -/
theorem Steady.done {l : TokenLedger} {m : Names} {anchor : Nat} (hsteady : Steady E blocks)
    (hsorted : blocks.Pairwise (·.1 < ·.1)) (hset : ∀ a ∈ chainActs E blocks, l.Settled a)
    (hm : m = ((chainActs E blocks).filterMap Act.call?).foldl Names.step fun _ => none)
    (hanch : Anchored ((chainActs E blocks).filterMap Act.call?) anchor) {x : Nat × Row}
    (hx : x ∈ rowsOf blocks) :
    (∀ a ∈ issuePart E x, a.Done l m) ∧ (∀ a ∈ transferPart E x, a.Done l m) ∧
      (anchor ≤ x.1 → (∀ a ∈ (legacyPart x).map Act.name, a.Done l m) ∧
        ∀ a ∈ (opsPart x).map Act.name, a.Done l m) := by
  have hcall : ∀ c, Act.name c ∈ chainActs E blocks → c.Moves → anchor ≤ c.height → (Act.name c).Done l m := by
    intro c hmem hmoves hh
    refine ⟨trivial, ?_⟩
    rintro _ ⟨⟩
    rw [hm]
    refine hanch.refused ?_ (hsteady.pairwise hsorted) (List.mem_filterMap.2 ⟨_, hmem, rfl⟩) hmoves hh
    refine List.Pairwise.filterMap _ ?_ (pairwise_chainActs (hsorted.imp fun h => le_of_lt h))
    intro a a' hle c hc c' hc'
    cases a <;> cases hc
    cases a' <;> cases hc'
    exact hle
  refine ⟨fun a ha => ?_, fun a ha => ?_, fun hh => ⟨fun a ha => ?_, fun a ha => ?_⟩⟩
  · obtain ⟨-, token, supply, rfl⟩ := mem_issueRowActs ha
    exact ⟨hset _ (mem_chainActs_of_issue hx ha), fun c hc => by cases hc⟩
  · have hmem := mem_chainActs_of_other hx (transferPart_subset x ha)
    obtain ⟨-, rfl⟩ := mem_transferPart ha
    exact ⟨hset _ hmem, fun c hc => by cases hc⟩
  · have hmem := mem_chainActs_of_other hx (legacyPart_subset (E := E) x ha)
    obtain ⟨c, hc, rfl⟩ := List.mem_map.1 ha
    rw [legacyPart] at hc
    split at hc
    · rw [List.mem_singleton.1 hc] at hmem ⊢
      exact hcall _ hmem trivial hh
    · cases hc
  · have hmem := mem_chainActs_of_other hx (opsPart_subset (E := E) x ha)
    obtain ⟨c, hc, rfl⟩ := List.mem_map.1 ha
    rw [opsPart] at hc
    split at hc
    · exact hcall c hmem (moves_of_mem_aliasCalls hc) (by rw [height_of_mem_aliasCalls hc]; exact hh)
    · cases hc

theorem length_flatMap_if_le {β : Type} {p : Nat × Row → Prop} [DecidablePred p] {f : Nat × Row → List β}
    (h : ∀ x, (f x).length ≤ 1) (rows : List (Nat × Row)) :
    (rows.flatMap fun x => if p x then f x else []).length ≤ rows.length := by
  refine length_flatMap_le_one (fun x => ?_) rows
  split
  · exact h x
  · exact Nat.zero_le _

theorem length_scanActs_le (hrows : List.Forall₂ Agree rows ts) (tokAnchor aliasAnchor : Nat)
    (hsigned : ∀ x ∈ rows, x.2.operation = opTransfer → x.2.signature.take 56 ≠ ['0']) :
    (scanActs E tokAnchor aliasAnchor ((ts.filter scanned).map .of)).length ≤ 4 * rows.length := by
  have h1 := length_flatMap_if_le (p := fun x => tokAnchor ≤ x.1) (length_issuePart_le E) rows
  have h2 := length_flatMap_if_le (p := fun x => tokAnchor ≤ x.1) (length_transferPart_le E) rows
  have h3 := length_flatMap_if_le (p := fun x => aliasAnchor ≤ x.1)
    (f := fun x => (legacyPart x).map Act.name) (fun x => by simpa using length_legacyPart_le x) rows
  have h4 := length_flatMap_if_le (p := fun x => aliasAnchor ≤ x.1)
    (f := fun x => (opsPart x).map Act.name) (fun x => by simpa using length_opsPart_le x) rows
  rw [scanActs_eq hrows tokAnchor aliasAnchor hsigned]
  simp only [List.length_append]
  omega

/-- A scan of blocks that the store is in step with changes no answer. -/
theorem Stores.quiet {P : Prims} {mode : Mode} {st : Store} (hst : Stores P mode st blocks)
    (hr : Reached E n blocks ti) (hn : n < 2 ^ 61) (hsteady : Steady E blocks) :
    ∃ ti', backfill E P mode st ti = .ok ti' ∧ Quiet ti ti' := by
  obtain ⟨H, hseq⟩ := hr.synced hn
  obtain ⟨l, hl, -, hset⟩ := H.tokens
  obtain ⟨log, hlog, -, hre⟩ := H.names
  obtain ⟨ts, hscan, hagree⟩ := hst.scan (lt_of_le_of_lt (min_le_right ti.tokAnchor ti.aliasAnchor) H.anchor_lt)
  have hsub : ∀ x ∈ rowsOf (blocks.filter (min ti.tokAnchor ti.aliasAnchor ≤ ·.1)), x ∈ rowsOf blocks := by
    intro x hx
    exact (List.filter_sublist.flatMap _).subset hx
  have hsigned : ∀ x ∈ rowsOf (blocks.filter (min ti.tokAnchor ti.aliasAnchor ≤ ·.1)),
      x.2.operation = opTransfer → x.2.signature.take 56 ≠ ['0'] := fun x hx => hsteady.transfers x (hsub x hx)
  have hlen : (rowsOf (blocks.filter (min ti.tokAnchor ti.aliasAnchor ≤ ·.1))).length ≤ n := by
    refine le_trans (List.filter_sublist.flatMap _).length_le ?_
    exact (length_rowsOf blocks).trans_le hr.length_le
  have hscanLen := length_scanActs_le (E := E) hagree ti.tokAnchor ti.aliasAnchor hsigned
  refine ⟨backfillRows E ((ts.filter scanned).map .of) ti, ?_, ?_⟩
  · rw [backfill, hscan]
    rfl
  · rw [backfillRows_eq]
    refine Tracks.quiet_acts ⟨hl, hlog.holdsNames⟩ (by omega) fun a ha => ?_
    rw [scanActs_eq hagree _ _ hsigned] at ha
    have hdone := fun x hx => hsteady.done hr.sorted hset hre.all H.anchored (hsub x hx)
    simp only [List.mem_append, List.mem_flatMap] at ha
    rcases ha with ((⟨x, hx, ha⟩ | ⟨x, hx, ha⟩) | ⟨x, hx, ha⟩) | ⟨x, hx, ha⟩ <;> split at ha
    · exact (hdone x hx).1 a ha
    · cases ha
    · exact (hdone x hx).2.1 a ha
    · cases ha
    · rename_i hh
      exact ((hdone x hx).2.2 hh).1 a ha
    · cases ha
    · rename_i hh
      exact ((hdone x hx).2.2 hh).2 a ha
    · cases ha

open Relation in
/-- In every run whose blocks are steady, a backfill at a restart changes no registration, no balance and no
owner. -/
theorem backfill_again (E : Env) {P : Prims} {mode : Mode} {keys : Text → Prop} {forkHeight : Option Nat}
    (hd : KeysDistinct P keys) {l : Ledger} (h : ReflTransGen (Step P mode keys forkHeight) ∅ l)
    (hr : Reached E n (blocksOf l) ti) (hn : n < 2 ^ 61) (hsteady : Steady E (blocksOf l)) :
    ∃ ti', backfill E P mode l.store ti = .ok ti' ∧ ti'.tokreg = ti.tokreg ∧
      (∀ token party, ti'.tokenBalance token party = ti.tokenBalance token party) ∧
      ∀ name, ti'.aliasOwner name = ti.aliasOwner name := by
  obtain ⟨ti', hback, hquiet⟩ :=
    (stores_of_good (good_of_history hd h) (stored_of_history h)).quiet hr hn hsteady
  refine ⟨ti', hback, hquiet.tokreg, fun token party => ?_, fun name => ?_⟩
  · rw [TokenIndex.tokenBalance, TokenIndex.tokenBalance, hquiet.cred, hquiet.deb]
  · rw [TokenIndex.aliasOwner, TokenIndex.aliasOwner, hquiet.aliasFwd]

/-! ## Two blocks -/

def pairIndex (xs ys : List (Char × Text × Text)) : TokenIndex :=
  onBlock .ascii 2 (tokenRows 2 [2] ys) (onBlock .ascii 1 (tokenRows 1 [1] xs) {})

theorem reached_two (h : height < height') (hh : height' < 2 ^ 64) (xs ys : List Row) :
    Reached E (0 + xs.length + ys.length) [(height, xs), (height', ys)]
      (onBlock E height' ys (onBlock E height xs {})) :=
  .block (.block .start (by simp) (by omega)) (by simpa using h) hh

theorem reached_pair (xs ys : List (Char × Text × Text)) :
    Reached .ascii (0 + (tokenRows 1 [1] xs).length + (tokenRows 2 [2] ys).length) (pairBlocks xs ys)
      (pairIndex xs ys) :=
  reached_two (by decide) (by decide) _ _

/-- The store after two blocks of which the second replaced another. -/
def replacedIndex (xs ys zs : List (Char × Text × Text)) : TokenIndex :=
  onBlock .ascii 2 (tokenRows 2 [2] ys) (onRollback 2 (pairIndex xs zs))

theorem reached_replaced (xs ys zs : List (Char × Text × Text)) : Reached .ascii
    (0 + (tokenRows 1 [1] xs).length + (tokenRows 2 [2] zs).length + (tokenRows 2 [2] ys).length)
    (pairBlocks xs ys) (replacedIndex xs ys zs) := by
  have hback := Reached.rollback (reached_pair xs zs) (show 2 < 2 ^ 64 by decide)
  rw [pairBlocks, List.filter_cons_of_pos (by simp), List.filter_cons_of_neg (by simp), List.filter_nil] at hback
  exact .block hback (by simp) (by decide)

theorem spentPair_steady : Steady .ascii spentPair := ⟨by decide +kernel, by decide +kernel⟩

open Relation in
/-- A token is spent in a block that replaces one in which its owner claimed a name. -/
theorem backfill_again_sample : ∃ l ti',
    ReflTransGen (Step .toy .decimal (· = ['k']) none) ∅ l ∧ blocksOf l = spentPair ∧
    backfill .ascii .toy .decimal l.store (replacedIndex [('a', opIssue, "t:9".toList)]
      [('a', opTransfer, "t:3".toList)] [('a', opAliasRegister, ['x'])]) = .ok ti' ∧
    ti'.tokenBalance ['t'] (hexAddress 'a') = (replacedIndex [('a', opIssue, "t:9".toList)]
      [('a', opTransfer, "t:3".toList)] [('a', opAliasRegister, ['x'])]).tokenBalance ['t'] (hexAddress 'a') ∧
    ti'.aliasOwner ['x'] = (replacedIndex [('a', opIssue, "t:9".toList)]
      [('a', opTransfer, "t:3".toList)] [('a', opAliasRegister, ['x'])]).aliasOwner ['x'] := by
  have hok : (pairStore [('a', opIssue, "t:9".toList)] [('a', opTransfer, "t:3".toList)]).toBool = true := by
    decide +kernel
  cases hst : pairStore [('a', opIssue, "t:9".toList)] [('a', opTransfer, "t:3".toList)] with
  | error => rw [hst] at hok; cases hok
  | ok st =>
    obtain ⟨l, -, hblocks, hhist⟩ := pair_history (by simp) (by simp) hst
    obtain ⟨ti', hback, -, hbal, hown⟩ := backfill_again .ascii sample_keysDistinct hhist
      (hblocks ▸ reached_replaced _ _ [('a', opAliasRegister, ['x'])]) (by decide) (hblocks ▸ spentPair_steady)
    exact ⟨l, ti', hhist, hblocks, hback, hbal _ _, hown _⟩

/-- Who has the name `x` before and after a restart. -/
def restartOwners (xs ys : List (Char × Text × Text)) : Except Err (Option Text × Option Text) := do
  let ti ← backfill .ascii .toy .decimal (← pairStore xs ys) (pairIndex xs ys)
  return (← (pairIndex xs ys).aliasOwner ['x'], ← ti.aliasOwner ['x'])

/-- `b` hands a name on before `a` hands it to `b`. -/
def crossedTransfers : List (Char × Text × Text) :=
  [('b', opAliasTransfer, hexAddress 'c' ++ ":x".toList), ('a', opAliasTransfer, hexAddress 'b' ++ ":x".toList)]

theorem restartOwners_crossed : restartOwners [('a', opAliasRegister, ['x'])] crossedTransfers =
    .ok (some (hexAddress 'b'), some (hexAddress 'c')) := by decide +kernel

open Relation in
/-- A transfer that was refused because the name had not arrived yet is taken when the block is scanned again. -/
theorem restart_moves_name : ∃ l n ti ti',
    ReflTransGen (Step .toy .decimal (· = ['k']) none) ∅ l ∧
    blocksOf l = pairBlocks [('a', opAliasRegister, ['x'])] crossedTransfers ∧
    Reached .ascii n (blocksOf l) ti ∧ backfill .ascii .toy .decimal l.store ti = .ok ti' ∧
    ti.aliasOwner ['x'] = .ok (some (hexAddress 'b')) ∧ ti'.aliasOwner ['x'] = .ok (some (hexAddress 'c')) := by
  obtain ⟨st, hst, h⟩ := Except.bind_eq_ok.1 restartOwners_crossed
  obtain ⟨ti', hti, h⟩ := Except.bind_eq_ok.1 h
  obtain ⟨o, ho, h⟩ := Except.bind_eq_ok.1 h
  obtain ⟨o', ho', h⟩ := Except.bind_eq_ok.1 h
  cases h
  obtain ⟨l, rfl, hblocks, hhist⟩ := pair_history (by simp) (by simp [crossedTransfers]) hst
  exact ⟨l, _, _, ti', hhist, hblocks, hblocks ▸ reached_pair _ _, hti, ho, ho'⟩

end TokensAliases

end Bismuth
