import Bismuth.Address
import Bismuth.Token.Ledger

/-!
# Runs of the token index

A rollback leaves the store that answers as if the operations from its height on had never come. Sums are over
the operations of the token and the party that are asked for, as long as no name holds the separator of the keys.
-/

namespace Bismuth
open Py

/-! ## Calls -/

def TokenCall.applyAll (cs : List TokenCall) (ti : TokenIndex) : TokenIndex :=
  cs.foldl (fun ti c => c.apply ti) ti

/-- The store after `tokens_rollback`, which leaves it as it is when it raises. -/
def TokenIndex.rolledBack (ti : TokenIndex) (height : Nat) : TokenIndex :=
  match ti.tokensRollback height with
  | .ok ti' => ti'
  | .error _ => ti

namespace TokenLedger
variable {l : TokenLedger}

def applyAll (cs : List TokenCall) (l : TokenLedger) : TokenLedger := cs.foldl step l

theorem mem_step (h : e ∈ l.step c) :
    e ∈ l ∨ e.1 = c.height ∧ c.op = .ok e.2 ∧ l.Takes c.height e.2 := by
  rw [step] at h
  split at h
  · rename_i op hop
    split at h
    · rename_i htakes
      rcases List.mem_cons.1 h with rfl | h
      · exact .inr ⟨rfl, hop, htakes⟩
      · exact .inl h
    · exact .inl h
  · exact .inl h

theorem filter_step_of_le (h : height ≤ c.height) :
    (l.step c).filter (·.1 < height) = l.filter (·.1 < height) := by
  rw [step]
  split
  · split
    · exact List.filter_cons_of_neg (by simpa using h)
    · rfl
  · rfl

theorem filter_applyAll_of_le {cs : List TokenCall} (h : ∀ c ∈ cs, height ≤ c.height) :
    (applyAll cs l).filter (·.1 < height) = l.filter (·.1 < height) := by
  induction cs generalizing l with
  | nil => rfl
  | cons c cs ih =>
    rw [applyAll, List.foldl_cons]
    exact (ih fun c hc => h c (by simp [hc])).trans (filter_step_of_le (h c (by simp)))

/-- Calls in the order of their heights: those from a height on add nothing below it, and those below it
come before. -/
theorem filter_applyAll {cs : List TokenCall} (hl : ∀ e ∈ l, e.1 < height)
    (hcs : cs.Pairwise (·.height ≤ ·.height)) :
    (applyAll cs l).filter (·.1 < height) = applyAll (cs.filter (·.height < height)) l := by
  induction cs generalizing l with
  | nil => exact List.filter_eq_self.2 fun e he => by simpa using hl e he
  | cons c cs ih =>
    rw [List.pairwise_cons] at hcs
    by_cases hc : c.height < height
    · rw [List.filter_cons_of_pos (by simpa using hc), applyAll, List.foldl_cons]
      refine ih (fun e he => ?_) hcs.2
      rcases mem_step he with he | ⟨heq, -⟩
      · exact hl e he
      · rwa [heq]
    · have hall : ∀ c' ∈ c :: cs, height ≤ c'.height := by
        intro c' hc'
        rcases List.mem_cons.1 hc' with rfl | hc'
        · omega
        · have := hcs.1 c' hc'
          omega
      have hnone : (c :: cs).filter (·.height < height) = [] :=
        List.filter_eq_nil_iff.2 fun c' hc' => by simpa using hall c' hc'
      rw [filter_applyAll_of_le hall, hnone]
      exact List.filter_eq_self.2 fun e he => by simpa using hl e he

end TokenLedger

namespace Follows
variable {ti ti' : TokenIndex} {l l' : TokenLedger}

theorem applyAll (H : Follows ti l) (cs : List TokenCall) (hs : ti.seq + cs.length < 2 ^ 64) :
    Follows (TokenCall.applyAll cs ti) (TokenLedger.applyAll cs l) ∧
      (TokenCall.applyAll cs ti).seq ≤ ti.seq + cs.length := by
  induction cs generalizing ti l with
  | nil => exact ⟨H, le_rfl⟩
  | cons c cs ih =>
    rw [List.length_cons] at hs ⊢
    obtain ⟨hstep, hseq⟩ := H.step (by omega) c
    obtain ⟨hall, hle⟩ := ih hstep (by omega)
    refine ⟨hall, hle.trans ?_⟩
    omega

theorem rolledBack (H : Follows ti l) (height : Nat) :
    Follows (ti.rolledBack height) (l.filter (·.1 < height)) ∧ (ti.rolledBack height).seq = ti.seq := by
  rw [TokenIndex.rolledBack]
  by_cases hh : height < 2 ^ 64
  · obtain ⟨ti', hr, H', hs, -⟩ := H.rollback hh
    rw [hr]
    exact ⟨H', hs⟩
  · -- no operation is recorded at a height that does not fit
    have hr : ti.tokensRollback height = .error .structError := by
      rw [TokenIndex.tokensRollback, journalKey, if_neg fun h => hh h.1]
      rfl
    rw [hr, List.filter_eq_self.2 fun e he => ?_]
    · exact ⟨H, rfl⟩
    · have := (H.fits he).1
      simp only [decide_eq_true_eq]
      omega

end Follows

/-! ## Exact rollback -/

structure SameAnswers (ti ti' : TokenIndex) : Prop where
  hasToken : ∀ token, ti.hasToken token = ti'.hasToken token
  hasTxid : ∀ txid, ti.hasTxid txid = ti'.hasTxid txid
  tokenCredit : ∀ token address belowHeight, NulFree token → NulFree address →
    ti.tokenCredit token address belowHeight = ti'.tokenCredit token address belowHeight
  tokenDebit : ∀ token address uptoHeight, NulFree token → NulFree address →
    ti.tokenDebit token address uptoHeight = ti'.tokenDebit token address uptoHeight
  tokensUser : ∀ address, ti.tokensUser address = ti'.tokensUser address
  tokenTransfers : ∀ token, ti.tokenTransfers token = ti'.tokenTransfers token

theorem Follows.sameAnswers {ti ti' : TokenIndex} {l : TokenLedger} (H : Follows ti l)
    (H' : Follows ti' l) : SameAnswers ti ti' where
  hasToken token := by rw [H.hasToken, H'.hasToken]
  hasTxid txid := by rw [H.hasTxid, H'.hasTxid]
  tokenCredit token address _ ht ha := (H.sumCred ht ha _).trans (H'.sumCred ht ha _).symm
  tokenDebit token address _ ht ha := (H.sumDeb ht ha _).trans (H'.sumDeb ht ha _).symm
  tokensUser address := by rw [TokenIndex.tokensUser, TokenIndex.tokensUser, H.addrtok.unique H'.addrtok]
  tokenTransfers token := by
    rw [TokenIndex.tokenTransfers, TokenIndex.tokenTransfers, H.tokset.unique H'.tokset]

/-- The store after a rollback answers, then and after any further calls, as the store that has been given
the calls below the height only. The bound is that of the counter of the operations. -/
theorem tokensRollback_exact (ops more : List TokenCall) (height : Nat)
    (hops : ops.Pairwise (·.height ≤ ·.height)) (hcount : ops.length + more.length < 2 ^ 64) :
    SameAnswers
      (TokenCall.applyAll more ((TokenCall.applyAll ops {}).rolledBack height))
      (TokenCall.applyAll more (TokenCall.applyAll (ops.filter (·.height < height)) {})) := by
  have hlen := ops.length_filter_le (·.height < height)
  have hempty : ({} : TokenIndex).seq = 0 := rfl
  obtain ⟨Hall, hall⟩ := Follows.empty.applyAll ops (by omega)
  obtain ⟨Hback, hback⟩ := Hall.rolledBack height
  obtain ⟨Hbelow, hbelow⟩ :=
    Follows.empty.applyAll (ops.filter (·.height < height)) (by omega)
  rw [TokenLedger.filter_applyAll (by simp) hops] at Hback
  exact (Hback.applyAll more (by omega)).1.sameAnswers (Hbelow.applyAll more (by omega)).1

/-- An issuance, a spend, a transfer that is taken back and a transfer after it. -/
theorem tokensRollback_exact_sample :
    SameAnswers
      (TokenCall.applyAll [.applyTransfer 2 ['t'] ['a'] ['c'] ['4'] (.int 1)]
        ((TokenCall.applyAll [.registerIssue 1 ['t'] ['a'] ['1'] (.int 9),
          .applyTransfer 2 ['t'] ['a'] ['b'] ['2'] (.int 3), .markNoop 3 ['3']] {}).rolledBack 2))
      (TokenCall.applyAll [.applyTransfer 2 ['t'] ['a'] ['c'] ['4'] (.int 1)]
        (TokenCall.applyAll [.registerIssue 1 ['t'] ['a'] ['1'] (.int 9)] {})) :=
  tokensRollback_exact [.registerIssue 1 ['t'] ['a'] ['1'] (.int 9),
    .applyTransfer 2 ['t'] ['a'] ['b'] ['2'] (.int 3), .markNoop 3 ['3']]
    [.applyTransfer 2 ['t'] ['a'] ['c'] ['4'] (.int 1)] 2 (by decide) (by decide)

/-! ## Sums -/

inductive TokenStep where
  | call (c : TokenCall)
  | rollback (height : Nat)

namespace TokenStep

def apply (ti : TokenIndex) : TokenStep → TokenIndex
  | call c => c.apply ti
  | rollback height => ti.rolledBack height

def applyAll (ss : List TokenStep) : TokenIndex := ss.foldl apply {}

def live (l : TokenLedger) : TokenStep → TokenLedger
  | call c => l.step c
  | rollback height => l.filter (·.1 < height)

def liveAll (ss : List TokenStep) : TokenLedger := ss.foldl live []

end TokenStep

/-- The parties and the token of a call hold no NUL and its height is one that `token_balance` reads. -/
def TokenCall.Plain (c : TokenCall) : Prop :=
  c.height ≤ 2 ^ 63 ∧
    ∀ op, c.op = .ok op → ∀ m ∈ op.move?, NulFree m.token ∧ NulFree m.recipient ∧ NulFree m.address

def TokenStep.Plain : TokenStep → Prop
  | call c => c.Plain
  | rollback _ => True

/-- The operations of a ledger whose names hold no NUL. -/
def TokenLedger.Plain (l : TokenLedger) : Prop :=
  ∀ e ∈ l, e.1 ≤ 2 ^ 63 ∧ ∀ m ∈ e.2.move?, NulFree m.token ∧ NulFree m.recipient ∧ NulFree m.address

theorem TokenLedger.Plain.live {l : TokenLedger} (hl : l.Plain) (hs : s.Plain) :
    TokenLedger.Plain (TokenStep.live l s) := by
  intro e he
  cases s with
  | call c =>
    rcases TokenLedger.mem_step he with he | ⟨heq, hop, -⟩
    · exact hl e he
    · rw [heq]
      exact ⟨hs.1, hs.2 _ hop⟩
  | rollback height => exact hl e (List.mem_of_mem_filter he)

theorem TokenLedger.Plain.liveAll {ss : List TokenStep} (h : ∀ s ∈ ss, s.Plain) :
    TokenLedger.Plain (TokenStep.liveAll ss) := by
  suffices ∀ l : TokenLedger, l.Plain → TokenLedger.Plain (ss.foldl TokenStep.live l) from
    this [] (by simp [TokenLedger.Plain])
  intro l hl
  induction ss generalizing l with
  | nil => exact hl
  | cons s ss ih => exact ih (fun s hs => h s (by simp [hs])) _ (hl.live (h s (by simp)))

theorem Follows.liveAll {ss : List TokenStep} (hs : ss.length < 2 ^ 64) :
    Follows (TokenStep.applyAll ss) (TokenStep.liveAll ss) := by
  suffices ∀ ti l, Follows ti l → ti.seq + ss.length < 2 ^ 64 →
      Follows (ss.foldl TokenStep.apply ti) (ss.foldl TokenStep.live l) from
    this {} [] .empty (by simpa using hs)
  clear hs
  induction ss with
  | nil => exact fun _ _ H _ => H
  | cons s ss ih =>
    intro ti l H hs
    rw [List.length_cons] at hs
    cases s with
    | call c =>
      obtain ⟨hstep, hseq⟩ := H.step (by omega) c
      exact ih _ _ hstep (by show (c.apply ti).seq + _ < _; omega)
    | rollback height =>
      obtain ⟨hback, hseq⟩ := H.rolledBack height
      exact ih _ _ hback (by show (ti.rolledBack height).seq + _ < _; omega)

namespace TokenLedger
variable {l : TokenLedger}

theorem total_congr {sel sel' : Movement → Bool} {keep keep' : Nat → Bool}
    (hsel : ∀ e ∈ l, ∀ m ∈ e.2.move?, sel m = sel' m) (hkeep : ∀ e ∈ l, keep e.1 = keep' e.1) :
    l.total sel keep = l.total sel' keep' := by
  rw [total, total]
  refine congrArg List.sum (List.map_congr_left fun e he => ?_)
  cases hm : e.2.move? with
  | none => rfl
  | some m => simp only [Option.filter_some, hsel e he m hm, hkeep e he]

theorem Plain.total_hits (hl : l.Plain) (ht : NulFree token) (hp : NulFree party)
    {of : Movement → Text} (hof : ∀ m : Movement, NulFree m.recipient → NulFree m.address → NulFree (of m))
    (keep : Nat → Bool) : l.total (Movement.hits token party of) keep =
      l.total (fun m => m.token = token ∧ of m = party) keep := by
  refine total_congr (fun e he m hm => ?_) fun _ _ => rfl
  obtain ⟨h1, h2, h3⟩ := (hl e he).2 m hm
  rw [Bool.eq_iff_iff, Movement.hits, partyPrefix_isPrefixOf_iff ht hp h1 (hof m h2 h3),
    decide_eq_true_eq, eq_comm, eq_comm (a := party)]

end TokenLedger

namespace Follows
variable {ti : TokenIndex} {l : TokenLedger} (H : Follows ti l) (hl : l.Plain) (ht : NulFree token)
  (hp : NulFree party)
include H hl ht hp

theorem tokenCredit (height : Nat) :
    ti.tokenCredit token party height = l.credited token party (· < height) :=
  (H.sumCred ht hp _).trans (hl.total_hits ht hp (fun _ h _ => h) _)

theorem tokenDebit (height : Nat) :
    ti.tokenDebit token party height = l.debited token party (· ≤ height) :=
  (H.sumDeb ht hp _).trans (hl.total_hits ht hp (fun _ _ h => h) _)

theorem tokenBalance : ti.tokenBalance token party =
    l.credited token party (fun _ => true) - l.debited token party (fun _ => true) := by
  have hkeep : ∀ e ∈ l, decide (e.1 ≤ 2 ^ 63) = true := fun e he => decide_eq_true (hl e he).1
  rw [TokenIndex.tokenBalance, H.sumCred ht hp, H.sumDeb ht hp,
    hl.total_hits ht hp fun _ h _ => h, hl.total_hits ht hp fun _ _ h => h]
  exact congrArg₂ _ (TokenLedger.total_congr (fun _ _ _ _ => rfl) hkeep)
    (TokenLedger.total_congr (fun _ _ _ _ => rfl) hkeep)

end Follows

/-- In every run whose names hold no NUL the sums are over the live operations of the token and the party. -/
theorem token_sums_isolated (ss : List TokenStep) (hcount : ss.length < 2 ^ 64)
    (hss : ∀ s ∈ ss, s.Plain) (token party : Text) (ht : NulFree token) (hp : NulFree party) :
    (∀ height, (TokenStep.applyAll ss).tokenCredit token party height =
      (TokenStep.liveAll ss).credited token party (· < height)) ∧
    (∀ height, (TokenStep.applyAll ss).tokenDebit token party height =
      (TokenStep.liveAll ss).debited token party (· ≤ height)) ∧
    (TokenStep.applyAll ss).tokenBalance token party =
      (TokenStep.liveAll ss).credited token party (fun _ => true) -
        (TokenStep.liveAll ss).debited token party (fun _ => true) := by
  have H : Follows (TokenStep.applyAll ss) (TokenStep.liveAll ss) := .liveAll hcount
  have hl : TokenLedger.Plain (TokenStep.liveAll ss) := .liveAll hss
  exact ⟨H.tokenCredit hl ht hp, H.tokenDebit hl ht hp, H.tokenBalance hl ht hp⟩

def hexAddress (c : Char) : Text := List.replicate 56 c

theorem token_sums_isolated_sample :
    (TokenStep.applyAll [.call (.registerIssue 1 ['t'] (hexAddress 'a') ['1'] (.int 9)),
      .call (.applyTransfer 2 ['t'] (hexAddress 'a') (hexAddress 'b') ['2'] (.int 3)),
      .rollback 2]).tokenBalance ['t'] (hexAddress 'a') =
    (TokenStep.liveAll [.call (.registerIssue 1 ['t'] (hexAddress 'a') ['1'] (.int 9)),
      .call (.applyTransfer 2 ['t'] (hexAddress 'a') (hexAddress 'b') ['2'] (.int 3)),
      .rollback 2]).credited ['t'] (hexAddress 'a') (fun _ => true) -
    (TokenStep.liveAll [.call (.registerIssue 1 ['t'] (hexAddress 'a') ['1'] (.int 9)),
      .call (.applyTransfer 2 ['t'] (hexAddress 'a') (hexAddress 'b') ['2'] (.int 3)),
      .rollback 2]).debited ['t'] (hexAddress 'a') (fun _ => true) := by
  refine (token_sums_isolated _ (by decide) ?_ ['t'] (hexAddress 'a') (by decide) (by decide)).2.2
  rintro _ (_ | ⟨_, _ | ⟨_, _ | ⟨_, ⟨⟩⟩⟩⟩)
  · refine ⟨by decide, ?_⟩
    rintro _ ⟨⟩ _ ⟨⟩
    decide
  · refine ⟨by decide, ?_⟩
    rintro _ ⟨⟩ _ ⟨⟩
    decide
  · trivial

/-- The name of a token can hold the separator of the keys and an address: what `b` gets of it is counted to
`a`, under another name. -/
theorem token_scan_crosses_names :
    addressIsValid Prims.toy (hexAddress 'a') ∧ addressIsValid Prims.toy (hexAddress 'b') ∧
    (TokenStep.applyAll [.call (.registerIssue 1 ('t' :: '\x00' :: hexAddress 'a') (hexAddress 'b') ['1']
      (.int 9))]).tokenCredit ['t'] (hexAddress 'a') 2 = 9 ∧
    TokenStep.liveAll [.call (.registerIssue 1 ('t' :: '\x00' :: hexAddress 'a') (hexAddress 'b') ['1']
      (.int 9))] =
      [(1, .issue ⟨'t' :: '\x00' :: hexAddress 'a', hexAddress 'b', issuedMarker, 9⟩ ['1'])] ∧
    (TokenStep.liveAll [.call (.registerIssue 1 ('t' :: '\x00' :: hexAddress 'a') (hexAddress 'b') ['1']
      (.int 9))]).credited ['t'] (hexAddress 'a') (· < 2) = 0 := by
  decide +kernel

end Bismuth
