import Bismuth.Token.Acts
import Mathlib

/-!
# Supply

No holder spends more than they have, and what the holders of a token have is what was issued of it. The
overspend rule looks at the credits below a height and at the debits up to it; that it is met at every height is
the invariant.
-/

namespace Bismuth
open Py

namespace TokenLedger
variable {l : TokenLedger}

theorem total_cons (e : Nat × TokenOp) (l : TokenLedger) (sel : Movement → Bool) (keep : Nat → Bool) :
    total (e :: l) sel keep =
      ((e.2.move?.filter fun m => sel m && keep e.1).map Movement.amount).getD 0 + total l sel keep := rfl

variable {e : Nat × TokenOp}

theorem total_cons_none (l : TokenLedger) {sel : Movement → Bool} {keep : Nat → Bool}
    (h : ∀ m ∈ e.2.move?, (sel m && keep e.1) = false) : total (e :: l) sel keep = total l sel keep := by
  rw [total_cons, Option.filter_eq_none_iff.2 fun m hm => by simpa using h m hm]
  exact zero_add _

theorem total_cons_some (l : TokenLedger) {sel : Movement → Bool} {keep : Nat → Bool}
    (hm : e.2.move? = some m) (h : (sel m && keep e.1) = true) :
    total (e :: l) sel keep = m.amount + total l sel keep := by
  rw [total_cons, hm, Option.filter_some, if_pos h]
  rfl

def Nonneg (l : TokenLedger) : Prop := ∀ e ∈ l, ∀ m ∈ e.2.move?, 0 ≤ m.amount

theorem le_total_cons (l : TokenLedger) (sel : Movement → Bool) (keep : Nat → Bool)
    (h : ∀ m ∈ e.2.move?, 0 ≤ m.amount) : total l sel keep ≤ total (e :: l) sel keep := by
  rw [total_cons]
  cases hm : e.2.move? with
  | none => simp
  | some m =>
    have := h m hm
    rw [Option.filter_some]
    split
    · simp [this]
    · simp

theorem Nonneg.total_le (h : l.Nonneg) (sel : Movement → Bool) {keep keep' : Nat → Bool}
    (hkeep : ∀ n, keep n = true → keep' n = true) : l.total sel keep ≤ l.total sel keep' := by
  refine List.sum_le_sum fun e he => ?_
  cases hm : e.2.move? with
  | none => rfl
  | some m =>
    have hpos := h e he m hm
    simp only [Option.filter_some, Bool.and_eq_true]
    by_cases h1 : sel m = true ∧ keep e.1 = true
    · rw [if_pos h1, if_pos ⟨h1.1, hkeep _ h1.2⟩]
    · rw [if_neg h1]
      split
      · exact hpos
      · rfl

structure Sound (l : TokenLedger) : Prop where
  plain : l.Plain
  nonneg : l.Nonneg
  issuer : ∀ e ∈ l, ∀ m ∈ e.2.move?, m.recipient ≠ issuedMarker ∧
    (m.address = issuedMarker ↔ e.2.issued?.isSome)
  covered : ∀ token party height, party ≠ issuedMarker →
    l.debited token party (· ≤ height) ≤ l.credited token party (· < height)

theorem Sound.nil : Sound [] where
  plain := by simp [Plain]
  nonneg := by simp [Nonneg]
  issuer := by simp
  covered _ _ _ _ := le_rfl

theorem Sound.spendable (h : l.Sound) (ht : NulFree token) (hp : NulFree party) (height : Nat) :
    l.spendable token party height =
      l.credited token party (· < height) - l.debited token party (· ≤ height) :=
  congrArg₂ _ (h.plain.total_hits ht hp (fun _ h _ => h) _) (h.plain.total_hits ht hp (fun _ _ h => h) _)

end TokenLedger

/-! ## Acts that keep the books -/

/-- The names of an act hold no NUL, its parties are not the marker, and an issuance is not negative. -/
def Act.Fair : Act → Prop
  | .issue height token issuer _ supply => height ≤ 2 ^ 63 ∧ NulFree token ∧ NulFree issuer ∧
    issuer ≠ issuedMarker ∧ ∀ n, TokenIndex.readSupply supply = .ok n → 0 ≤ n
  | .transfer t => t.height ≤ 2 ^ 63 ∧ NulFree t.token ∧ NulFree t.sender ∧ NulFree t.recipient ∧
    t.sender ≠ issuedMarker ∧ t.recipient ≠ issuedMarker
  | .name _ => True

theorem Act.Fair.asks {a : Act} (h : a.Fair) : a.Asks := by
  cases a with
  | issue => trivial
  | transfer t => exact ⟨h.2.1, h.2.2.1⟩
  | name => trivial

namespace TokenLedger
variable {l : TokenLedger}

theorem mem_act (h : e ∈ l.act a) : e ∈ l ∨ e.1 = a.height := by
  cases a with
  | issue => exact (mem_step h).imp_right And.left
  | transfer t =>
    refine (mem_step h).imp_right fun h => h.1.trans ?_
    rw [TransferAct.call]
    split
    · rfl
    · rfl
  | name => exact .inl h

theorem nulFree_issuedMarker : NulFree issuedMarker := by decide

theorem Sound.issue {issuer : Text} (hl : l.Sound) (hh : height ≤ 2 ^ 63) (htoken : NulFree token)
    (hissuer : NulFree issuer) (hne : issuer ≠ issuedMarker) (hn : 0 ≤ n) :
    Sound ((height, .issue ⟨token, issuer, issuedMarker, n⟩ txid) :: l) where
  plain := List.forall_mem_cons.2 ⟨⟨hh, by rintro _ ⟨⟩; exact ⟨htoken, hissuer, nulFree_issuedMarker⟩⟩, hl.plain⟩
  nonneg := List.forall_mem_cons.2 ⟨by rintro _ ⟨⟩; exact hn, hl.nonneg⟩
  issuer := List.forall_mem_cons.2 ⟨by rintro _ ⟨⟩; exact ⟨hne, by simp [TokenOp.issued?]⟩, hl.issuer⟩
  covered t p h hp := by
    refine le_trans (le_of_eq (total_cons_none l ?_)) ((hl.covered t p h hp).trans (le_total_cons l _ _ ?_))
    · rintro _ ⟨⟩
      simp [Ne.symm hp]
    · rintro _ ⟨⟩
      exact hn

theorem Sound.noop (hl : l.Sound) (hh : height ≤ 2 ^ 63) : Sound ((height, .noop txid) :: l) where
  plain := List.forall_mem_cons.2 ⟨⟨hh, by rintro _ ⟨⟩⟩, hl.plain⟩
  nonneg := List.forall_mem_cons.2 ⟨by rintro _ ⟨⟩, hl.nonneg⟩
  issuer := List.forall_mem_cons.2 ⟨by rintro _ ⟨⟩, hl.issuer⟩
  covered t p h hp := by
    have hnone (sel : Movement → Bool) (keep : Nat → Bool) :
        total ((height, .noop txid) :: l) sel keep = total l sel keep :=
      total_cons_none l (by rintro _ ⟨⟩)
    rw [debited, credited, hnone, hnone]
    exact hl.covered t p h hp

theorem Sound.transfer {m : Movement} (hl : l.Sound) (hle : ∀ e ∈ l, e.1 ≤ height) (hh : height ≤ 2 ^ 63)
    (hnames : NulFree m.token ∧ NulFree m.recipient ∧ NulFree m.address)
    (hr : m.recipient ≠ issuedMarker) (hs : m.address ≠ issuedMarker) (hpos : 0 < m.amount)
    (hspend : m.amount ≤ l.credited m.token m.address (· < height) -
      l.debited m.token m.address (· ≤ height)) :
    Sound ((height, .transfer m txid) :: l) where
  plain := List.forall_mem_cons.2 ⟨⟨hh, by rintro _ ⟨⟩; exact hnames⟩, hl.plain⟩
  nonneg := List.forall_mem_cons.2 ⟨by rintro _ ⟨⟩; exact hpos.le, hl.nonneg⟩
  issuer := List.forall_mem_cons.2 ⟨by rintro _ ⟨⟩; exact ⟨hr, by simp [TokenOp.issued?, hs]⟩, hl.issuer⟩
  covered t p h hp := by
    have hcredit : l.credited t p (· < h) ≤ credited ((height, .transfer m txid) :: l) t p (· < h) :=
      le_total_cons l _ _ (by rintro _ ⟨⟩; exact hpos.le)
    by_cases hit : (m.token = t ∧ m.address = p) ∧ height ≤ h
    · obtain ⟨⟨rfl, rfl⟩, hge⟩ := hit
      have hdebit : debited ((height, .transfer m txid) :: l) m.token m.address (· ≤ h) =
          m.amount + l.debited m.token m.address (· ≤ h) :=
        total_cons_some l rfl (by simp [hge])
      -- all debits so far are at or below the height of the transfer
      have hsame : l.debited m.token m.address (· ≤ h) = l.debited m.token m.address (· ≤ height) := by
        refine total_congr (fun _ _ _ _ => rfl) fun e he => ?_
        have := hle e he
        rw [decide_eq_decide]
        omega
      have hmono : l.credited m.token m.address (· < height) ≤ l.credited m.token m.address (· < h) :=
        hl.nonneg.total_le _ fun n hn => by
          simp only [decide_eq_true_eq] at hn ⊢
          omega
      omega
    · have hdebit : debited ((height, .transfer m txid) :: l) t p (· ≤ h) = l.debited t p (· ≤ h) := by
        refine total_cons_none l ?_
        rintro _ ⟨⟩
        rw [Bool.and_eq_false_iff]
        by_cases hsel : m.token = t ∧ m.address = p
        · exact .inr (by simpa [hsel] using hit)
        · exact .inl (by simpa using hsel)
      rw [hdebit]
      exact (hl.covered t p h hp).trans hcredit

theorem Sound.act (hl : l.Sound) (hle : ∀ e ∈ l, e.1 ≤ a.height) (ha : a.Fair) : (l.act a).Sound := by
  cases a with
  | name => exact hl
  | issue height token issuer txid supply =>
    obtain ⟨hh, htoken, hissuer, hne, hsupply⟩ := ha
    rw [TokenLedger.act, step]
    split
    · rename_i op hop
      obtain ⟨n, hn, h⟩ := Except.bind_eq_ok.1 hop
      cases h
      split
      · exact hl.issue hh htoken hissuer hne (hsupply n hn)
      · exact hl
    · exact hl
  | transfer t =>
    obtain ⟨hh, htoken, hsender, hrecipient, hs, hr⟩ := ha
    rw [TokenLedger.act, hl.spendable htoken hsender, TransferAct.call, step]
    split
    · rename_i op hop
      split at hop
      · rename_i hpay
        rw [if_pos hpay]
        cases hop
        split
        · exact hl.transfer hle hh ⟨htoken, hrecipient, hsender⟩ hr hs hpay.2 (sub_nonneg.1 hpay.1)
        · exact hl
      · rename_i hpay
        rw [if_neg hpay]
        cases hop
        split
        · exact hl.noop hh
        · exact hl
    · exact hl

theorem Sound.acts {acts : List Act} (hl : l.Sound) (hle : ∀ a ∈ acts, ∀ e ∈ l, e.1 ≤ a.height)
    (hacts : acts.Pairwise (·.height ≤ ·.height)) (ha : ∀ a ∈ acts, a.Fair) :
    (acts.foldl TokenLedger.act l).Sound := by
  induction acts generalizing l with
  | nil => exact hl
  | cons a acts ih =>
    rw [List.pairwise_cons] at hacts
    refine ih (hl.act (hle a (by simp)) (ha a (by simp))) (fun a' ha' e he => ?_) hacts.2
      fun a ha' => ha a (by simp [ha'])
    rcases mem_act he with he | he
    · exact hle a' (by simp [ha']) e he
    · rw [he]
      exact hacts.1 a' ha'

/-! ## What the holders have -/

def issuedTotal (l : TokenLedger) (token : Text) : Int :=
  (l.map fun e => match e.2 with
    | .issue m _ => if m.token = token then m.amount else 0
    | _ => 0).sum

def balance (l : TokenLedger) (token party : Text) : Int :=
  l.credited token party (fun _ => true) - l.debited token party (fun _ => true)

theorem balance_cons_move {e : Nat × TokenOp} (l : TokenLedger) (hm : e.2.move? = some m) (token party : Text) :
    balance (e :: l) token party = (if m.token = token ∧ m.recipient = party then m.amount else 0) -
      (if m.token = token ∧ m.address = party then m.amount else 0) + l.balance token party := by
  rw [balance, credited, debited, total_cons, total_cons, hm, balance, credited, debited]
  simp only [Option.filter_some, Bool.and_true, decide_eq_true_eq, apply_ite (Option.map Movement.amount),
    apply_ite (Option.getD · (0 : Int)), Option.map_some, Option.map_none, Option.getD_some, Option.getD_none]
  ring

theorem balance_cons_none {e : Nat × TokenOp} (l : TokenLedger) (hm : e.2.move? = none) (token party : Text) :
    balance (e :: l) token party = l.balance token party := by
  rw [balance, credited, debited, total_cons, total_cons, hm]
  simp [balance, credited, debited]

theorem Sound.sum_balance {holders : Finset Text} (hl : l.Sound) (hmarker : issuedMarker ∉ holders)
    (hholders : ∀ e ∈ l, ∀ m ∈ e.2.move?, m.token = token →
      ∀ p ∈ [m.recipient, m.address], p ≠ issuedMarker → p ∈ holders) :
    ∑ p ∈ holders, l.balance token p = l.issuedTotal token := by
  replace hl := hl.issuer
  induction l with
  | nil => simp [balance, credited, debited, total, issuedTotal]
  | cons e l ih =>
    have hrest := ih (fun e he => hholders e (by simp [he])) fun e he => hl e (by simp [he])
    have hsum {p : Text} {P : Prop} [Decidable P] (n : Int) (hp : P → p ∈ holders) :
        (∑ q ∈ holders, if P ∧ p = q then n else 0) = if P then n else 0 := by
      by_cases hP : P
      · simp only [hP, true_and, if_true]
        rw [Finset.sum_ite_eq, if_pos (hp hP)]
      · simp [hP]
    cases hm : e.2.move? with
    | none =>
      simp only [balance_cons_none l hm, hrest, issuedTotal, List.map_cons, List.sum_cons]
      cases hop : e.2 with
      | issue => rw [hop] at hm; cases hm
      | transfer => simp
      | noop => simp
    | some m =>
      obtain ⟨hr, hs⟩ := hl e (by simp) m hm
      have hin := hholders e (by simp) m hm
      simp only [balance_cons_move l hm, Finset.sum_add_distrib, Finset.sum_sub_distrib, hrest, issuedTotal,
        List.map_cons, List.sum_cons]
      rw [hsum m.amount fun ht => hin ht m.recipient (by simp) hr]
      cases hop : e.2 with
      | issue m' txid =>
        rw [hop] at hm hs
        cases hm
        have haddr : m.address = issuedMarker := hs.2 rfl
        have hzero : (∑ q ∈ holders, if m.token = token ∧ m.address = q then m.amount else 0) = 0 := by
          refine Finset.sum_eq_zero fun q hq => if_neg ?_
          rintro ⟨-, rfl⟩
          exact hmarker (haddr ▸ hq)
        rw [hzero, sub_zero]
      | transfer m' txid =>
        rw [hop] at hm hs
        cases hm
        have haddr : m.address ≠ issuedMarker := fun h => by simpa [TokenOp.issued?] using hs.1 h
        rw [hsum m.amount fun ht => hin ht m.address (by simp) haddr, sub_self]
      | noop => rw [hop] at hm; cases hm

end TokenLedger

/-! ## The store -/

def TokenIndex.holders (ti : TokenIndex) (token : Text) : Finset Text :=
  (((ti.journal.entries.filterMap fun e => e.2.move?).filter (·.token = token)).flatMap
    fun m => [m.recipient, m.address]).toFinset.erase issuedMarker

theorem sum_supplies {rs : List (Bytes × TokenReg)} (hnodup : (rs.map Prod.fst).Nodup) (h : (k, reg) ∈ rs) :
    (rs.map fun r => if r.1 = k then r.2.supply else 0).sum = reg.supply := by
  induction rs with
  | nil => cases h
  | cons r rs ih =>
    rw [List.map_cons, List.nodup_cons] at hnodup
    rw [List.map_cons, List.sum_cons]
    rcases List.mem_cons.1 h with rfl | h
    · have hzero : (rs.map fun r => if r.1 = k then r.2.supply else 0).sum = 0 := by
        refine List.sum_eq_zero fun n hn => ?_
        obtain ⟨r, hr, rfl⟩ := List.mem_map.1 hn
        exact if_neg fun heq => hnodup.1 (List.mem_map.2 ⟨r, hr, heq⟩)
      rw [hzero, if_pos rfl, add_zero]
    · have hne : r.1 ≠ k := fun heq => hnodup.1 (List.mem_map.2 ⟨_, h, heq.symm⟩)
      rw [if_neg hne, zero_add, ih hnodup.2 h]

/-- A registered token was issued once, with the supply that the registry tells. -/
theorem Refines.issuedTotal {ti : TokenIndex} {live : List LiveOp} (H : Refines ti live)
    (h : ti.tokreg.get? (utf8 token) = some reg) :
    TokenLedger.issuedTotal (live.map LiveOp.core) token = reg.supply := by
  rw [← sum_supplies H.tokreg.nodup (H.tokreg.mem_iff.2 h), TokenLedger.issuedTotal, List.map_map]
  clear H h
  induction live with
  | nil => rfl
  | cons e live ih =>
    rw [List.map_cons, List.sum_cons, ih, List.filterMap_cons_toList, List.map_append, List.sum_append]
    congr 1
    cases hop : e.op with
    | issue m txid => simp [LiveOp.core, LiveOp.reg?, hop, utf8_injective.eq_iff]
    | transfer => simp [LiveOp.core, LiveOp.reg?, hop]
    | noop => simp [LiveOp.core, LiveOp.reg?, hop]

namespace Follows
variable {ti : TokenIndex} {l : TokenLedger}

theorem issuedTotal (H : Follows ti l) (h : ti.tokreg.get? (utf8 token) = some reg) :
    l.issuedTotal token = reg.supply := by
  obtain ⟨live, H, hl⟩ := H
  rw [← H.issuedTotal h]
  exact (hl.symm.map _).sum_eq

theorem exists_issue (H : Follows ti l) (h : ti.tokreg.get? (utf8 token) = some reg) :
    ∃ e ∈ l, ∃ m ∈ e.2.move?, m.token = token := by
  obtain ⟨live, H, hl⟩ := H
  obtain ⟨e, he, hreg⟩ := List.mem_filterMap.1 (H.tokreg.mem_iff.2 h)
  rw [LiveOp.reg?] at hreg
  split at hreg
  · rename_i m txid hop
    simp only [Option.some.injEq, Prod.mk.injEq, utf8_injective.eq_iff] at hreg
    exact ⟨_, hl.mem_iff.1 (List.mem_map_of_mem he), m, by simp [LiveOp.core, hop, TokenOp.move?], hreg.1⟩
  · cases hreg

theorem mem_holders (H : Follows ti l) : p ∈ ti.holders token ↔
    p ≠ issuedMarker ∧ ∃ e ∈ l, ∃ m ∈ e.2.move?, m.token = token ∧ p ∈ [m.recipient, m.address] := by
  obtain ⟨live, H, hl⟩ := H
  have hmoves (m : Movement) : m ∈ ti.journal.entries.filterMap (fun e => e.2.move?) ↔
      ∃ e ∈ l, m ∈ e.2.move? := by
    simp only [List.mem_filterMap, List.Perm.mem_iff H.journal, ← hl.mem_iff, List.mem_map]
    constructor
    · rintro ⟨_, ⟨e, he, rfl⟩, hm⟩
      exact ⟨e.core, ⟨e, he, rfl⟩, hm⟩
    · rintro ⟨_, ⟨e, he, rfl⟩, hm⟩
      exact ⟨_, ⟨e, he, rfl⟩, hm⟩
  rw [TokenIndex.holders, Finset.mem_erase, List.mem_toFinset, List.mem_flatMap]
  refine and_congr_right fun _ => ?_
  simp only [List.mem_filter, hmoves, decide_eq_true_eq]
  constructor
  · rintro ⟨m, ⟨⟨e, he, hm⟩, ht⟩, hp⟩
    exact ⟨e, he, m, hm, ht, hp⟩
  · rintro ⟨e, he, m, hm, ht, hp⟩
    exact ⟨m, ⟨⟨e, he, hm⟩, ht⟩, hp⟩

theorem tokenBalance_nonneg (H : Follows ti l) (hl : l.Sound) (ht : NulFree token) (hp : NulFree party)
    (hne : party ≠ issuedMarker) : 0 ≤ ti.tokenBalance token party := by
  rw [H.tokenBalance hl.plain ht hp]
  have hcover := hl.covered token party (2 ^ 63 + 1) hne
  have hdebit : l.debited token party (· ≤ 2 ^ 63 + 1) = l.debited token party (fun _ => true) :=
    TokenLedger.total_congr (fun _ _ _ _ => rfl) fun e he => by
      have := (hl.plain e he).1
      simp only [decide_eq_true_eq]
      omega
  have hcredit : l.credited token party (· < 2 ^ 63 + 1) = l.credited token party (fun _ => true) :=
    TokenLedger.total_congr (fun _ _ _ _ => rfl) fun e he => by
      have := (hl.plain e he).1
      simp only [decide_eq_true_eq]
      omega
  rw [hdebit, hcredit] at hcover
  omega

theorem sum_tokenBalance (H : Follows ti l) (hl : l.Sound) (h : ti.tokreg.get? (utf8 token) = some reg) :
    ∑ p ∈ ti.holders token, ti.tokenBalance token p = reg.supply := by
  obtain ⟨e, he, m, hm, rfl⟩ := H.exists_issue h
  have ht : NulFree m.token := ((hl.plain e he).2 m hm).1
  have hbalance : ∀ p ∈ ti.holders m.token, ti.tokenBalance m.token p = l.balance m.token p := by
    intro p hp
    obtain ⟨-, e', he', m', hm', -, hp⟩ := H.mem_holders.1 hp
    obtain ⟨-, hr, ha⟩ := (hl.plain e' he').2 m' hm'
    refine H.tokenBalance hl.plain ht ?_
    rcases List.mem_pair.1 hp with rfl | rfl
    · exact hr
    · exact ha
  rw [Finset.sum_congr rfl hbalance, ← H.issuedTotal h]
  refine hl.sum_balance (by simp [TokenIndex.holders]) fun e he m' hm' ht p hp hne => ?_
  exact H.mem_holders.2 ⟨hne, e, he, m', hm', ht, hp⟩

end Follows

/-! ## Blocks -/

namespace TokensAliases
variable (E : Env)

def onBlocks (blocks : List (Nat × List Row)) : TokenIndex :=
  blocks.foldl (fun ti b => onBlock E b.1 b.2 ti) {}

def chainActs (blocks : List (Nat × List Row)) : List Act := blocks.flatMap fun b => blockActs E b.1 b.2

theorem onBlocks_eq (blocks : List (Nat × List Row)) :
    onBlocks E blocks = Act.applyAll (chainActs E blocks) {} :=
  Act.foldl_eq_applyAll (fun ti b => onBlock_eq E b.1 b.2 ti) blocks {}

/-- A row that the books survive: its parties and its token hold no NUL, neither party is the marker, and an
issuance does not issue less than nothing. -/
def FairRow (r : Row) : Prop :=
  (r.operation = opIssue → NulFree (strip (E.lower (tokenField r.openfield))) ∧ NulFree r.recipient ∧
    r.recipient ≠ issuedMarker ∧ ∀ s n, colonField r.openfield 1 = .ok s →
      TokenIndex.readSupply (.str s) = .ok n → 0 ≤ n) ∧
  (r.operation = opTransfer → NulFree (tokenField r.openfield) ∧ NulFree r.address ∧ NulFree r.recipient ∧
    r.address ≠ issuedMarker ∧ r.recipient ≠ issuedMarker)

variable {E}

theorem mem_issueActs (h : a ∈ issueActs E height recipient signature openfield) :
    ∃ supply, colonField openfield 1 = .ok supply ∧
      a = .issue height (strip (E.lower (tokenField openfield))) recipient (signature.take 56) (.str supply) := by
  rw [issueActs] at h
  split at h
  · rename_i supply hs
    exact ⟨supply, hs, List.mem_singleton.1 h⟩
  · cases h

theorem mem_blockActs (h : a ∈ blockActs E height rows) : ∃ r ∈ rows,
    (r.operation = opIssue ∧ a ∈ issueActs E height r.recipient r.signature r.openfield) ∨
    (r.operation = opTransfer ∧ a = .transfer
      (transferAct E height (.str r.timestamp) r.address r.recipient r.signature r.openfield)) ∨
    ∃ c, a = .name c ∧ c.height = height := by
  rcases List.mem_append.1 h with h | h
  · obtain ⟨r, hr, h⟩ := List.mem_flatMap.1 h
    rw [issueRowActs] at h
    split at h
    · rename_i hop
      exact ⟨r, hr, .inl ⟨hop.1, h⟩⟩
    · cases h
  · obtain ⟨r, hr, h⟩ := List.mem_flatMap.1 h
    refine ⟨r, hr, .inr ?_⟩
    rw [otherRowActs] at h
    split at h
    · cases h
    · split at h
      · rename_i hop
        exact .inl ⟨hop, List.mem_singleton.1 h⟩
      · split at h
        · obtain ⟨c, hc, rfl⟩ := List.mem_map.1 h
          exact .inr ⟨c, rfl, height_of_mem_aliasCalls hc⟩
        · split at h
          · obtain rfl := List.mem_singleton.1 h
            exact .inr ⟨_, rfl, rfl⟩
          · cases h

theorem length_issueActs_le (height : Nat) (recipient signature openfield : Text) :
    (issueActs E height recipient signature openfield).length ≤ 1 := by
  rw [issueActs]
  split
  · exact le_rfl
  · exact Nat.zero_le _

theorem length_otherRowActs_le (height : Nat) (r : Row) : (otherRowActs E height r).length ≤ 1 := by
  rw [otherRowActs]
  split
  · exact Nat.zero_le _
  · split
    · exact le_rfl
    · split
      · rw [List.length_map]
        exact length_aliasCalls_le height r.address r.operation r.openfield
      · split
        · exact le_rfl
        · exact Nat.zero_le _

theorem length_flatMap_le_one {f : α → List β} (h : ∀ a, (f a).length ≤ 1) (l : List α) :
    (l.flatMap f).length ≤ l.length := by
  rw [List.length_flatMap]
  refine (List.sum_le_card_nsmul _ 1 ?_).trans (by simp)
  intro n hn
  obtain ⟨a, -, rfl⟩ := List.mem_map.1 hn
  exact h a

theorem length_chainActs_le (blocks : List (Nat × List Row)) :
    (chainActs E blocks).length ≤ 2 * (blocks.flatMap Prod.snd).length := by
  induction blocks with
  | nil => exact Nat.zero_le _
  | cons b blocks ih =>
    have hissue : ∀ r, (issueRowActs E b.1 r).length ≤ 1 := by
      intro r
      rw [issueRowActs]
      split
      · exact length_issueActs_le ..
      · exact Nat.zero_le _
    have h1 := length_flatMap_le_one hissue b.2
    have h2 := length_flatMap_le_one (length_otherRowActs_le (E := E) b.1) b.2
    rw [chainActs, List.flatMap_cons, List.length_append, blockActs, List.length_append,
      List.flatMap_cons, List.length_append]
    rw [chainActs] at ih
    omega

theorem height_of_mem_blockActs (h : a ∈ blockActs E height rows) : a.height = height := by
  obtain ⟨r, -, ⟨-, h⟩ | ⟨-, rfl⟩ | ⟨c, rfl, hc⟩⟩ := mem_blockActs h
  · obtain ⟨supply, -, rfl⟩ := mem_issueActs h
    rfl
  · rfl
  · exact hc

theorem pairwise_chainActs {blocks : List (Nat × List Row)} (h : blocks.Pairwise (·.1 ≤ ·.1)) :
    (chainActs E blocks).Pairwise (·.height ≤ ·.height) := by
  rw [chainActs, List.pairwise_flatMap]
  refine ⟨fun b _ => List.pairwise_of_forall_mem_list fun a ha a' ha' => ?_, h.imp fun hle a ha a' ha' => ?_⟩
  · exact ((height_of_mem_blockActs ha).trans (height_of_mem_blockActs ha').symm).le
  · rw [height_of_mem_blockActs ha, height_of_mem_blockActs ha']
    exact hle

theorem FairRow.fair (hr : ∀ r ∈ rows, FairRow E r) (hh : height ≤ 2 ^ 63)
    (h : a ∈ blockActs E height rows) : a.Fair := by
  obtain ⟨r, hmem, ⟨hop, h⟩ | ⟨hop, rfl⟩ | ⟨c, rfl, -⟩⟩ := mem_blockActs h
  · obtain ⟨supply, hs, rfl⟩ := mem_issueActs h
    obtain ⟨ht, hrec, hne, hsupply⟩ := (hr r hmem).1 hop
    exact ⟨hh, ht, hrec, hne, fun n => hsupply supply n hs⟩
  · exact ⟨hh, (hr r hmem).2 hop⟩
  · trivial

/-- Blocks with fair rows, in the order of their heights: nobody is overdrawn, and what the holders of a
registered token have is the supply of its issuance. -/
theorem token_supply_conserved (E : Env) (blocks : List (Nat × List Row))
    (horder : blocks.Pairwise (·.1 ≤ ·.1)) (hheight : ∀ b ∈ blocks, b.1 ≤ 2 ^ 63)
    (hcount : (blocks.flatMap Prod.snd).length < 2 ^ 63)
    (hfair : ∀ b ∈ blocks, ∀ r ∈ b.2, FairRow E r) :
    (∀ token holder, NulFree token → NulFree holder → holder ≠ issuedMarker →
      0 ≤ (onBlocks E blocks).tokenBalance token holder) ∧
    ∀ token reg, (onBlocks E blocks).tokreg.get? (utf8 token) = some reg →
      ∑ holder ∈ (onBlocks E blocks).holders token, (onBlocks E blocks).tokenBalance token holder =
        reg.supply := by
  have hacts : ∀ a ∈ chainActs E blocks, a.Fair := by
    intro a ha
    obtain ⟨b, hb, ha⟩ := List.mem_flatMap.1 ha
    exact FairRow.fair (hfair b hb) (hheight b hb) ha
  have hlen := length_chainActs_le (E := E) blocks
  have hempty : ({} : TokenIndex).seq = 0 := rfl
  have H : Follows (onBlocks E blocks) ((chainActs E blocks).foldl TokenLedger.act []) := by
    rw [onBlocks_eq]
    exact (Tracks.empty.applyAll _ (by omega) fun a ha => (hacts a ha).asks).follows
  have hsound : TokenLedger.Sound ((chainActs E blocks).foldl TokenLedger.act []) :=
    TokenLedger.Sound.nil.acts (by simp) (pairwise_chainActs horder) hacts
  exact ⟨fun _ _ => H.tokenBalance_nonneg hsound, fun _ _ => H.sum_tokenBalance hsound⟩

/-- Lower case of the ASCII letters; no row has the signature that is replaced by a digest. -/
def Env.ascii : Env := ⟨fun s => s.map Char.toLower, fun _ _ _ _ _ _ => []⟩

def plainRow (address recipient signature operation openfield : Text) : Row :=
  { (default : Row) with
    timestamp := "1.00".toList, address, recipient, amount := ['0'], signature, fee := ['0'], reward := ['0']
    operation, openfield }

def spentBlocks : List (Nat × List Row) :=
  [(1, [plainRow (hexAddress 'a') (hexAddress 'a') ['1'] opIssue "t:9".toList]),
    (2, [plainRow (hexAddress 'a') (hexAddress 'b') ['2'] opTransfer "t:3".toList])]

theorem token_supply_conserved_sample :
    (onBlocks .ascii spentBlocks).tokreg.get? (utf8 ['t']) = some ⟨1, hexAddress 'a', ['1'], 9⟩ ∧
    ∑ holder ∈ (onBlocks .ascii spentBlocks).holders ['t'],
      (onBlocks .ascii spentBlocks).tokenBalance ['t'] holder = 9 := by
  have hreg : (onBlocks .ascii spentBlocks).tokreg.get? (utf8 ['t']) = some ⟨1, hexAddress 'a', ['1'], 9⟩ := by
    decide +kernel
  refine ⟨hreg, (token_supply_conserved .ascii spentBlocks (by decide) (by decide) (by decide) ?_).2 _ _ hreg⟩
  rintro _ (_ | ⟨_, _ | ⟨_, ⟨⟩⟩⟩) _ (_ | ⟨_, ⟨⟩⟩)
  · refine ⟨fun _ => ⟨by decide, by decide, by decide, ?_⟩, fun h => absurd h (by decide)⟩
    intro s n hs hn
    obtain rfl : "9".toList = s := Except.ok.inj ((by decide +kernel : colonField _ 1 = _).symm.trans hs)
    obtain rfl : 9 = n := Except.ok.inj ((by decide +kernel : TokenIndex.readSupply _ = _).symm.trans hn)
    decide
  · exact ⟨fun h => absurd h (by decide), fun _ => by decide⟩

/-- An issuance of minus five tokens leaves its recipient overdrawn. -/
theorem negative_issuance_overdraws :
    (onBlocks .ascii [(1, [plainRow (hexAddress 'a') (hexAddress 'a') ['1'] opIssue "t:-5".toList])]).tokenBalance
      ['t'] (hexAddress 'a') = -5 := by
  decide +kernel

end TokensAliases

end Bismuth
