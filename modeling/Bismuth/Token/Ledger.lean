import Bismuth.Token.Live

/-!
# The token ledger

What the token part of the index is for: a list of operations with their heights, each with a transaction of
its own and each issuance with a token of its own. Credits, debits and counts are sums over that list. The
store follows the list, whatever sequence numbers its keys hold.
-/

namespace Bismuth
open Py

/-- The operations that are recorded, with their heights. -/
abbrev TokenLedger := List (Nat × TokenOp)

def TokenOp.issued? : TokenOp → Option Text
  | .issue m _ => some m.token
  | _ => none

namespace TokenLedger
variable (l : TokenLedger)

def knows (token : Text) : Bool := l.any fun e => e.2.issued? = some token

def sees (txid : Text) : Bool := l.any fun e => e.2.txid = txid

def Takes (height : Nat) (op : TokenOp) : Prop :=
  op.Fits height ∧ l.sees op.txid = false ∧ ∀ token ∈ op.issued?, l.knows token = false

instance (height : Nat) (op : TokenOp) : Decidable (l.Takes height op) := by
  unfold Takes
  infer_instance

def step (c : TokenCall) : TokenLedger :=
  match c.op with
  | .ok op => if l.Takes c.height op then (c.height, op) :: l else l
  | .error _ => l

/-- The sum of the amounts of the movements that `sel` selects at heights that `keep` keeps. -/
def total (sel : Movement → Bool) (keep : Nat → Bool) : Int :=
  (l.map fun e => ((e.2.move?.filter fun m => sel m && keep e.1).map Movement.amount).getD 0).sum

def credited (token party : Text) (keep : Nat → Bool) : Int :=
  l.total (fun m => m.token = token ∧ m.recipient = party) keep

def debited (token party : Text) (keep : Nat → Bool) : Int :=
  l.total (fun m => m.token = token ∧ m.address = party) keep

variable {l} {l' : TokenLedger}

theorem sees_perm (h : l.Perm l') (txid : Text) : l.sees txid = l'.sees txid := h.any_eq

theorem knows_perm (h : l.Perm l') (token : Text) : l.knows token = l'.knows token := h.any_eq

theorem takes_perm (h : l.Perm l') : l.Takes height op ↔ l'.Takes height op := by
  simp only [Takes, sees_perm h, knows_perm h]

theorem step_perm (h : l.Perm l') (c : TokenCall) : (l.step c).Perm (l'.step c) := by
  rw [step, step]
  split
  · simp only [takes_perm h]
    split
    · exact h.cons _
    · exact h
  · exact h

theorem total_perm (h : l.Perm l') (sel : Movement → Bool) (keep : Nat → Bool) :
    l.total sel keep = l'.total sel keep := (h.map _).sum_eq

end TokenLedger

def LiveOp.core (e : LiveOp) : Nat × TokenOp := (e.height, e.op)

def Follows (ti : TokenIndex) (l : TokenLedger) : Prop :=
  ∃ live, Refines ti live ∧ (live.map LiveOp.core).Perm l

namespace Refines
variable {ti : TokenIndex} {live : List LiveOp}

theorem seen_iff (H : Refines ti live) (txid : Text) :
    ti.seen.get? (utf8 txid) = none ↔ TokenLedger.sees (live.map LiveOp.core) txid = false := by
  rw [H.seen.get?_eq_none, TokenLedger.sees, List.any_eq_false]
  simp only [List.mem_map, forall_exists_index, and_imp, forall_apply_eq_imp_iff₂, LiveOp.core,
    decide_eq_true_eq, ne_eq, utf8_injective.eq_iff]

theorem tokreg_iff (H : Refines ti live) (token : Text) :
    ti.tokreg.get? (utf8 token) = none ↔ TokenLedger.knows (live.map LiveOp.core) token = false := by
  rw [H.tokreg.get?_eq_none, TokenLedger.knows, List.any_eq_false]
  simp only [List.mem_map, List.mem_filterMap, forall_exists_index, and_imp, forall_apply_eq_imp_iff₂,
    LiveOp.core, decide_eq_true_eq]
  constructor
  · intro h e he hissued
    cases hop : e.op with
    | issue m txid =>
      rw [hop] at hissued
      cases hissued
      exact h _ e he (by rw [LiveOp.reg?, hop]) rfl
    | transfer =>
      rw [hop] at hissued
      cases hissued
    | noop =>
      rw [hop] at hissued
      cases hissued
  · intro h r e he hr heq
    rw [LiveOp.reg?] at hr
    split at hr
    · rename_i m txid hop
      cases hr
      exact h e he (by rw [hop, TokenOp.issued?, utf8_injective heq])
    · cases hr

/-- The store takes what the ledger takes, as long as its counter does not run over. -/
theorem takes_iff (H : Refines ti live) (hs : ti.seq + 1 < 2 ^ 64) :
    ti.Takes height op ↔ TokenLedger.Takes (live.map LiveOp.core) height op := by
  have hissue : (∀ m txid, op = .issue m txid → ti.tokreg.get? (utf8 m.token) = none) ↔
      ∀ token ∈ op.issued?, TokenLedger.knows (live.map LiveOp.core) token = false := by
    cases op with
    | issue m txid =>
      simp only [TokenOp.issue.injEq, and_imp, TokenOp.issued?, Option.mem_def, Option.some.injEq]
      constructor
      · rintro h _ rfl
        exact (H.tokreg_iff _).1 (h m txid rfl rfl)
      · rintro h _ _ rfl rfl
        exact (H.tokreg_iff _).2 (h _ rfl)
    | transfer => simp [TokenOp.issued?]
    | noop => simp [TokenOp.issued?]
  rw [TokenIndex.Takes, TokenLedger.Takes, H.seen_iff, hissue]
  simp only [hs, true_and]

theorem step (H : Refines ti live) (hs : ti.seq + 1 < 2 ^ 64) (c : TokenCall) :
    ∃ live', Refines (c.apply ti) live' ∧
      live'.map LiveOp.core = TokenLedger.step (live.map LiveOp.core) c ∧
      (c.apply ti).seq ≤ ti.seq + 1 := by
  rw [TokenLedger.step]
  cases hop : c.op with
  | error e =>
    rw [c.apply_of_not_takes fun op h => by rw [hop] at h; cases h]
    exact ⟨live, H, rfl, Nat.le_succ _⟩
  | ok op =>
    simp only
    by_cases htakes : TokenLedger.Takes (live.map LiveOp.core) c.height op
    · rw [if_pos htakes, c.apply_of_takes hop ((H.takes_iff hs).2 htakes)]
      exact ⟨_, H.record ((H.takes_iff hs).2 htakes), rfl, le_rfl⟩
    · rw [if_neg htakes, c.apply_of_not_takes fun op' h => ?_]
      · exact ⟨live, H, rfl, Nat.le_succ _⟩
      · obtain rfl : op = op' := Except.ok.inj (hop.symm.trans h)
        rwa [H.takes_iff hs]

end Refines

namespace Follows
variable {ti ti' : TokenIndex} {l l' : TokenLedger}

theorem empty : Follows {} [] := ⟨[], .empty, .nil⟩

theorem fits (H : Follows ti l) (he : e ∈ l) : e.2.Fits e.1 := by
  obtain ⟨live, H, hl⟩ := H
  obtain ⟨e', he', rfl⟩ := List.mem_map.1 (hl.mem_iff.2 he)
  exact H.fits e' he'

theorem step (H : Follows ti l) (hs : ti.seq + 1 < 2 ^ 64) (c : TokenCall) :
    Follows (c.apply ti) (l.step c) ∧ (c.apply ti).seq ≤ ti.seq + 1 := by
  obtain ⟨live, H, hl⟩ := H
  obtain ⟨live', H', hstep, hseq⟩ := H.step hs c
  refine ⟨⟨live', H', ?_⟩, hseq⟩
  rw [hstep]
  exact TokenLedger.step_perm hl c

theorem rollback (H : Follows ti l) (hh : height < 2 ^ 64) :
    ∃ ti', ti.tokensRollback height = .ok ti' ∧ Follows ti' (l.filter (·.1 < height)) ∧
      ti'.seq = ti.seq ∧ ti'.tokAnchor = height - 1 := by
  obtain ⟨live, H, hl⟩ := H
  obtain ⟨ti', hr, H', hs, ha⟩ := H.rollback hh
  refine ⟨ti', hr, ⟨_, H', ?_⟩, hs, ha⟩
  have := hl.filter fun e => decide (e.1 < height)
  rwa [List.filter_map] at this

/-! ## Answers -/

theorem hasToken (H : Follows ti l) (token : Text) : ti.hasToken token =
    if utf8 token = [] then .error .badValsizeError else .ok (l.knows token) := by
  obtain ⟨live, H, hl⟩ := H
  rw [TokenIndex.hasToken, lmdbGet]
  split
  · rfl
  · have := H.tokreg_iff token
    rw [TokenLedger.knows_perm hl] at this
    rw [Except.ok_bind]
    cases hget : ti.tokreg.get? (utf8 token) with
    | none => rw [this.1 hget]; rfl
    | some v =>
      rw [hget, iff_comm, Bool.eq_false_iff] at this
      simp only [reduceCtorEq, iff_false, not_not] at this
      rw [this]
      rfl

theorem hasTxid (H : Follows ti l) (txid : Text) : ti.hasTxid txid =
    if utf8 txid = [] then .error .badValsizeError else .ok (l.sees txid) := by
  obtain ⟨live, H, hl⟩ := H
  rw [TokenIndex.hasTxid, lmdbGet]
  split
  · rfl
  · have := H.seen_iff txid
    rw [TokenLedger.sees_perm hl] at this
    rw [Except.ok_bind]
    cases hget : ti.seen.get? (utf8 txid) with
    | none => rw [this.1 hget]; rfl
    | some v =>
      rw [hget, iff_comm, Bool.eq_false_iff] at this
      simp only [reduceCtorEq, iff_false, not_not] at this
      rw [this]
      rfl

end Follows

/-- A movement whose key starts with the names that are scanned for. -/
def Movement.hits (token party : Text) (of : Movement → Text) (m : Movement) : Bool :=
  (partyPrefix token party).isPrefixOf (partyPrefix m.token (of m))

theorem sumParty_of_lists {t : OrdTable Bytes Int} {live : List LiveOp} (of : Movement → Text)
    (h : t.Lists (live.filterMap fun e => e.op.move?.map fun m =>
      (partyPrefix m.token (of m) ++ hqBytes e.height e.seq, m.amount)))
    (hfits : ∀ e ∈ live, e.op.Fits e.height) (ht : NulFree token) (hp : NulFree party)
    (keep : Nat → Bool) :
    sumParty t token party keep =
      TokenLedger.total (live.map LiveOp.core) (Movement.hits token party of) keep := by
  rw [sumParty, ((List.Perm.filter _ h).map Prod.snd).sum_eq, TokenLedger.total, List.map_map]
  clear h
  induction live with
  | nil => rfl
  | cons e live ih =>
    rw [List.map_cons, List.sum_cons, ← ih fun e he => hfits e (by simp [he]),
      List.filterMap_cons_toList, List.filter_append, List.map_append, List.sum_append]
    congr 1
    cases hm : e.op.move? with
    | none => simp [LiveOp.core, hm]
    | some m =>
      simp only [Function.comp, LiveOp.core, hm, Option.map_some, Option.toList_some,
        List.filter_cons, List.filter_nil, partyPrefix_isPrefixOf_append ht hp,
        tailHeight_append _ (hfits e (by simp)).1, Movement.hits, Option.filter_some]
      split <;> simp

namespace Follows
variable {ti ti' : TokenIndex} {l l' : TokenLedger}

theorem sumCred (H : Follows ti l) (ht : NulFree token) (hp : NulFree party) (keep : Nat → Bool) :
    sumParty ti.cred token party keep = l.total (Movement.hits token party Movement.recipient) keep := by
  obtain ⟨live, H, hl⟩ := H
  rw [sumParty_of_lists Movement.recipient H.cred H.fits ht hp, TokenLedger.total_perm hl]

theorem sumDeb (H : Follows ti l) (ht : NulFree token) (hp : NulFree party) (keep : Nat → Bool) :
    sumParty ti.deb token party keep = l.total (Movement.hits token party Movement.address) keep := by
  obtain ⟨live, H, hl⟩ := H
  rw [sumParty_of_lists Movement.address H.deb H.fits ht hp, TokenLedger.total_perm hl]

theorem addrtok (H : Follows ti l) : ti.addrtok.Counts (l.flatMap fun e => e.2.links) := by
  obtain ⟨live, H, hl⟩ := H
  refine H.addrtok.perm ?_
  have := hl.flatMap_right fun e => e.2.links
  rwa [List.flatMap_map] at this

theorem tokset (H : Follows ti l) : ti.tokset.Counts (l.flatMap fun e => e.2.tokens) := by
  obtain ⟨live, H, hl⟩ := H
  refine H.tokset.perm ?_
  have := hl.flatMap_right fun e => e.2.tokens
  rwa [List.flatMap_map] at this

end Follows

end Bismuth
