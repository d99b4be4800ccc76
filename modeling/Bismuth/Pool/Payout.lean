import Bismuth.Lib.Dict
import Bismuth.Mining
import Bismuth.Pool.Store

/-!
# Payouts

`optipoolware.payout`: the rewards since the earliest unpaid share are divided among the addresses with enough
shares, a transaction to each of them is submitted to the node, and their shares are retired.
-/

namespace Bismuth
open Py

namespace Pool

/-! ## The reward window -/

/-- `v < w`. -/
def valLt : Val → Val → Except Err Bool
  | .str s, .str t => .ok (s < t)
  | .str _, _ | _, .str _ => .error .typeError
  | .int a, .int b => .ok (a < b)
  | .int a, .float y => .ok (floatLt (.ofRat a) y)
  | .float x, .int b => .ok (floatLt x (.ofRat b))
  | .float x, .float y => .ok (floatLt x y)

/-- `min` of a sequence. -/
def minVal : List Val → Except Err Val
  | [] => .error .valueError
  | v :: vs => vs.foldlM (fun m x => do return if ← valLt x m then x else m) v

/-- `block_threshold`; any exception gives the time of the run. -/
def blockThreshold (unpaid : List Share) (now : ℚ) : Number :=
  match minVal (unpaid.map (·.timestamp)) >>= Val.toFloat with
  | .ok x => x
  | .error _ => .ofRat now

/-! ## What is paid -/

structure Terms where
  threshold : Number
  myfee : Number
  othfee : Number
  altAdd : Text

def unpaidSumByAddress (unpaid : List Share) : Dict Text Nat :=
  unpaid.foldl (fun d r => d.set r.address ((d.get? r.address).getD 0 + r.shares)) ∅

structure Payment where
  recipient : Text
  claim : Text
  /-- The payment is for the shares of the recipient. -/
  forShares : Bool
  deriving DecidableEq

def divide (x y : Number) : Except Err Number :=
  match floatDiv x y with
  | some z => .ok z
  | none => .error .zeroDivisionError

def rewardTotal (t : Terms) (superTotal : Number) : Except Err Number :=
  Py.float (formatFixed 8
    (floatDivNat (floatMul (floatSub (.ofRat 100) (floatAdd t.myfee t.othfee)) superTotal) 100))

/-- `at`: the part of the fees for the other address. -/
def altClaim (t : Terms) (superTotal total : Number) : Text :=
  match floatDiv t.othfee (floatAdd t.myfee t.othfee) with
  | some part => formatFixed 8 (floatMul (floatSub superTotal total) part)
  | none => ['0']

/-- `payadd`: the addresses with more shares than the threshold. -/
def payadd (sums : Dict Text Nat) (sharesThreshold : Int) : List (Text × Nat) :=
  sums.entries.filter fun e => sharesThreshold < e.2

/-- `paylist`, empty when nothing is due. -/
def paylist (t : Terms) (sums : Dict Text Nat) (superTotal : Number) : Except Err (List Payment) := do
  let total ← rewardTotal t superTotal
  if floatLt (.ofRat 0) total && 0 < sums.values.sum then do
    let perShare ← divide total (.ofRat (sums.values.sum : Nat))
    let payadd := payadd sums (← floor (← divide t.threshold perShare))
    let perShare := (floatDiv total (.ofRat ((payadd.map Prod.snd).sum : Nat))).getD (.ofRat 0)
    return payadd.map (fun e => ⟨e.1, formatFixed 8 (floatMul (.ofRat e.2) perShare), true⟩) ++
      if floatLt (.ofRat 0) t.othfee then [⟨t.altAdd, altClaim t superTotal total, false⟩] else []
  else return []

/-! ## A run -/

/-- The record of a share that is solved at `now`. -/
def newShare (address : Text) (now : ℚ) : Share := ⟨address, 1, .str (formatFixed 2 (.ofRat now)), false⟩

structure Arrival where
  nonce : Text
  address : Text
  now : ℚ

def PoolStore.arrive (st : PoolStore) (l : List Arrival) : PoolStore :=
  l.foldl (fun st a =>
    match st.recordShare a.nonce (newShare a.address a.now) with
    | .ok (some st') => st'
    | _ => st) st

structure Run where
  terms : Terms
  /-- The pool's transactions with a reward, as the node tells them: timestamp and reward. -/
  rewards : List (Number × Number)
  now : ℚ
  /-- Whether the node accepts the transaction of a payment. -/
  accepted : Nat → Bool
  /-- The shares that arrive before a payment is marked, and after the last one. -/
  arrivals : Nat → List Arrival
  touched : ℚ

def Run.superTotal (r : Run) (unpaid : List Share) : Number :=
  ((r.rewards.filter fun b => floatLe (blockThreshold unpaid r.now) b.1).map Prod.snd).foldl floatAdd (.ofRat 0)

/-- The loop over the payments: the shares of the recipient are marked whatever the node answered. -/
def Run.pay (r : Run) : Nat → List Payment → PoolStore → PoolStore
  | _, [], st => st
  | i, p :: ps, st => r.pay (i + 1) ps ((st.arrive (r.arrivals i)).markPaid p.recipient)

/-- The store when the payment with index `i` is marked. -/
def Run.before (r : Run) (ps : List Payment) (i : Nat) (st : PoolStore) : PoolStore :=
  (r.pay 0 (ps.take i) st).arrive (r.arrivals i)

def Run.payments (r : Run) (st : PoolStore) : Except Err (List Payment) :=
  paylist r.terms (unpaidSumByAddress st.unpaid) (r.superTotal st.unpaid)

/-- The store after the loop, with new stamps if anything was paid. -/
def Run.stamp (r : Run) (ps : List Payment) (st : PoolStore) : PoolStore :=
  if ps = [] then st
  else ((r.pay 0 ps st).arrive (r.arrivals ps.length)).touchTimestamps r.touched

def Run.payout (r : Run) (st : PoolStore) : Except Err PoolStore := do
  let ps ← r.payments st
  return ((r.stamp ps st).arrive (r.arrivals (ps.length + 1))).closeRound

/-! ## Histories -/

/-- The stores that histories of recorded shares and payout runs lead to; `T` holds of the clock whenever a share
is stamped. -/
inductive Reached (T : ℚ → Prop) : PoolStore → Prop
  | empty : Reached T .empty
  | record {st st' : PoolStore} {nonce address : Text} {now : ℚ} (h : Reached T st) (hnow : T now)
      (hrec : st.recordShare nonce (newShare address now) = .ok (some st')) : Reached T st'
  | payout {st st' : PoolStore} {r : Run} (h : Reached T st) (hr : ∀ i, ∀ a ∈ r.arrivals i, T a.now)
      (hp : r.payout st = .ok st') : Reached T st'

/-- The round holds a share of the address that is marked so. -/
def PoolStore.Has (st : PoolStore) (paid : Bool) (address : Text) : Prop :=
  ∃ k r, st.shares.get? k = some r ∧ r.address = address ∧ r.paid = paid

namespace PoolStore
variable {st : PoolStore} {paid : Bool} {address : Text}

theorem get?_append (key : Bytes) (rec : Share) (k : Nat) :
    (st.append key rec).shares.get? k = if k = st.seq + 1 then some rec else st.shares.get? k :=
  OrdTable.get?_put ..

theorem get?_append_of_some {key : Bytes} {rec r : Share} {k : Nat} (h : st.shares.get? k = some r) :
    (st.append key rec).shares.get? k = some r := by
  rw [get?_append, if_neg, h]
  rintro rfl
  rw [(st.le_seq _ (Nat.lt_succ_self _)).1] at h
  cases h

/-- What other threads record: nothing is lost, what is new is a new share, and the archive stays. -/
theorem arrive_spec (st : PoolStore) (l : List Arrival) :
    (st.arrive l).archive = st.archive ∧ (∀ k r, st.shares.get? k = some r → (st.arrive l).shares.get? k = some r) ∧
      ∀ k r, (st.arrive l).shares.get? k = some r →
        st.shares.get? k = some r ∨ ∃ a ∈ l, r = newShare a.address a.now := by
  induction l generalizing st with
  | nil => exact ⟨rfl, fun _ _ h => h, fun _ _ h => .inl h⟩
  | cons a l ih =>
    rw [arrive, List.foldl_cons, ← arrive]
    split
    · rename_i st' hrec
      obtain ⟨-, rfl⟩ := recordShare_eq_some hrec
      obtain ⟨harch, hkeep, hnew⟩ := ih (st.append (utf8 a.nonce) (newShare a.address a.now))
      refine ⟨harch, fun k r h => hkeep k r (get?_append_of_some h), fun k r h => ?_⟩
      obtain h | ⟨b, hb, rfl⟩ := hnew k r h
      · rw [get?_append] at h
        split at h
        · cases h
          exact .inr ⟨a, List.mem_cons_self, rfl⟩
        · exact .inl h
      · exact .inr ⟨b, List.mem_cons_of_mem _ hb, rfl⟩
    · obtain ⟨harch, hkeep, hnew⟩ := ih st
      refine ⟨harch, hkeep, fun k r h => (hnew k r h).imp_right ?_⟩
      rintro ⟨b, hb, rfl⟩
      exact ⟨b, List.mem_cons_of_mem _ hb, rfl⟩

theorem Has.arrive (h : st.Has paid address) (l : List Arrival) : (st.arrive l).Has paid address := by
  obtain ⟨k, r, hget, ha, hp⟩ := h
  exact ⟨k, r, (arrive_spec st l).2.1 k r hget, ha, hp⟩

theorem has_true_arrive (l : List Arrival) : (st.arrive l).Has true address ↔ st.Has true address := by
  refine ⟨?_, fun h => h.arrive l⟩
  rintro ⟨k, r, hget, ha, hp⟩
  obtain hget | ⟨a, -, rfl⟩ := (arrive_spec st l).2.2 k r hget
  · exact ⟨k, r, hget, ha, hp⟩
  · cases hp

theorem get?_markPaid {b : Text} {k : Nat} {r : Share} (h : (st.markPaid b).shares.get? k = some r) :
    ∃ r₀, st.shares.get? k = some r₀ ∧ r.address = r₀.address ∧ r.timestamp = r₀.timestamp ∧
      r.paid = (decide (r₀.address = b) || r₀.paid) := by
  rw [markPaid, rewrite, OrdTable.get?_map] at h
  obtain ⟨r₀, hget, rfl⟩ := Option.map_eq_some_iff.1 h
  refine ⟨r₀, hget, ?_⟩
  by_cases hb : r₀.address = b <;> cases hp : r₀.paid <;> simp [hb, hp]

theorem exists_markPaid {k : Nat} {r₀ : Share} (h : st.shares.get? k = some r₀) (b : Text) :
    ∃ r, (st.markPaid b).shares.get? k = some r ∧ r.address = r₀.address ∧
      r.paid = (decide (r₀.address = b) || r₀.paid) := by
  have hget : (st.markPaid b).shares.get? k =
      some (if r₀.address = b && !r₀.paid then { r₀ with paid := true } else r₀) := by
    rw [markPaid, rewrite, OrdTable.get?_map, h]
    rfl
  obtain ⟨r₁, h₁, ha, -, hp⟩ := get?_markPaid hget
  rw [h] at h₁
  cases h₁
  exact ⟨_, hget, ha, hp⟩

/-- What is marked after a payment was marked before or belongs to the recipient. -/
theorem has_true_markPaid {b : Text} :
    (st.markPaid b).Has true address ↔ st.Has true address ∨ b = address ∧ st.Has false address := by
  constructor
  · rintro ⟨k, r, hget, ha, hp⟩
    obtain ⟨r₀, hget₀, ha₀, -, hp₀⟩ := get?_markPaid hget
    rw [hp, eq_comm, Bool.or_eq_true, decide_eq_true_iff] at hp₀
    cases hpaid : r₀.paid with
    | true => exact .inl ⟨k, r₀, hget₀, ha₀.symm.trans ha, hpaid⟩
    | false =>
      rw [hpaid] at hp₀
      obtain hb | hb := hp₀
      · exact .inr ⟨hb.symm.trans (ha₀.symm.trans ha), k, r₀, hget₀, ha₀.symm.trans ha, hpaid⟩
      · cases hb
  · rintro (⟨k, r₀, hget, ha, hp⟩ | ⟨rfl, k, r₀, hget, ha, hp⟩)
    · obtain ⟨r, hget', ha', hp'⟩ := exists_markPaid hget b
      exact ⟨k, r, hget', ha'.trans ha, by rw [hp', hp, Bool.or_true]⟩
    · obtain ⟨r, hget', ha', hp'⟩ := exists_markPaid hget b
      exact ⟨k, r, hget', ha'.trans ha, by rw [hp', ha, decide_eq_true rfl, Bool.true_or]⟩

theorem Has.markPaid_of_ne (h : st.Has false address) {b : Text} (hb : b ≠ address) :
    (st.markPaid b).Has false address := by
  obtain ⟨k, r₀, hget, rfl, hp⟩ := h
  obtain ⟨r, hget', ha', hp'⟩ := exists_markPaid hget b
  exact ⟨k, r, hget', ha', by rw [hp', hp, Bool.or_false, decide_eq_false hb.symm]⟩

theorem has_touchTimestamps {ts : ℚ} : (st.touchTimestamps ts).Has paid address ↔ st.Has paid address := by
  constructor
  · rintro ⟨k, r, hget, ha, hp⟩
    rw [touchTimestamps, rewrite, OrdTable.get?_map] at hget
    obtain ⟨r₀, hget₀, rfl⟩ := Option.map_eq_some_iff.1 hget
    exact ⟨k, r₀, hget₀, ha, hp⟩
  · rintro ⟨k, r₀, hget, ha, hp⟩
    refine ⟨k, { r₀ with timestamp := .float (.ofRat ts) }, ?_, ha, hp⟩
    rw [touchTimestamps, rewrite, OrdTable.get?_map, hget]
    rfl

theorem not_has_true_closeRound : ¬st.closeRound.Has true address := by
  rintro ⟨k, r, hget, -, hp⟩
  rw [closeRound, OrdTable.get?_filter, Option.filter_eq_some_iff, hp] at hget
  cases hget.2

/-- A share of the address moves to the archive exactly when one is marked. -/
theorem closeRound_archives (st : PoolStore) (address : Text) :
    (∃ k r, st.archive.get? k = none ∧ st.closeRound.archive.get? k = some r ∧ r.address = address) ↔
      st.Has true address := by
  constructor
  · rintro ⟨k, r, hnone, hget, ha⟩
    rw [closeRound, get?_archived, hnone, Option.or_none, Option.filter_eq_some_iff] at hget
    exact ⟨k, r, hget.1, ha, hget.2⟩
  · rintro ⟨k, r, hget, ha, hp⟩
    refine ⟨k, r, st.disjoint k r hget, ?_, ha⟩
    rw [closeRound, get?_archived, hget, Option.filter_some, if_pos hp]
    rfl

end PoolStore

theorem Reached.not_has_true {T : ℚ → Prop} {st : PoolStore} (h : Reached T st) (address : Text) :
    ¬st.Has true address := by
  induction h with
  | empty =>
    rintro ⟨k, r, hget, -⟩
    cases hget
  | record _ _ hrec ih =>
    obtain ⟨-, rfl⟩ := PoolStore.recordShare_eq_some hrec
    rintro ⟨k, r, hget, ha, hp⟩
    rw [PoolStore.get?_append] at hget
    split at hget
    · cases hget
      cases hp
    · exact ih ⟨k, r, hget, ha, hp⟩
  | payout _ _ hp _ =>
    obtain ⟨ps, -, hp⟩ := Except.bind_eq_ok.1 hp
    cases hp
    exact PoolStore.not_has_true_closeRound

/-! ## What a run retires -/

namespace Run
variable {r : Run} {ps : List Payment} {st st' : PoolStore} {address : Text}

theorem archive_pay (i : Nat) (ps : List Payment) (st : PoolStore) : (r.pay i ps st).archive = st.archive := by
  induction ps generalizing i st with
  | nil => rfl
  | cons p ps ih =>
    rw [pay, ih]
    exact (PoolStore.arrive_spec st _).1

/-- What is marked after the loop belongs to a payment, and was in the round as the payment was marked. -/
theorem has_true_pay (i : Nat) :
    (r.pay i ps st).Has true address ↔ st.Has true address ∨
      ∃ j p, ps[j]? = some p ∧ p.recipient = address ∧
        ((r.pay i (ps.take j) st).arrive (r.arrivals (i + j))).Has false address := by
  induction ps generalizing i st with
  | nil => simp [pay]
  | cons p ps ih =>
    rw [pay, ih, PoolStore.has_true_markPaid, PoolStore.has_true_arrive, or_assoc]
    refine or_congr_right ⟨?_, ?_⟩
    · rintro (⟨hp, hhas⟩ | ⟨j, q, hq, ha, hhas⟩)
      · exact ⟨0, p, rfl, hp, hhas⟩
      · refine ⟨j + 1, q, hq, ha, ?_⟩
        rwa [List.take_succ_cons, pay, Nat.add_comm j 1, ← Nat.add_assoc]
    · rintro ⟨j, q, hq, ha, hhas⟩
      cases j with
      | zero =>
        cases hq
        exact .inl ⟨ha, hhas⟩
      | succ j =>
        refine .inr ⟨j, q, hq, ha, ?_⟩
        rwa [List.take_succ_cons, pay, Nat.add_comm j 1, ← Nat.add_assoc] at hhas

/-- A share that waits for a payment to its address is marked by the end of the loop. -/
theorem has_true_pay_of_mem (h : st.Has false address) {p : Payment} (hp : p ∈ ps) (ha : p.recipient = address)
    (i : Nat) : (r.pay i ps st).Has true address := by
  induction ps generalizing i st with
  | nil => cases hp
  | cons q ps ih =>
    rw [pay]
    by_cases hq : q.recipient = address
    · rw [has_true_pay]
      exact .inl (PoolStore.has_true_markPaid.2 (.inr ⟨hq, h.arrive _⟩))
    · obtain rfl | hp := List.mem_cons.1 hp
      · exact absurd ha hq
      · exact ih ((h.arrive _).markPaid_of_ne hq) hp (i + 1)

def Retires (st st' : PoolStore) (address : Text) : Prop :=
  ∃ k s, st.archive.get? k = none ∧ st'.archive.get? k = some s ∧ s.address = address

theorem retires_iff (hps : r.payments st = .ok ps) (h : r.payout st = .ok st') :
    Retires st st' address ↔ (r.pay 0 ps st).Has true address := by
  rw [payout, hps] at h
  cases h
  have harch : ((r.stamp ps st).arrive (r.arrivals (ps.length + 1))).archive = st.archive := by
    rw [(PoolStore.arrive_spec _ _).1, stamp]
    split
    · rfl
    · exact ((PoolStore.arrive_spec _ _).1).trans (archive_pay 0 ps st)
  have hclose := PoolStore.closeRound_archives ((r.stamp ps st).arrive (r.arrivals (ps.length + 1))) address
  rw [harch] at hclose
  refine hclose.trans ((PoolStore.has_true_arrive _).trans ?_)
  rw [stamp]
  split
  · rename_i hnil
    rw [hnil]
    rfl
  · exact PoolStore.has_touchTimestamps.trans (PoolStore.has_true_arrive _)

end Run

/-! ## The payment list -/

theorem exists_of_unpaidSumByAddress {unpaid : List Share} {address : Text} {n : Nat}
    (h : (unpaidSumByAddress unpaid).get? address = some n) : ∃ s ∈ unpaid, s.address = address := by
  suffices hgen : ∀ d : Dict Text Nat,
      (unpaid.foldl (fun d s => d.set s.address ((d.get? s.address).getD 0 + s.shares)) d).get? address = some n →
        d.get? address = some n ∨ ∃ s ∈ unpaid, s.address = address by
    exact (hgen ∅ h).resolve_left nofun
  clear h
  induction unpaid generalizing n with
  | nil => exact fun d h => .inl h
  | cons s unpaid ih =>
    intro d h
    rw [List.foldl_cons] at h
    obtain h | ⟨s', hs', ha⟩ := ih _ h
    · rw [Dict.get?_set] at h
      split at h
      · rename_i ha
        exact .inr ⟨s, List.mem_cons_self, ha⟩
      · exact .inl h
    · exact .inr ⟨s', List.mem_cons_of_mem _ hs', ha⟩

theorem paylist_spec {t : Terms} {sums : Dict Text Nat} {superTotal : Number} {ps : List Payment}
    (h : paylist t sums superTotal = .ok ps) :
    ((ps.filter (·.forShares)).map (·.recipient)).Nodup ∧
      ∀ p ∈ ps, p.forShares → ∃ n, sums.get? p.recipient = some n := by
  obtain ⟨total, -, h⟩ := Except.bind_eq_ok.1 h
  split at h
  · obtain ⟨perShare, -, h⟩ := Except.bind_eq_ok.1 h
    obtain ⟨quotient, -, h⟩ := Except.bind_eq_ok.1 h
    obtain ⟨threshold, -, h⟩ := Except.bind_eq_ok.1 h
    cases h
    refine ⟨?_, ?_⟩
    · simp only [List.filter_append, List.filter_map, Function.comp_def, List.filter_true, List.map_append, List.map_map]
      have hfee : (if floatLt (.ofRat 0) t.othfee then [⟨t.altAdd, altClaim t superTotal total, false⟩] else
          ([] : List Payment)).filter (·.forShares) = [] := by
        split <;> rfl
      rw [hfee, List.map_nil, List.append_nil]
      exact sums.nodup.sublist (List.filter_sublist.map Prod.fst)
    · intro p hp hfor
      obtain hp | hp := List.mem_append.1 hp
      · obtain ⟨e, he, rfl⟩ := List.mem_map.1 hp
        exact ⟨e.2, Dict.mem_entries.1 (List.mem_of_mem_filter he)⟩
      · split at hp
        · cases List.mem_singleton.1 hp
          cases hfor
        · cases hp
  · cases h
    exact ⟨.nil, nofun⟩

theorem paylist_unique {t : Terms} {sums : Dict Text Nat} {superTotal : Number} {ps : List Payment}
    (h : paylist t sums superTotal = .ok ps) {i j : Nat} {p q : Payment} (hp : ps[i]? = some p) (hq : ps[j]? = some q)
    (hpfor : p.forShares) (hqfor : q.forShares) (hpq : p.recipient = q.recipient) : i = j := by
  have hpair := List.pairwise_filter.1 (List.pairwise_map.1 (paylist_spec h).1)
  have hne : ∀ {i j : Nat} {p q : Payment}, ps[i]? = some p → ps[j]? = some q → p.forShares = true → q.forShares = true →
      i < j → p.recipient ≠ q.recipient := by
    intro i j p q hp hq hpfor hqfor hij
    obtain ⟨hi, rfl⟩ := List.getElem?_eq_some_iff.1 hp
    obtain ⟨hj, rfl⟩ := List.getElem?_eq_some_iff.1 hq
    exact List.pairwise_iff_getElem.1 hpair i j hi hj hij hpfor hqfor
  obtain hij | hij | hij := lt_trichotomy i j
  · exact absurd hpq (hne hp hq hpfor hqfor hij)
  · exact hij
  · exact absurd hpq.symm (hne hq hp hqfor hpfor hij)

/-- The node accepted a transaction to the address that was computed from its shares. -/
def Run.Backs (r : Run) (ps : List Payment) (address : Text) : Prop :=
  ∃ i p, ps[i]? = some p ∧ p.forShares ∧ p.recipient = address ∧ r.accepted i

/-- **When only paid shares are retired.** A payout run moves a share to the archive only for an accepted payment to
its address, computed from its shares, exactly when the node accepts every payment for shares, and the address of
the fee has no share in the round as its payment is marked, unless it is paid for shares itself. -/
theorem payout_retires_paid_iff {T : ℚ → Prop} {st st' : PoolStore} {r : Run} {ps : List Payment}
    (hst : Reached T st) (hps : r.payments st = .ok ps) (h : r.payout st = .ok st') :
    (∀ k s, st.archive.get? k = none → st'.archive.get? k = some s → r.Backs ps s.address) ↔
      (∀ i p, ps[i]? = some p → p.forShares → r.accepted i) ∧
        ∀ i p, ps[i]? = some p → p.forShares = false → (r.before ps i st).Has false p.recipient →
          ∃ q ∈ ps, q.forShares ∧ q.recipient = p.recipient := by
  have hretires : ∀ address, Run.Retires st st' address ↔
      ∃ j p, ps[j]? = some p ∧ p.recipient = address ∧ (r.before ps j st).Has false address := by
    intro address
    rw [Run.retires_iff hps h, Run.has_true_pay, or_iff_right (hst.not_has_true address)]
    simp only [Nat.zero_add, Run.before]
  constructor
  · intro hpaid
    have hback : ∀ {address}, Run.Retires st st' address → r.Backs ps address := by
      rintro _ ⟨k, s, hnone, hget, rfl⟩
      exact hpaid k s hnone hget
    refine ⟨fun i p hp hfor => ?_, fun i p hp hfor hhas => ?_⟩
    · obtain ⟨n, hsum⟩ := (paylist_spec hps).2 p (List.mem_of_getElem? hp) hfor
      obtain ⟨s, hs, ha⟩ := exists_of_unpaidSumByAddress hsum
      obtain ⟨hunpaid, k, hget⟩ := PoolStore.mem_unpaid.1 hs
      have hmarked := Run.has_true_pay_of_mem (r := r) ⟨k, s, hget, ha, hunpaid⟩ (List.mem_of_getElem? hp) rfl 0
      obtain ⟨j, q, hq, hqfor, hqr, hacc⟩ := hback ((Run.retires_iff hps h).2 hmarked)
      rwa [paylist_unique hps hp hq hfor hqfor hqr.symm]
    · obtain ⟨j, q, hq, hqfor, hqr, -⟩ := hback ((hretires _).2 ⟨i, p, hp, rfl, hhas⟩)
      exact ⟨q, List.mem_of_getElem? hq, hqfor, hqr⟩
  · rintro ⟨hacc, hfee⟩ k s hnone hget
    obtain ⟨j, p, hp, ha, hhas⟩ := (hretires s.address).1 ⟨k, s, hnone, hget, rfl⟩
    cases hfor : p.forShares with
    | true => exact ⟨j, p, hp, hfor, ha, hacc j p hp hfor⟩
    | false =>
      obtain ⟨q, hq, hqfor, hqr⟩ := hfee j p hp hfor (ha ▸ hhas)
      obtain ⟨i, hq⟩ := List.getElem?_of_mem hq
      exact ⟨i, q, hq, hqfor, hqr.trans ha, hacc i q hq hqfor⟩

section Sample

private def minerA : Text := List.replicate 56 'a'

private def oneShare : PoolStore := PoolStore.empty.append (utf8 "abc1".toList) (newShare minerA 1700000000)

private theorem reached_oneShare : Reached (fun _ => True) oneShare :=
  @Reached.record _ _ _ "abc1".toList minerA 1700000000 .empty trivial rfl

private def sampleRun (accepted : Bool) : Run where
  terms := ⟨.ofRat 1, .ofRat 0, .ofRat 0, List.replicate 56 'f'⟩
  rewards := [(.ofRat 1700000100, .ofRat 10)]
  now := 1700003600
  accepted _ := accepted
  arrivals _ := []
  touched := 1700003601

private def samplePayments : List Payment := [⟨minerA, "10.00000000".toList, true⟩]

private theorem payments_sample (accepted : Bool) : (sampleRun accepted).payments oneShare = .ok samplePayments := by
  have h : ((sampleRun true).payments oneShare).toOption = some samplePayments := by decide +kernel
  exact Except.toOption_eq_some.1 h

private theorem payout_sample (accepted : Bool) :
    (sampleRun accepted).payout oneShare = .ok ((sampleRun accepted).stamp samplePayments oneShare).closeRound := by
  rw [Run.payout, payments_sample]
  rfl

/-- The node accepts the payment, and the share is retired. -/
theorem payout_retires_paid_sample :
    ∃ (r : Run) (st st' : PoolStore) (ps : List Payment), Reached (fun _ => True) st ∧ r.payments st = .ok ps ∧
      r.payout st = .ok st' ∧ (st'.archive.get? 1).isSome ∧
      ∀ k s, st.archive.get? k = none → st'.archive.get? k = some s → r.Backs ps s.address := by
  refine ⟨_, _, _, _, reached_oneShare, payments_sample true, payout_sample true, by decide +kernel, ?_⟩
  refine (payout_retires_paid_iff reached_oneShare (payments_sample true) (payout_sample true)).2 ⟨fun _ _ _ _ => rfl, ?_⟩
  intro i p hp hfor
  obtain rfl := List.mem_singleton.1 (List.mem_of_getElem? hp)
  cases hfor

/-- The submission of the only payment fails; the share is retired all the same. -/
theorem payout_retires_unpaid :
    ∃ (r : Run) (st st' : PoolStore) (ps : List Payment) (k : Nat) (s : Share), Reached (fun _ => True) st ∧
      r.payments st = .ok ps ∧ r.payout st = .ok st' ∧ st.archive.get? k = none ∧ st'.archive.get? k = some s ∧
      ¬r.Backs ps s.address := by
  refine ⟨_, _, _, _, 1, ⟨minerA, 1, .float (.ofRat 1700003601), true⟩, reached_oneShare, payments_sample false,
    payout_sample false, rfl, by decide +kernel, ?_⟩
  rintro ⟨i, p, -, -, -, hacc⟩
  cases hacc

end Sample

end Pool

end Bismuth
