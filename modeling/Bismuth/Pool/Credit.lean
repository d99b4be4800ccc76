import Bismuth.Pool.Payout

/-!
# Credit for shares

`optipoolware.process_share` and the system around it: the pool hands out the network's tip as work, miners submit
nonces with the block hash they say they worked on, and every payout run forgets the nonces of the round.
-/

namespace Bismuth
open Py

namespace Pool

/-! ## A submitted share -/

/-- The pool's own settings; `alnum` is `str.isalnum` on one character. -/
structure Settings where
  address : Text
  altAdd : Text
  mdiff : Int
  alnum : Char → Bool

/-- `new_hash`, `new_diff` and `new_pow`. -/
structure Work where
  hash : Text
  diff : Int
  newPow : Bool

/-- A share as a miner submits it, with the clock and whether the node tells its mempool. -/
structure Submission where
  miner : Text
  nonce : Text
  blockhash : Text
  now : ℚ
  mempool : Bool

/-- What `process_share` answers. -/
inductive Answer where
  /-- "bad nonce format" -/
  | badNonce
  | measured (accepted blockFound : Bool) (realDiff : Nat) (duplicate : Bool) (shareDiff : Int)
  deriving DecidableEq

variable (H : Heavy3) (set : Settings)

/-- The test that `s_test` and `n_test` share. -/
def Settings.wellFormed (s : Text) : Bool :=
  s ≠ [] && s.all set.alnum && s.any fun c => c ∈ ['a', 'b', 'c', 'd', 'e', 'f']

def Settings.sTest (s : Text) : Bool := set.wellFormed s && s.length = 56

def Settings.nTest (s : Text) : Bool := set.wellFormed s && s.length < 129

/-- `mining.diffme_heavy3(address, nonce, db_block_hash, new_pow)`; none when its loop has no end. -/
def realDiff (w : Work) (sh : Submission) : Option Nat :=
  diffmeHeavy3 H ⟨false, true, false, w.newPow, set.address⟩ sh.nonce sh.blockhash

/-- `diff_shares`. -/
def Settings.shareDiff (w : Work) : Int := if w.diff < set.mdiff then w.diff else set.mdiff

/-- The end of `process_share`: the share is recorded. -/
def recordSubmission (w : Work) (st : PoolStore) (sh : Submission) (real : Nat) : Except Err (Answer × PoolStore) := do
  let found : Bool := w.diff ≤ real
  if ← st.nonceSeen sh.nonce then return (.measured false found real true (set.shareDiff w), st)
  else if set.shareDiff w ≤ real then
    let miner := if set.sTest sh.miner then sh.miner else set.altAdd
    match ← st.recordShare sh.nonce (newShare miner sh.now) with
    | some st' => return (.measured true found real false (set.shareDiff w), st')
    | none => return (.measured false found real true (set.shareDiff w), st)
  else return (.measured false found real false (set.shareDiff w), st)

/-- `process_share`; none when it does not return. A block that is found is sent on first, which needs the node's
mempool. -/
def processShare (w : Work) (st : PoolStore) (sh : Submission) : Option (Except Err (Answer × PoolStore)) :=
  if !set.nTest sh.nonce then some (.ok (.badNonce, st))
  else (realDiff H set w sh).map fun (real : Nat) =>
    if w.diff ≤ real && !sh.mempool then .error .valueError else recordSubmission set w st sh real

/-! ## The system -/

structure State where
  store : PoolStore
  work : Work
  /-- The block hashes that were handed out as work. -/
  handedOut : List Text := []
  /-- Nonce and block hash of the shares that were recorded, and of those since the last payout run. -/
  credited : List (Text × Text) := []
  round : List (Text × Text) := []

inductive Event where
  /-- The worker thread reads the node. -/
  | block (w : Work)
  /-- A miner asks for work. -/
  | getWork
  | share (sh : Submission)
  | payout (r : Run)

/-- The state after a submission; one that does not return or raises changes nothing. -/
def State.share (s : State) (sh : Submission) : State :=
  match processShare H set s.work s.store sh with
  | some (.ok (.measured true _ _ _ _, store)) =>
    { s with store, credited := s.credited ++ [(sh.nonce, sh.blockhash)], round := s.round ++ [(sh.nonce, sh.blockhash)] }
  | _ => s

def step (s : State) : Event → State
  | .block work => { s with work }
  | .getWork => { s with handedOut := s.handedOut ++ [s.work.hash] }
  | .share sh => s.share H set sh
  | .payout r =>
    match { r with arrivals := fun _ => [] }.payout s.store with
    | .ok store => { s with store, round := [] }
    | .error _ => s

def run (s : State) (es : List Event) : State := es.foldl (step H set) s

/-- The miner works on a block hash that was handed out, and no pair is submitted again after a payout run. -/
def Honest (s : State) : Event → Prop
  | .share sh => sh.blockhash ∈ s.handedOut ∧
      ((sh.nonce, sh.blockhash) ∈ s.credited → (sh.nonce, sh.blockhash) ∈ s.round)
  | _ => True

def HonestRun : State → List Event → Prop
  | _, [] => True
  | s, e :: es => Honest s e ∧ HonestRun (step H set s e) es

/-- Each pair is credited once and for work that was handed out; the nonces of the round are kept. -/
structure Inv (s : State) : Prop where
  nodup : s.credited.Nodup
  handedOut : ∀ c ∈ s.credited, c.2 ∈ s.handedOut
  nonces : ∀ c ∈ s.round, (s.store.nonces.get? (utf8 c.1)).isSome

variable {H set}

variable {sh : Submission}

theorem recordSubmission_accepted {w : Work} {st st' : PoolStore} {real : Nat} {found dup : Bool}
    {real' : Nat} {diff : Int}
    (h : recordSubmission set w st sh real = .ok (.measured true found real' dup diff, st')) :
    st.nonces.get? (utf8 sh.nonce) = none ∧ ∃ rec, st' = st.append (utf8 sh.nonce) rec := by
  obtain ⟨seen, -, h⟩ := Except.bind_eq_ok.1 h
  split at h
  · cases h
  · split at h
    · obtain ⟨o, ho, h⟩ := Except.bind_eq_ok.1 h
      cases o with
      | none => cases h
      | some st₁ =>
        cases h
        obtain ⟨hnone, rfl⟩ := PoolStore.recordShare_eq_some ho
        exact ⟨hnone, _, rfl⟩
    · cases h

theorem processShare_accepted {w : Work} {st st' : PoolStore} {found dup : Bool} {real : Nat}
    {diff : Int} (h : processShare H set w st sh = some (.ok (.measured true found real dup diff, st'))) :
    st.nonces.get? (utf8 sh.nonce) = none ∧ ∃ rec, st' = st.append (utf8 sh.nonce) rec := by
  rw [processShare] at h
  split at h
  · cases h
  · obtain ⟨real, -, h⟩ := Option.map_eq_some_iff.1 h
    split at h
    · cases h
    · exact recordSubmission_accepted h

theorem Inv.share {s : State} (hs : Inv s) (hh : Honest s (.share sh)) : Inv (s.share H set sh) := by
  rw [State.share]
  split
  · rename_i hok
    obtain ⟨hnone, rec, rfl⟩ := processShare_accepted hok
    have hnew : (sh.nonce, sh.blockhash) ∉ s.credited := by
      intro hmem
      have hseen := hs.nonces _ (hh.2 hmem)
      rw [hnone] at hseen
      cases hseen
    refine ⟨?_, ?_, ?_⟩
    · exact hs.nodup.append (List.nodup_singleton _) (by simpa using hnew)
    · intro c hc
      obtain hc | hc := List.mem_append.1 hc
      · exact hs.handedOut c hc
      · rw [List.mem_singleton.1 hc]
        exact hh.1
    · intro c hc
      change ((s.store.nonces.put (utf8 sh.nonce) ()).get? (utf8 c.1)).isSome
      rw [OrdTable.get?_put]
      split
      · rfl
      · rename_i hne
        obtain hc | hc := List.mem_append.1 hc
        · exact hs.nonces c hc
        · rw [List.mem_singleton.1 hc] at hne
          exact absurd rfl hne
  · exact hs

theorem Inv.step {s : State} (hs : Inv s) {e : Event} (he : Honest s e) : Inv (step H set s e) := by
  cases e with
  | block work => exact ⟨hs.nodup, hs.handedOut, hs.nonces⟩
  | getWork => exact ⟨hs.nodup, fun c hc => List.mem_append_left _ (hs.handedOut c hc), hs.nonces⟩
  | share sh => exact hs.share he
  | payout r =>
    rw [Pool.step]
    split
    · exact ⟨hs.nodup, hs.handedOut, nofun⟩
    · exact hs

theorem Inv.run {s : State} {es : List Event} (hs : Inv s) (he : HonestRun H set s es) : Inv (run H set s es) := by
  induction es generalizing s with
  | nil => exact hs
  | cons e es ih => exact ih (hs.step he.1) he.2

/-- **A share is credited once.** From a pool that has credited nothing yet, in every run of share submissions,
payout runs and new network blocks in which miners submit block hashes that were handed out, and submit no credited
pair again after a payout run, each pair of nonce and block hash is recorded at most once, and for a block hash that
was handed out. -/
theorem credited_once {s : State} (hcred : s.credited = []) (hround : s.round = []) {es : List Event}
    (he : HonestRun H set s es) :
    (run H set s es).credited.Nodup ∧ ∀ c ∈ (run H set s es).credited, c.2 ∈ (run H set s es).handedOut := by
  have hs : Inv s := by
    refine ⟨?_, ?_, ?_⟩
    · rw [hcred]
      exact .nil
    · rw [hcred]
      exact nofun
    · rw [hround]
      exact nofun
  exact ⟨(hs.run he).nodup, (hs.run he).handedOut⟩

section Sample

private def zeros : Heavy3 where
  sha224 _ := 0
  blake2b _ := 0
  anneal3 _ := List.replicate 56 '0'
  anneal3Regnet _ := List.replicate 56 '0'
  isHex_anneal3 _ := by decide
  isHex_anneal3Regnet _ := by decide

private def settings : Settings where
  address := List.replicate 56 'a'
  altAdd := List.replicate 56 'f'
  mdiff := 5
  alnum c := c.isAlphanum

private def fresh : State where
  store := .empty
  work := ⟨"0f".toList, 100, false⟩

private def submission : Submission := ⟨List.replicate 56 'b', "abc1".toList, "0f".toList, 1700000000, true⟩

private def emptyRun : Run where
  terms := ⟨.ofRat 1, .ofRat 0, .ofRat 0, List.replicate 56 'f'⟩
  rewards := []
  now := 1700003600
  accepted _ := true
  arrivals _ := []
  touched := 1700003601

/-- A share for work that was handed out. -/
theorem credited_once_sample :
    (run zeros settings fresh [.getWork, .share submission]).credited = [("abc1".toList, "0f".toList)] ∧
      (run zeros settings fresh [.getWork, .share submission]).credited.Nodup ∧
      ∀ c ∈ (run zeros settings fresh [.getWork, .share submission]).credited,
        c.2 ∈ (run zeros settings fresh [.getWork, .share submission]).handedOut := by
  refine ⟨by decide +kernel, credited_once rfl rfl ⟨trivial, ⟨by decide +kernel, ?_⟩, trivial⟩⟩
  intro hmem
  cases hmem

/-- The same nonce and block hash are credited before and after a payout run, and the block hash was never handed
out. -/
theorem credited_twice :
    ∃ (H : Heavy3) (set : Settings) (s : State) (es : List Event), s.credited = [] ∧ s.round = [] ∧
      ¬(run H set s es).credited.Nodup ∧ ∃ c ∈ (run H set s es).credited, c.2 ∉ (run H set s es).handedOut :=
  ⟨zeros, settings, fresh, [.share submission, .payout emptyRun, .share submission], rfl, rfl, by decide +kernel,
    by decide +kernel⟩

end Sample

end Pool

end Bismuth
