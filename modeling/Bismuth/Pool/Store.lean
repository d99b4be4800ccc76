import Bismuth.Lib.Except
import Bismuth.Lib.OrdTable
import Bismuth.Py.Bytes
import Bismuth.Py.Value
import Bismuth.Reject

/-!
# The store of the pool

`pool_store.py`: the shares of the current round, the archive of the paid ones and the nonces of the round. Of a
share record only what the pool reads again is kept.
-/

namespace Bismuth
open Py

namespace Pool

structure Share where
  address : Text
  shares : Nat
  timestamp : Val
  paid : Bool
  deriving DecidableEq

structure PoolStore where
  /-- The current round, by sequence number. -/
  shares : OrdTable Nat Share
  archive : OrdTable Nat Share
  /-- The nonces of the round. -/
  nonces : OrdTable Bytes Unit
  seq : Nat
  le_seq : ∀ k, seq < k → shares.get? k = none ∧ archive.get? k = none
  disjoint : ∀ k r, shares.get? k = some r → archive.get? k = none

namespace PoolStore

def empty : PoolStore := ⟨∅, ∅, ∅, 0, fun _ _ => ⟨rfl, rfl⟩, nofun⟩

variable (st : PoolStore)

def nonceKey (nonce : Text) : Except Err Bytes :=
  if utf8 nonce = [] ∨ 511 < (utf8 nonce).length then .error .badValsizeError else .ok (utf8 nonce)

def nonceSeen (nonce : Text) : Except Err Bool := do return (st.nonces.get? (← nonceKey nonce)).isSome

def append (key : Bytes) (rec : Share) : PoolStore where
  shares := st.shares.put (st.seq + 1) rec
  archive := st.archive
  nonces := st.nonces.put key ()
  seq := st.seq + 1
  le_seq k hk := by
    obtain ⟨hshares, harchive⟩ := st.le_seq k (by omega)
    exact ⟨by rw [OrdTable.get?_put, if_neg (by omega), hshares], harchive⟩
  disjoint k r h := by
    rw [OrdTable.get?_put] at h
    split at h
    · rename_i hk
      exact (st.le_seq k (by omega)).2
    · exact st.disjoint k r h

/-- `record_share`: none for a nonce that was used in the round. -/
def recordShare (nonce : Text) (rec : Share) : Except Err (Option PoolStore) := do
  let key ← nonceKey nonce
  return if (st.nonces.get? key).isSome then none else some (st.append key rec)

def rewrite (f : Share → Share) : PoolStore where
  shares := st.shares.map f
  archive := st.archive
  nonces := st.nonces
  seq := st.seq
  le_seq k hk := ⟨by rw [OrdTable.get?_map, (st.le_seq k hk).1]; rfl, (st.le_seq k hk).2⟩
  disjoint k r h := by
    rw [OrdTable.get?_map] at h
    obtain ⟨r', h', -⟩ := Option.map_eq_some_iff.1 h
    exact st.disjoint k r' h'

def markPaid (address : Text) : PoolStore :=
  st.rewrite fun r => if r.address = address && !r.paid then { r with paid := true } else r

/-- `touch_timestamps`: the stamp is a number. -/
def touchTimestamps (ts : ℚ) : PoolStore := st.rewrite fun r => { r with timestamp := .float (.ofRat ts) }

theorem get?_archived (k : Nat) :
    (st.archive.putAll (st.shares.filter fun _ r => r.paid).entries).get? k =
      ((st.shares.get? k).filter (·.paid)).or (st.archive.get? k) := by
  rw [OrdTable.get?_putAll _ (OrdTable.nodup_keys _)]
  exact congrArg (Option.or · _) (OrdTable.get?_filter ..)

/-- `close_round`: the paid shares move to the archive, and the nonces go. -/
def closeRound : PoolStore where
  shares := st.shares.filter fun _ r => !r.paid
  archive := st.archive.putAll (st.shares.filter fun _ r => r.paid).entries
  nonces := ∅
  seq := st.seq
  le_seq k hk := by
    obtain ⟨hshares, harchive⟩ := st.le_seq k hk
    rw [get?_archived, OrdTable.get?_filter, hshares, harchive]
    exact ⟨rfl, rfl⟩
  disjoint k r h := by
    rw [OrdTable.get?_filter, Option.filter_eq_some_iff] at h
    obtain ⟨hget, hpaid⟩ := h
    rw [get?_archived, hget, st.disjoint k r hget, Option.filter_some, if_neg (by simpa using hpaid)]
    rfl

def unpaid : List Share := (st.shares.entries.map Prod.snd).filter (!·.paid)

variable {st}

theorem mem_unpaid {r : Share} : r ∈ st.unpaid ↔ r.paid = false ∧ ∃ k, st.shares.get? k = some r := by
  rw [unpaid, List.mem_filter, List.mem_map, and_comm, Bool.not_eq_true']
  refine and_congr_right fun _ => ⟨?_, ?_⟩
  · rintro ⟨⟨k, r⟩, hmem, rfl⟩
    exact ⟨k, OrdTable.mem_entries.1 hmem⟩
  · rintro ⟨k, hget⟩
    exact ⟨(k, r), OrdTable.mem_entries.2 hget, rfl⟩

theorem recordShare_eq_some {nonce : Text} {rec : Share} {st' : PoolStore} (h : st.recordShare nonce rec = .ok (some st')) :
    st.nonces.get? (utf8 nonce) = none ∧ st' = st.append (utf8 nonce) rec := by
  obtain ⟨key, hkey, h⟩ := Except.bind_eq_ok.1 h
  rw [nonceKey] at hkey
  split at hkey
  · cases hkey
  · cases hkey
    split at h
    · cases h
    · rename_i hnone
      cases h
      exact ⟨Option.not_isSome_iff_eq_none.1 hnone, rfl⟩

end PoolStore

end Pool

end Bismuth
