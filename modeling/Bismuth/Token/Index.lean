import Bismuth.Lib.Counts
import Bismuth.Store.Defs

/-!
# The token and alias index

`token_index.py`: a projection of the ledger in a key-value store of its own. Every operation that it
records is journaled under its height and a sequence number, so that a rollback can undo it. A write
transaction is atomic: an operation returns the new store, or raises and leaves the old one.
-/

namespace Bismuth
open Py

/-- What a transaction does to the rows of a token: `recipient` is credited, `address` debited. -/
structure Movement where
  token : Text
  recipient : Text
  address : Text
  amount : Int
  deriving DecidableEq

/-- An entry of `journal`. -/
inductive TokenOp where
  | issue (m : Movement) (txid : Text)
  | transfer (m : Movement) (txid : Text)
  | noop (txid : Text)
  deriving DecidableEq

namespace TokenOp

def txid : TokenOp → Text
  | .issue _ txid | .transfer _ txid | .noop txid => txid

def move? : TokenOp → Option Movement
  | .issue m _ | .transfer m _ => some m
  | .noop _ => none

end TokenOp

/-- An entry of `tokreg`. -/
structure TokenReg where
  height : Nat
  issuer : Text
  txid : Text
  supply : Int
  deriving DecidableEq

/-- An entry of `ajournal`; one that moves a name away tells who had it, and since when. -/
inductive AliasOp where
  | register (name address : Text)
  | transfer (name address prev : Text) (prevHeight : Nat)
  | free (name prev : Text) (prevHeight : Nat)
  deriving DecidableEq

/-- The sub-databases. The keys of the journals, sixteen big-endian bytes, are the numbers they stand for. -/
structure TokenIndex where
  seq : Nat := 0
  tokAnchor : Nat := 0
  aliasAnchor : Nat := 0
  tokreg : OrdTable Bytes TokenReg := ∅
  seen : OrdTable Bytes Unit := ∅
  cred : OrdTable Bytes Int := ∅
  deb : OrdTable Bytes Int := ∅
  addrtok : OrdTable Bytes Int := ∅
  tokset : OrdTable Bytes Int := ∅
  journal : OrdTable Nat TokenOp := ∅
  aliasFwd : OrdTable Bytes (Text × Nat) := ∅
  aliasRev : OrdTable Bytes Unit := ∅
  ajournal : OrdTable Nat AliasOp := ∅
  deriving DecidableEq

/-! ## Keys -/

/-- `txn.get`: LMDB refuses to look for an empty key. -/
def lmdbGet (t : OrdTable Bytes V) (k : Bytes) : Except Err (Option V) :=
  if k = [] then .error .badValsizeError else .ok (t.get? k)

def hq (height seq : Nat) : Except Err Bytes := do
  return (← packBE 8 height) ++ (← packBE 8 seq)

/-- `_hq` as a number. -/
def journalKey (height seq : Nat) : Except Err Nat :=
  if height < 2 ^ 64 ∧ seq < 2 ^ 64 then .ok (2 ^ 64 * height + seq) else .error .structError

def partyPrefix (token party : Text) : Bytes := utf8 token ++ 0 :: (utf8 party ++ [0])

def partyKey (token party : Text) (height seq : Nat) : Except Err Bytes := do
  return partyPrefix token party ++ (← hq height seq)

def tailHeight (k : Bytes) : Nat := beVal ((k.drop (k.length - 16)).take 8)

/-- The key of `_incr_addrtok`. -/
def addrTokKey (address token : Text) : Bytes := utf8 address ++ 0 :: utf8 token

def incrCount (t : OrdTable Bytes Int) (k : Bytes) (delta : Int) : Except Err (OrdTable Bytes Int) := do
  let n := (← lmdbGet t k).getD 0 + delta
  if 0 < n then return t.put (← lmdbKey k) n else return t.erase k

/-- `_incr_addrtok` for a list of addresses. -/
def incrAddrTok (token : Text) (delta : Int) (t : OrdTable Bytes Int) :
    List Text → Except Err (OrdTable Bytes Int)
  | [] => .ok t
  | a :: as => do incrAddrTok token delta (← incrCount t (addrTokKey a token) delta) as

def issuedMarker : Text := "issued".toList

namespace TokenIndex
variable (ti : TokenIndex)

/-! ## Token reads -/

def hasToken (token : Text) : Except Err Bool := do
  return (← lmdbGet ti.tokreg (utf8 token)).isSome

def hasTxid (txid : Text) : Except Err Bool := do
  return (← lmdbGet ti.seen (utf8 txid)).isSome

end TokenIndex

/-- `_sum_party`, over the heights that `keep` keeps. -/
def sumParty (db : OrdTable Bytes Int) (token party : Text) (keep : Nat → Bool) : Int :=
  ((db.entries.filter fun e => (partyPrefix token party).isPrefixOf e.1 && keep (tailHeight e.1)).map
    Prod.snd).sum

namespace TokenIndex
variable (ti : TokenIndex)

def tokenCredit (token address : Text) (belowHeight : Nat) : Int :=
  sumParty ti.cred token address (· < belowHeight)

def tokenDebit (token address : Text) (uptoHeight : Nat) : Int :=
  sumParty ti.deb token address (· ≤ uptoHeight)

def tokenBalance (token address : Text) : Int :=
  sumParty ti.cred token address (· ≤ 2 ^ 63) - sumParty ti.deb token address (· ≤ 2 ^ 63)

/-- `tokens_user`; a key that does not decode raises. -/
def tokensUser (address : Text) : Except Err (List Text) :=
  let pre := utf8 address ++ [0]
  (ti.addrtok.entries.filter fun e => pre.isPrefixOf e.1).mapM fun e =>
    match utf8Decode (e.1.drop pre.length) with
    | some token => .ok token
    | none => .error .valueError

def tokenTransfers (token : Text) : Except Err Int := do
  return (← lmdbGet ti.tokset (utf8 token)).getD 0

/-! ## Token writes -/

/-- `_bump_anchor` of the tokens. -/
def bumpTokAnchor (height : Nat) : TokenIndex :=
  if ti.tokAnchor < height then { ti with tokAnchor := height } else ti

/-- The rows of an operation that moves tokens, `links` being the addresses that it touches. -/
def putMove (m : Movement) (links : List Text) (height seq : Nat) : Except Err TokenIndex := do
  let cred := ti.cred.put (← lmdbKey (← partyKey m.token m.recipient height seq)) m.amount
  let deb := ti.deb.put (← lmdbKey (← partyKey m.token m.address height seq)) m.amount
  let addrtok ← incrAddrTok m.token 1 ti.addrtok links
  let tokset ← incrCount ti.tokset (utf8 m.token) 1
  return { ti with cred, deb, addrtok, tokset }

def putJournal (height seq : Nat) (op : TokenOp) : Except Err TokenIndex := do
  let k ← journalKey height seq
  return { ti with journal := ti.journal.put k op }.bumpTokAnchor height

/-- The supply of an issuance; one that cannot be read is zero. -/
def readSupply (supply : Val) : Except Err Int :=
  match supply.toInt with
  | .error .valueError | .error .typeError => .ok 0
  | x => x

def registerIssue (height : Nat) (token issuer txid : Text) (supply : Val) :
    Except Err (Bool × TokenIndex) := do
  let supply ← readSupply supply
  if (← lmdbGet ti.tokreg (utf8 token)).isSome then return (false, ti)
  else if (← lmdbGet ti.seen (utf8 txid)).isSome then return (false, ti)
  else
    let seq := ti.seq + 1
    let m : Movement := ⟨token, issuer, issuedMarker, supply⟩
    let tokreg := ti.tokreg.put (← lmdbKey (utf8 token)) ⟨height, issuer, txid, supply⟩
    let seen := ti.seen.put (← lmdbKey (utf8 txid)) ()
    let ti ← { ti with seq, tokreg, seen }.putMove m [issuer, issuedMarker] height seq
    return (true, ← ti.putJournal height seq (.issue m txid))

def applyTransfer (height : Nat) (token sender recipient txid : Text) (amount : Val) :
    Except Err (Bool × TokenIndex) := do
  let amount ← amount.toInt
  if (← lmdbGet ti.seen (utf8 txid)).isSome then return (false, ti)
  else
    let seq := ti.seq + 1
    let m : Movement := ⟨token, recipient, sender, amount⟩
    let seen := ti.seen.put (← lmdbKey (utf8 txid)) ()
    let ti ← { ti with seq, seen }.putMove m [sender, recipient] height seq
    return (true, ← ti.putJournal height seq (.transfer m txid))

def markNoop (height : Nat) (txid : Text) : Except Err (Bool × TokenIndex) := do
  if (← lmdbGet ti.seen (utf8 txid)).isSome then return (false, ti)
  else
    let seq := ti.seq + 1
    let seen := ti.seen.put (← lmdbKey (utf8 txid)) ()
    return (true, ← { ti with seq, seen }.putJournal height seq (.noop txid))

/-! ## Token rollback -/

def dropMove (m : Movement) (height seq : Nat) : Except Err TokenIndex := do
  let cred := ti.cred.erase (← partyKey m.token m.recipient height seq)
  let deb := ti.deb.erase (← partyKey m.token m.address height seq)
  let addrtok ← incrAddrTok m.token (-1) ti.addrtok [m.recipient, m.address]
  let tokset ← incrCount ti.tokset (utf8 m.token) (-1)
  return { ti with cred, deb, addrtok, tokset }

/-- One round of the loop of `tokens_rollback`. -/
def undoToken (k : Nat) (op : TokenOp) : Except Err TokenIndex := do
  let moved ← (match op.move? with
    | some m => ti.dropMove m (k / 2 ^ 64) (k % 2 ^ 64)
    | none => .ok ti)
  let tokreg := match op with
    | .issue m _ => moved.tokreg.erase (utf8 m.token)
    | _ => moved.tokreg
  return { moved with
    tokreg, seen := moved.seen.erase (utf8 op.txid), journal := moved.journal.erase k }

def undoTokens : List (Nat × TokenOp) → TokenIndex → Except Err TokenIndex
  | [], ti => .ok ti
  | (k, op) :: es, ti => do undoTokens es (← ti.undoToken k op)

def tokensRollback (height : Nat) : Except Err TokenIndex := do
  let floor ← journalKey height 0
  let ti ← undoTokens (ti.journal.entries.filter (floor ≤ ·.1)) ti
  return { ti with tokAnchor := height - 1 }

/-! ## Aliases -/

end TokenIndex

/-- The key of `alias_rev`. -/
def aliasRevKey (address : Text) (height : Nat) (name : Text) : Except Err Bytes := do
  return utf8 address ++ 0 :: ((← packBE 8 height) ++ 0 :: utf8 name)

namespace TokenIndex
variable (ti : TokenIndex)

/-- `_bump_anchor` of the aliases. -/
def bumpAliasAnchor (height : Nat) : TokenIndex :=
  if ti.aliasAnchor < height then { ti with aliasAnchor := height } else ti

def aliasOwner (name : Text) : Except Err (Option Text) := do
  return (← lmdbGet ti.aliasFwd (utf8 name)).map Prod.fst

/-- `aliases_of`; a key that does not decode raises. -/
def aliasesOf (address : Text) : Except Err (List Text) :=
  let pre := utf8 address ++ [0]
  (ti.aliasRev.entries.filter fun e => pre.isPrefixOf e.1).mapM fun e =>
    match utf8Decode (e.1.drop (pre.length + 9)) with
    | some name => .ok name
    | none => .error .valueError

def putAliasJournal (height seq : Nat) (op : AliasOp) : Except Err TokenIndex := do
  let k ← journalKey height seq
  return { ti with ajournal := ti.ajournal.put k op }.bumpAliasAnchor height

def registerAlias (height : Nat) (address name : Text) : Except Err (Bool × TokenIndex) := do
  if (← lmdbGet ti.aliasFwd (utf8 name)).isSome then return (false, ti.bumpAliasAnchor height)
  else
    let seq := ti.seq + 1
    let aliasFwd := ti.aliasFwd.put (← lmdbKey (utf8 name)) (address, height)
    let aliasRev := ti.aliasRev.put (← lmdbKey (← aliasRevKey address height name)) ()
    return (true, ← { ti with seq, aliasFwd, aliasRev }.putAliasJournal height seq (.register name address))

def transferAlias (height : Nat) (sender recipient name : Text) : Except Err (Bool × TokenIndex) := do
  match ← lmdbGet ti.aliasFwd (utf8 name) with
  | some (owner, prevHeight) =>
    if owner ≠ sender then return (false, ti.bumpAliasAnchor height)
    else
      let seq := ti.seq + 1
      let aliasFwd := ti.aliasFwd.put (← lmdbKey (utf8 name)) (recipient, height)
      let aliasRev := ti.aliasRev.erase (← aliasRevKey sender prevHeight name)
      let aliasRev := aliasRev.put (← lmdbKey (← aliasRevKey recipient height name)) ()
      return (true, ← { ti with seq, aliasFwd, aliasRev }.putAliasJournal height seq
        (.transfer name recipient sender prevHeight))
  | none => return (false, ti.bumpAliasAnchor height)

def freeAlias (height : Nat) (sender name : Text) : Except Err (Bool × TokenIndex) := do
  match ← lmdbGet ti.aliasFwd (utf8 name) with
  | some (owner, prevHeight) =>
    if owner ≠ sender then return (false, ti.bumpAliasAnchor height)
    else
      let seq := ti.seq + 1
      let aliasFwd := ti.aliasFwd.erase (utf8 name)
      let aliasRev := ti.aliasRev.erase (← aliasRevKey sender prevHeight name)
      return (true, ← { ti with seq, aliasFwd, aliasRev }.putAliasJournal height seq
        (.free name sender prevHeight))
  | none => return (false, ti.bumpAliasAnchor height)

def restoreAlias (name prev : Text) (prevHeight : Nat) : Except Err TokenIndex := do
  let aliasFwd := ti.aliasFwd.put (← lmdbKey (utf8 name)) (prev, prevHeight)
  let aliasRev := ti.aliasRev.put (← lmdbKey (← aliasRevKey prev prevHeight name)) ()
  return { ti with aliasFwd, aliasRev }

/-- One round of the loop of `aliases_rollback`. -/
def undoAlias (k : Nat) (op : AliasOp) : Except Err TokenIndex := do
  let height := k / 2 ^ 64
  let undone ← (match op with
    | .register name address => do
      let held := (← lmdbGet ti.aliasFwd (utf8 name)).any (·.2 = height)
      let aliasFwd := if held then ti.aliasFwd.erase (utf8 name) else ti.aliasFwd
      return { ti with aliasFwd, aliasRev := ti.aliasRev.erase (← aliasRevKey address height name) }
    | .transfer name address prev prevHeight => do
      let aliasRev := ti.aliasRev.erase (← aliasRevKey address height name)
      { ti with aliasRev }.restoreAlias name prev prevHeight
    | .free name prev prevHeight => ti.restoreAlias name prev prevHeight)
  return { undone with ajournal := undone.ajournal.erase k }

def undoAliases : List (Nat × AliasOp) → TokenIndex → Except Err TokenIndex
  | [], ti => .ok ti
  | (k, op) :: es, ti => do undoAliases es (← ti.undoAlias k op)

/-- `aliases_rollback`: the newest operation first. -/
def aliasesRollback (height : Nat) : Except Err TokenIndex := do
  let floor ← journalKey height 0
  let ti ← undoAliases (ti.ajournal.entries.filter (floor ≤ ·.1)).reverse ti
  return { ti with aliasAnchor := height - 1 }

end TokenIndex

end Bismuth
