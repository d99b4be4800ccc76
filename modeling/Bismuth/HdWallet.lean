import Bismuth.Lib.Except
import Bismuth.Lib.FirstRun
import Bismuth.Py.Bytes
import Bismuth.Py.ReadBack

/-!
# The hierarchical wallet

`hd_wallet.py`: child keys, derivation paths, and the scan for used addresses. HMAC, the public key of a private one and
the address of a public key are parameters.
-/

namespace Bismuth
open Py

inductive HdReject where
  /-- `InvalidKeyError`. -/
  | invalidKey
  deriving DecidableEq

abbrev HdErr := Py.Exc HdReject

structure HdPrims where
  hmacSha512 : (key message : Bytes) → Bytes
  length_hmacSha512 : ∀ k m, (hmacSha512 k m).length = 64
  /-- The compressed public key of a private one. -/
  publicKey : Bytes → Bytes
  /-- `SignerECDSA.public_key_to_address`. -/
  keyAddress : Bytes → Text

/-- `_N`. -/
def hdOrder : Nat := 0xFFFFFFFFFFFFFFFFFFFFFFFFFFFFFFFEBAAEDCE6AF48A03BBFD25E8CD0364141

def hardened : Nat := 0x80000000

structure HdNode where
  key : Bytes
  chain : Bytes
  depth : Nat
  index : Nat
  length_key : key.length = 32
  length_chain : chain.length = 32
  key_pos : beVal key ≠ 0
  key_lt : beVal key < hdOrder
  deriving DecidableEq

namespace HdNode

/-- `HDNode.__init__`. -/
def make (key chain : Bytes) (depth index : Nat) : Except HdErr HdNode :=
  if hlen : key.length ≠ 32 ∨ chain.length ≠ 32 then .error .valueError
  else if hkey : beVal key = 0 ∨ hdOrder ≤ beVal key then .error (.raised .invalidKey)
  else .ok ⟨key, chain, depth, index, by tauto, by tauto, by tauto, by omega⟩

variable (P : HdPrims)

/-- The child of an index below `2 ^ 32`; one with bit 31 is hardened. -/
def ckd (node : HdNode) (index : Nat) : Except HdErr HdNode :=
  let data := if hardened ≤ index then 0 :: (node.key ++ beBytes 4 index)
    else P.publicKey node.key ++ beBytes 4 index
  let i := P.hmacSha512 node.chain data
  let il := beVal (i.take 32)
  let k := (il + beVal node.key) % hdOrder
  if hdOrder ≤ il then .error (.raised .invalidKey)
  else if k = 0 then .error (.raised .invalidKey)
  else make (beBytes 32 k) (i.drop 32) (node.depth + 1) index

/-- `child`: the index is taken modulo `2 ^ 32`. -/
def child (node : HdNode) (index : Int) : Except HdErr HdNode := node.ckd P (index % 2 ^ 32).toNat

/-! ## Paths -/

def isMarked (p : Text) : Bool := p.getLast?.any fun c => c = '\'' || c = 'h' || c = 'H'

def componentInt (p : Text) : Except HdErr Int := int (if isMarked p then p.dropLast else p)

def components (path : Text) : List Text :=
  ((path.filter (· ≠ ' ')).splitOn '/').filter fun p => p ≠ [] ∧ p ≠ ['m'] ∧ p ≠ ['M']

/-- One round of `derive_path`. -/
def deriveComponent (node : HdNode) (p : Text) : Except HdErr HdNode := do
  let n ← componentInt p
  node.child P (if isMarked p then n + hardened else n)

def derivePath (node : HdNode) (path : Text) : Except HdErr HdNode := (components path).foldlM (deriveComponent P) node

end HdNode

/-! ## Wallets -/

/-- `HDWallet`, without the subtype of its addresses. -/
structure HdWallet where
  master : HdNode
  coinType : Int

namespace HdWallet
variable (P : HdPrims) (w : HdWallet)

/-- `"m/44'/%d'/%d'" % (coin_type, account)`. -/
def accountPath (coinType account : Int) : Text :=
  ['m', '/', '4', '4', '\'', '/'] ++ intText coinType ++ ['\'', '/'] ++ intText account ++ ['\'']

def accountNode (account : Int) : Except HdErr HdNode := w.master.derivePath P (accountPath w.coinType account)

def nodeAt (index account change : Int) : Except HdErr HdNode := do
  (← (← w.accountNode P account).child P change).child P index

/-- The address of `node_at`. -/
def addressAt (account change index : Int) : Except HdErr Text := do
  return P.keyAddress (P.publicKey (← w.nodeAt P index account change).key)

/-- The loop of `scan`; `address` gives the address of an index. -/
def scanLoop (address : Int → Except HdErr Text) (isUsed : Text → Bool) (gapLimit : Nat) (maxIndex : Int)
    (found : List (Int × Text)) (gap : Nat) (i : Int) : Except HdErr (List (Int × Text)) :=
  if gap < gapLimit ∧ i < maxIndex then
    match address i with
    | .error (.raised .invalidKey) => scanLoop address isUsed gapLimit maxIndex found gap (i + 1)
    | .error e => .error e
    | .ok a =>
      if isUsed a then scanLoop address isUsed gapLimit maxIndex (found ++ [(i, a)]) 0 (i + 1)
      else scanLoop address isUsed gapLimit maxIndex found (gap + 1) (i + 1)
  else .ok found
termination_by (maxIndex - i).toNat

def scan (isUsed : Text → Bool) (gapLimit : Nat) (account change start maxIndex : Int) :
    Except HdErr (List (Int × Text)) :=
  scanLoop (w.addressAt P account change) isUsed gapLimit maxIndex [] 0 start

end HdWallet

/-! ## What a path means -/

namespace HdNode
variable {P : HdPrims}

/-- The index that a component stands for: its number, below `2 ^ 31`, and bit 31 for a mark. -/
def Means (p : Text) (i : Nat) : Prop :=
  ∃ n : Nat, n < 2 ^ 31 ∧ componentInt p = .ok n ∧ i = if isMarked p then n + hardened else n

theorem deriveComponent_eq_ok {node node' : HdNode} :
    deriveComponent P node p = .ok node' ↔ ∃ n, componentInt p = .ok n ∧
      node.child P (if isMarked p then n + hardened else n) = .ok node' := Except.bind_eq_ok

/-- A number in range derives the index that its component stands for. -/
theorem child_eq_ckd {n : Nat} (h : n < 2 ^ 31) (node : HdNode) (mark : Bool) :
    node.child P (if mark then (n : Int) + hardened else n) = node.ckd P (if mark then n + hardened else n) := by
  rw [child]
  congr 1
  cases mark with
  | true =>
    simp only [hardened, if_true]
    omega
  | false =>
    simp only [Bool.false_eq_true, if_false]
    omega

theorem foldlM_means {parts : List Text} {node node' : HdNode} (h : parts.foldlM (deriveComponent P) node = .ok node')
    (hrange : ∀ p ∈ parts, ∀ n, componentInt p = .ok n → 0 ≤ n ∧ n < 2 ^ 31) :
    ∃ idxs, List.Forall₂ Means parts idxs ∧ idxs.foldlM (ckd P) node = .ok node' := by
  induction parts generalizing node with
  | nil => exact ⟨[], .nil, h⟩
  | cons p parts ih =>
    rw [List.foldlM_cons] at h
    obtain ⟨node₁, h₁, h⟩ := Except.bind_eq_ok.1 h
    obtain ⟨n, hn, hchild⟩ := deriveComponent_eq_ok.1 h₁
    obtain ⟨h0, h1⟩ := hrange p List.mem_cons_self n hn
    obtain ⟨n, rfl⟩ := Int.eq_ofNat_of_zero_le h0
    obtain ⟨idxs, hidxs, hwalk⟩ := ih h fun p hp => hrange p (List.mem_cons_of_mem _ hp)
    rw [child_eq_ckd (by omega)] at hchild
    refine ⟨_ :: idxs, .cons ⟨n, by omega, hn, rfl⟩ hidxs, ?_⟩
    rw [List.foldlM_cons, hchild]
    exact hwalk

end HdNode

def HdPrims.ones : HdPrims where
  hmacSha512 _ _ := .replicate 64 1
  length_hmacSha512 _ _ := List.length_replicate
  publicKey key := key
  keyAddress key := key.map fun b => Char.ofNat b.toNat

def HdNode.one : HdNode where
  key := .replicate 31 0 ++ [1]
  chain := .replicate 32 0
  depth := 0
  index := 0
  length_key := rfl
  length_chain := rfl
  key_pos := by decide
  key_lt := by decide

namespace HdNode

end HdNode

/-! ## The scan -/

namespace HdNode
variable {P : HdPrims}

theorem make_error {key chain : Bytes} {depth index : Nat} (hkey : key.length = 32) (hchain : chain.length = 32)
    (h : make key chain depth index = .error e) : e = .raised .invalidKey := by
  rw [make, dif_neg (by simp [hkey, hchain])] at h
  split at h
  · cases h
    rfl
  · cases h

/-- A derivation raises nothing but `InvalidKeyError`. -/
theorem child_error {node : HdNode} {index : Int} (h : node.child P index = .error e) : e = .raised .invalidKey := by
  rw [child, ckd] at h
  have hlen := P.length_hmacSha512 node.chain
  generalize P.hmacSha512 node.chain = mac at h hlen
  generalize (if hardened ≤ (index % 2 ^ 32).toNat then _ else _ : Bytes) = data at h
  split at h
  · cases h
    rfl
  · split at h
    · cases h
      rfl
    · refine make_error (length_beBytes ..) ?_ h
      rw [List.length_drop, hlen]

theorem foldlM_error {parts : List Text} {node : HdNode} (hparts : ∀ p ∈ parts, ∃ n, componentInt p = .ok n)
    (h : parts.foldlM (deriveComponent P) node = .error e) : e = .raised .invalidKey := by
  induction parts generalizing node with
  | nil => cases h
  | cons p parts ih =>
    obtain ⟨n, hn⟩ := hparts p List.mem_cons_self
    rw [List.foldlM_cons, deriveComponent, hn, Except.ok_bind] at h
    obtain h | ⟨node', -, h⟩ := Except.bind_eq_error.1 h
    · exact child_error h
    · exact ih (fun p hp => hparts p (List.mem_cons_of_mem _ hp)) h

theorem isMarked_concat (s : Text) : isMarked (s ++ ['\'']) = true := by
  rw [isMarked, List.getLast?_concat]
  rfl

theorem componentInt_intText (n : Int) : componentInt (intText n ++ ['\'']) = .ok n := by
  rw [componentInt, if_pos (isMarked_concat _), List.dropLast_concat]
  exact int_intText n

end HdNode

namespace HdWallet
open HdNode
variable {P : HdPrims} {w : HdWallet}

theorem concat_ne_singleton {s : Text} (h : c ≠ d) : s ++ [c] ≠ [d] := by
  intro heq
  have hlast := congrArg List.getLast? heq
  rw [List.getLast?_concat, List.getLast?_singleton] at hlast
  exact h (Option.some.inj hlast)

theorem components_accountPath (coinType account : Int) : components (accountPath coinType account) =
    [['4', '4', '\''], intText coinType ++ ['\''], intText account ++ ['\'']] := by
  have hplain : ∀ (n : Int), ∀ c ∈ intText n, c ≠ ' ' ∧ c ≠ '/' := by
    intro n c hc
    refine ⟨?_, ?_⟩ <;> rintro rfl
    · exact absurd (isPlain_of_mem_intText hc) (by decide)
    · exact absurd (isPlain_of_mem_intText hc) (by decide)
  have hslash : ∀ n : Int, '/' ∉ intText n ++ ['\''] := by
    intro n hmem
    obtain hmem | hmem := List.mem_append.1 hmem
    · exact (hplain n _ hmem).2 rfl
    · exact absurd hmem (by decide)
  have hsplit : accountPath coinType account =
      ['/'].intercalate [['m'], ['4', '4', '\''], intText coinType ++ ['\''], intText account ++ ['\'']] := by
    simp [accountPath, List.intercalate]
  have hfilter : (accountPath coinType account).filter (· ≠ ' ') = accountPath coinType account := by
    rw [List.filter_eq_self]
    intro c hc
    have hc' : c ∈ "m/44'".toList ∨ c ∈ intText coinType ∨ c ∈ intText account := by
      simp only [accountPath, List.mem_append, List.mem_cons, List.not_mem_nil, or_false] at hc
      grind
    obtain hc' | hc' | hc' := hc'
    · have hconst : ∀ c ∈ "m/44'".toList, c ≠ ' ' := by decide
      exact decide_eq_true (hconst c hc')
    · exact decide_eq_true (hplain _ c hc').1
    · exact decide_eq_true (hplain _ c hc').1
  rw [components, hfilter, hsplit, List.splitOn_intercalate]
  · simp [concat_ne_singleton]
  · intro l hl
    simp only [List.mem_cons, List.not_mem_nil, or_false] at hl
    obtain rfl | rfl | rfl | rfl := hl
    · decide
    · decide
    · exact hslash _
    · exact hslash _
  · simp

/-- The derivation of an address raises nothing but `InvalidKeyError`. -/
theorem addressAt_error {account change index : Int} (h : w.addressAt P account change index = .error e) :
    e = .raised .invalidKey := by
  rw [addressAt] at h
  obtain h | ⟨_, -, h⟩ := Except.bind_eq_error.1 h
  · rw [nodeAt] at h
    obtain h | ⟨_, -, h⟩ := Except.bind_eq_error.1 h
    · refine foldlM_error ?_ h
      rw [components_accountPath]
      intro p hp
      simp only [List.mem_cons, List.not_mem_nil, or_false] at hp
      obtain rfl | rfl | rfl := hp
      · exact ⟨_, componentInt_intText 44⟩
      · exact ⟨_, componentInt_intText _⟩
      · exact ⟨_, componentInt_intText _⟩
    · obtain h | ⟨_, -, h⟩ := Except.bind_eq_error.1 h
      · exact child_error h
      · exact child_error h
  · cases h

/-- The valid indices from `i` on below the maximum, with their addresses. -/
def valid (address : Int → Except HdErr Text) (i maxIndex : Int) : List (Int × Text) :=
  ((List.range (maxIndex - i).toNat).map fun k : Nat => i + k).filterMap fun j => (address j).toOption.map (j, ·)

variable {address : Int → Except HdErr Text}

theorem valid_of_le (h : maxIndex ≤ i) : valid address i maxIndex = [] := by
  rw [valid, Int.toNat_of_nonpos (by omega)]
  rfl

theorem valid_of_lt (h : i < maxIndex) : valid address i maxIndex =
    ((address i).toOption.map (i, ·)).toList ++ valid address (i + 1) maxIndex := by
  obtain ⟨n, hn⟩ : ∃ n, (maxIndex - i).toNat = n + 1 := ⟨(maxIndex - i).toNat - 1, by omega⟩
  have hn' : (maxIndex - (i + 1)).toNat = n := by omega
  have hshift : (fun k : Nat => i + (k : Int)) ∘ Nat.succ = fun k : Nat => i + 1 + (k : Int) := by
    funext k
    simp only [Function.comp_apply, Nat.succ_eq_add_one]
    push_cast
    ring
  rw [valid, valid, hn, hn', List.range_succ_eq_map, List.map_cons, List.map_map, hshift, List.filterMap_cons]
  rw [Int.ofNat_zero, Int.add_zero]
  cases (address i).toOption with
  | none => rfl
  | some a => rfl

/-- The loop adds the used ones among the valid indices up to the end of the first run of unused ones, with the run that
has begun counted. -/
theorem scanLoop_eq
    (haddress : ∀ i e, address i = .error e → e = .raised .invalidKey) (isUsed : Text → Bool) (gapLimit : Nat)
    (maxIndex : Int) (found : List (Int × Text)) (gap : Nat) (i : Int) :
    scanLoop address isUsed gapLimit maxIndex found gap i =
      .ok (found ++ (upToRun (fun e => !isUsed e.2) gapLimit gap (valid address i maxIndex)).filter (isUsed ·.2)) := by
  induction hn : (maxIndex - i).toNat generalizing found gap i with
  | zero =>
    rw [scanLoop, if_neg (by omega), valid_of_le (by omega), upToRun, List.filter_nil, List.append_nil]
  | succ n ih =>
    rw [scanLoop]
    split
    · rename_i hcond
      rw [valid_of_lt hcond.2]
      cases ha : address i with
      | error e =>
        cases haddress i e ha
        exact ih found gap (i + 1) (by omega)
      | ok a =>
        have hhead : ((Except.ok a : Except HdErr Text).toOption.map (i, ·)).toList = [(i, a)] := rfl
        rw [hhead, List.singleton_append, upToRun, if_neg (by omega)]
        by_cases hused : isUsed a = true
        · rw [if_neg (by simp [hused]), List.filter_cons_of_pos (p := fun e : Int × Text => isUsed e.2) hused,
            List.append_cons]
          exact (if_pos hused).trans (ih _ _ _ (by omega))
        · rw [if_pos (by simp [hused]), List.filter_cons_of_neg (p := fun e : Int × Text => isUsed e.2) hused]
          exact (if_neg hused).trans (ih _ _ _ (by omega))
    · rename_i hcond
      rw [upToRun_of_le (by omega), List.filter_nil, List.append_nil]

/-- **Wallet scanning is exact**: it returns, in order, the used ones among the valid indices up to the end of the first
run of `gapLimit` unused ones, or among all of them below the maximum if there is no such run. -/
theorem scan_exact (P : HdPrims) (w : HdWallet) (isUsed : Text → Bool) (gapLimit : Nat)
    (account change start maxIndex : Int) :
    ∃ n, IsFirstRun (fun e => !isUsed e.2) gapLimit (valid (w.addressAt P account change) start maxIndex) n ∧
      w.scan P isUsed gapLimit account change start maxIndex =
        .ok (((valid (w.addressAt P account change) start maxIndex).take n).filter (isUsed ·.2)) := by
  obtain ⟨n, heq, hfirst⟩ :=
    exists_isFirstRun (fun e => !isUsed e.2) gapLimit (valid (w.addressAt P account change) start maxIndex)
  refine ⟨n, hfirst, ?_⟩
  rw [scan, scanLoop_eq fun i e => addressAt_error, heq, List.nil_append]

end HdWallet

end Bismuth
