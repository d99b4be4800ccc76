import Bismuth.Address
import Bismuth.Difficulty
import Bismuth.Lib.Occurs
import Mathlib

/-!
# Mining

`miner.mine_nonce` looks for the first characters of the parent's hash in the annealed hash of a nonce;
`mining_heavy3` measures how many bits of it occur there.
-/

namespace Bismuth
open Py

def IsHexText (w : Nat) (s : Text) : Prop := s.length = w ∧ ∀ c ∈ s, isHexLower c

instance : Decidable (IsHexText w s) := inferInstanceAs (Decidable (_ ∧ _))

/-- The two inner hashes of the proof of work, as numbers of 224 bits, and the two annealing functions. -/
structure Heavy3 where
  sha224 : Bytes → Nat
  /-- BLAKE2b with a digest of 28 bytes. -/
  blake2b : Bytes → Nat
  anneal3 : Nat → Text
  anneal3Regnet : Nat → Text
  isHex_anneal3 : ∀ n, IsHexText 56 (anneal3 n)
  isHex_anneal3Regnet : ∀ n, IsHexText 56 (anneal3Regnet n)

structure MiningNode where
  isRegnet : Bool
  heavy : Bool
  forkSignal : Bool
  /-- The block to mine is at or above the fork height. -/
  newPow : Bool
  address : Text

def regnetDiff : Nat := 16

def hashcount : Nat := 256

variable (H : Heavy3) (m : MiningNode)

def Heavy3.hash224 (newPow : Bool) (address nonce blockHash : Text) : Nat :=
  let data := utf8 (address ++ nonce ++ blockHash)
  if newPow then H.blake2b data else H.sha224 data

/-! ## The miner -/

/-- `_coinbase_prefix`. -/
def coinbaseStart (forkSignal : Bool) : Text := if forkSignal then ['h', 'f', '2'] else []

/-- `diff / 8`. -/
def eighth : Val → Except Err Number
  | .int n => .ok (toDouble (n / 8) false)
  | .float (.fin q z) => .ok (toDouble (q / 8) z)
  | .float x => .ok x
  | .str _ => .error .typeError

def floor : Number → Except Err Int
  | .fin q _ => .ok ⌊q⌋
  | .inf _ => .error .overflowError
  | .nan | .snan => .error .valueError

/-- `diff_hex`: how many characters are looked for. -/
def diffHex (diff : Val) : Except Err Nat := do
  return (max 1 (← floor (floatSub (← eighth diff) (.ofRat 1)))).toNat

def mineAnneal (nonce blockHash : Text) : Text :=
  (if m.heavy then H.anneal3 else H.anneal3Regnet) (H.hash224 m.newPow m.address nonce blockHash)

/-- What the search meets: whether the node stops before a round, the random numbers, and the tip after a
round. -/
structure Search where
  stopping : Nat → Bool
  draw : Nat → UInt64
  tip : Nat → Text

/-- The `i`th candidate. -/
def candidate (S : Search) (i : Nat) : Text :=
  (if m.newPow then [] else coinbaseStart m.forkSignal) ++ Nat.toDigits 16 (S.draw i).toNat

/-- The `for` loop of a round. -/
def mineRound (S : Search) (target blockHash : Text) (round : Nat) : Option Text :=
  ((List.range' (hashcount * round) hashcount).map (candidate m S)).find? fun nonce =>
    target <:+: mineAnneal H m nonce blockHash

/-- The `while` loop. -/
def mineLoop (S : Search) (target blockHash : Text) : Nat → Nat → Option Text
  | 0, _ => none
  | fuel + 1, round =>
    if S.stopping round then none
    else match mineRound H m S target blockHash round with
      | some nonce => some nonce
      | none =>
        if S.tip round ≠ blockHash then none
        else if 400000 < hashcount * (round + 1) then none
        else mineLoop S target blockHash fuel (round + 1)

/-- `mine_nonce` on a tip, `diff` being what `difficulty` returns. The cap ends the search in the round
1563. -/
def mineNonce (S : Search) (blockHash : Text) (diff : Val) : Except Err (Option (Text × Text)) :=
  if blockHash = [] then .ok none
  else do
    let k ← diffHex (if m.isRegnet then .int regnetDiff else diff)
    return (mineLoop H m S (blockHash.take k) blockHash 1563 0).map (blockHash, ·)

/-! ## The check -/

/-- `format(ord(x), '8b').replace(' ', '0')`. -/
def binChar (c : Char) : Text :=
  List.replicate (8 - (Nat.toDigits 2 c.toNat).length) '0' ++ Nat.toDigits 2 c.toNat

def binConvert (s : Text) : Text := s.flatMap binChar

/-- `heavy` of `mining_heavy3`, which only a regnet node switches off. -/
def moduleHeavy : Bool := !m.isRegnet || m.heavy

def checkAnneal (nonce blockHash : Text) : Text :=
  (if moduleHeavy m || !m.isRegnet then H.anneal3 else H.anneal3Regnet)
    (H.hash224 m.newPow m.address nonce blockHash)

/-- `diffme_heavy3`; none when its loop has no end. -/
def diffmeHeavy3 (nonce blockHash : Text) : Option Nat :=
  (binConvert blockHash).longestMatch (binConvert (checkAnneal H m nonce blockHash))

/-- `check_block` with its measurement; none when that has no end. -/
def measuredCheckBlock (nonce blockHash : Text) (diff : Val) (stamp : Text) (qReceived qLast : Number) :
    Option (Except Err Val) :=
  (diffmeHeavy3 H m nonce blockHash).map fun real =>
    checkBlock real (if m.isRegnet then .int (regnetDiff - 8) else diff) stamp qReceived qLast

/-! ## Hex digits -/

theorem mem_hexDigits (h : isHexLower c) : c ∈ "0123456789abcdef".toList := by
  rw [isHexLower, Bool.or_eq_true, Char.isDigit, Bool.and_eq_true, Bool.and_eq_true] at h
  have hc : c = Char.ofNat c.toNat := (Char.ofNat_toNat c).symm
  have hrange : 48 ≤ c.toNat ∧ c.toNat ≤ 57 ∨ 97 ≤ c.toNat ∧ c.toNat ≤ 102 := by
    rcases h with ⟨h1, h2⟩ | ⟨h1, h2⟩
    · exact .inl ⟨of_decide_eq_true h1, of_decide_eq_true h2⟩
    · exact .inr ⟨of_decide_eq_true h1, of_decide_eq_true h2⟩
  rw [hc]
  generalize c.toNat = k at hrange
  rcases hrange with ⟨h1, h2⟩ | ⟨h1, h2⟩ <;> interval_cases k <;> decide

theorem binChar_hexDigits : ∀ c ∈ "0123456789abcdef".toList, (binChar c).length = 8 ∧
    ∀ d ∈ "0123456789abcdef".toList, binChar c = binChar d → c = d := by decide

theorem length_binChar (h : isHexLower c) : (binChar c).length = 8 := (binChar_hexDigits c (mem_hexDigits h)).1

theorem binChar_inj (hc : isHexLower c) (hd : isHexLower d) (h : binChar c = binChar d) : c = d :=
  (binChar_hexDigits c (mem_hexDigits hc)).2 d (mem_hexDigits hd) h

namespace IsHexText
variable {s t : Text}

theorem length_binConvert (h : IsHexText w s) : (binConvert s).length = 8 * w := by
  rw [binConvert, List.length_flatMap_const fun c hc => length_binChar (h.2 c hc), h.1]

/-- A hash occurs in an annealed hash only if it is that hash. -/
theorem infix_iff (hs : IsHexText 56 s ∨ IsHexText 64 s) (ht : IsHexText 56 t) :
    binConvert s <:+: binConvert t ↔ t = s := by
  constructor
  · intro h
    have hle := h.length_le
    rw [ht.length_binConvert] at hle
    rcases hs with hs | hs
    · have heq := h.eq_of_length (by rw [ht.length_binConvert, hs.length_binConvert])
      exact (List.flatMap_inj_of_length (w := 8) (fun c hc => length_binChar (hs.2 c hc))
        (fun c hc => length_binChar (ht.2 c hc)) (by decide)
        (fun c hc d hd => binChar_inj (hs.2 c hc) (ht.2 d hd)) heq).symm
    · rw [hs.length_binConvert] at hle
      omega
  · rintro rfl
    exact List.infix_refl _

end IsHexText

theorem isHex_checkAnneal (nonce blockHash : Text) : IsHexText 56 (checkAnneal H m nonce blockHash) := by
  rw [checkAnneal]
  split
  · exact H.isHex_anneal3 _
  · exact H.isHex_anneal3Regnet _

theorem mineAnneal_eq (h : m.isRegnet = true) (nonce blockHash : Text) :
    mineAnneal H m nonce blockHash = checkAnneal H m nonce blockHash := by
  rw [mineAnneal, checkAnneal, moduleHeavy, h]
  simp

/-! ## What the search finds -/

section
variable {H m} {S : Search} {blockHash target parent nonce tip : Text} {round real : Nat} {needed : Int} {diff : Val}

theorem mineLoop_some (h : mineLoop H m S target blockHash fuel round = some nonce) :
    target <:+: mineAnneal H m nonce blockHash := by
  induction fuel generalizing round with
  | zero => cases h
  | succ fuel ih =>
    rw [mineLoop] at h
    split at h
    · cases h
    · split at h
      · rename_i found hround
        cases h
        rw [mineRound] at hround
        have hfound := List.find?_some hround
        exact of_decide_eq_true hfound
      · split at h
        · cases h
        · split at h
          · cases h
          · exact ih h

/-- A nonce that is found has the first characters of the tip in its hash. -/
theorem mineNonce_some (h : mineNonce H m S blockHash diff = .ok (some (tip, nonce))) : tip = blockHash ∧
    ∃ k, diffHex (if m.isRegnet then .int regnetDiff else diff) = .ok k ∧
      blockHash.take k <:+: mineAnneal H m nonce blockHash := by
  rw [mineNonce] at h
  split at h
  · cases h
  · obtain ⟨k, hk, h⟩ := Except.bind_eq_ok.1 h
    have hsome := Except.ok.inj h
    obtain ⟨found, hloop, heq⟩ := Option.map_eq_some_iff.1 hsome
    cases heq
    exact ⟨rfl, k, hk, mineLoop_some hloop⟩

theorem diffHex_regnet : diffHex (.int regnetDiff) = .ok 1 := by decide +kernel

/-! ## What the check accepts -/

theorem checkBlock_of_le (h : (diff.toInt : Except Err Int) = .ok needed) (hle : needed ≤ (real : Int)) (stamp : Text)
    (qReceived qLast : Number) : checkBlock real diff stamp qReceived qLast = .ok diff := by
  rw [checkBlock, h, Except.ok_bind, if_pos hle]
  rfl

theorem checkBlock_of_lt (h : (diff.toInt : Except Err Int) = .ok needed) (hlt : (real : Int) < needed) (qReceived : Number) :
    checkBlock real diff ['0'] qReceived (.ofRat 0) = .error (.raised .lowDifficulty) := by
  have hts : (decimal ['0'] : Except Err Number) = .ok (.ofRat 0) := by decide +kernel
  have hsum : (add (.ofRat 0) (.ofRat 180) : Except Err Number) = .ok (.ofRat 180) := by decide +kernel
  have hcmp : (lt (.ofRat 180) (.ofRat 0) : Except Err Bool) = .ok false := by decide +kernel
  rw [checkBlock, h, Except.ok_bind, if_neg (not_le.2 hlt)]
  simp only [hts, hsum, hcmp, Except.ok_bind]
  rfl

theorem diffmeHeavy3_of_ne (hparent : IsHexText 56 parent ∨ IsHexText 64 parent)
    (hne : checkAnneal H m nonce parent ≠ parent) : ∃ real, diffmeHeavy3 H m nonce parent = some real ∧
      ∀ k, k ≤ real ↔ (binConvert parent).take k <:+: binConvert (checkAnneal H m nonce parent) :=
  List.longestMatch_of_not_infix fun h => hne ((IsHexText.infix_iff hparent (isHex_checkAnneal H m _ _)).1 h)

theorem diffmeHeavy3_of_eq (heq : checkAnneal H m nonce parent = parent) :
    diffmeHeavy3 H m nonce parent = none := by
  rw [diffmeHeavy3, heq]
  exact List.longestMatch_of_occurs (List.infix_refl _)

theorem take_eight_infix (hregnet : m.isRegnet = true) (hparent : IsHexText w parent)
    (h : mineNonce H m S parent diff = .ok (some (tip, nonce))) :
    (binConvert parent).take 8 <:+: binConvert (checkAnneal H m nonce parent) := by
  obtain ⟨-, k, hk, hfound⟩ := mineNonce_some h
  rw [hregnet, if_pos rfl, diffHex_regnet] at hk
  cases hk
  rw [mineAnneal_eq H m hregnet] at hfound
  have htake : (binConvert parent).take (8 * 1) = binConvert (parent.take 1) :=
    List.take_flatMap_const (fun c hc => length_binChar (hparent.2 c hc)) 1
  exact htake ▸ hfound.flatMap binChar

end

/-- A nonce that is mined is accepted whatever the timestamps if and only if its hash is not the parent's own
and, but on a regnet, holds as many bits of the parent as the difficulty says. -/
theorem mined_nonce_accepted_iff (S : Search) {parent : Text}
    (hparent : IsHexText 56 parent ∨ IsHexText 64 parent) {diff : Val} {needed : Int}
    (hdiff : (diff.toInt : Except Err Int) = .ok needed) {tip nonce : Text}
    (hmined : mineNonce H m S parent diff = .ok (some (tip, nonce))) :
    (∀ stamp qReceived qLast, ∃ saved,
      measuredCheckBlock H m nonce parent diff stamp qReceived qLast = some (.ok saved)) ↔
    checkAnneal H m nonce parent ≠ parent ∧ (m.isRegnet = true ∨
      (binConvert parent).take needed.toNat <:+: binConvert (checkAnneal H m nonce parent)) := by
  constructor
  · intro hall
    obtain ⟨saved, hsaved⟩ := hall ['0'] (.ofRat 0) (.ofRat 0)
    rw [measuredCheckBlock] at hsaved
    have hne : checkAnneal H m nonce parent ≠ parent := by
      intro heq
      rw [diffmeHeavy3_of_eq heq] at hsaved
      cases hsaved
    refine ⟨hne, ?_⟩
    by_cases hregnet : m.isRegnet = true
    · exact .inl hregnet
    · obtain ⟨real, hreal, hbits⟩ := diffmeHeavy3_of_ne hparent hne
      rw [hreal, if_neg hregnet] at hsaved
      refine .inr ((hbits _).1 ?_)
      by_contra hlt
      have hlow : (real : Int) < needed := by omega
      rw [Option.map_some, checkBlock_of_lt hdiff hlow] at hsaved
      cases hsaved
  · rintro ⟨hne, hreach⟩ stamp qReceived qLast
    obtain ⟨real, hreal, hbits⟩ := diffmeHeavy3_of_ne hparent hne
    rw [measuredCheckBlock, hreal, Option.map_some]
    by_cases hregnet : m.isRegnet = true
    · have h8 : 8 ≤ real := by
        rw [hbits]
        rcases hparent with hparent | hparent
        · exact take_eight_infix hregnet hparent hmined
        · exact take_eight_infix hregnet hparent hmined
      rw [if_pos hregnet]
      refine ⟨_, congrArg some (checkBlock_of_le rfl ?_ stamp qReceived qLast)⟩
      have : ((regnetDiff : Int) - 8) = 8 := rfl
      omega
    · have hle : needed.toNat ≤ real := (hbits _).2 (hreach.resolve_left hregnet)
      rw [if_neg hregnet]
      exact ⟨_, congrArg some (checkBlock_of_le hdiff (by omega) stamp qReceived qLast)⟩

/-! ## A hash that is always the same -/

def Heavy3.const (s : Text) (h : IsHexText 56 s) : Heavy3 where
  sha224 _ := 0
  blake2b _ := 0
  anneal3 _ := s
  anneal3Regnet _ := s
  isHex_anneal3 _ := h
  isHex_anneal3Regnet _ := h

def sampleMiner (isRegnet : Bool) : MiningNode where
  isRegnet
  heavy := true
  forkSignal := false
  newPow := false
  address := List.replicate 56 'a'

def sampleSearch : Search := ⟨fun _ => false, fun _ => 7, fun _ => []⟩

/-- A parent whose hash starts with the digits in order. -/
def sampleParent : Text := "0123456789abcdef".toList ++ List.replicate 40 '0'

/-- A hash that shares the first `k` characters with it. -/
def sampleHash (k : Nat) : Text := sampleParent.take k ++ List.replicate (56 - k) 'f'

theorem sampleHash_isHex : ∀ k ≤ 5, IsHexText 56 (sampleHash k) := by decide +kernel

theorem mined_nonce_accepted_regnet :
    mineNonce (.const (sampleHash 1) (sampleHash_isHex 1 (by decide))) (sampleMiner true) sampleSearch
      sampleParent (.int 16) = .ok (some (sampleParent, ['7'])) ∧
    ∀ stamp qReceived qLast, ∃ saved,
      measuredCheckBlock (.const (sampleHash 1) (sampleHash_isHex 1 (by decide))) (sampleMiner true) ['7']
        sampleParent (.int 16) stamp qReceived qLast = some (.ok saved) := by
  have hmined : mineNonce (.const (sampleHash 1) (sampleHash_isHex 1 (by decide))) (sampleMiner true)
      sampleSearch sampleParent (.int 16) = .ok (some (sampleParent, ['7'])) := by decide +kernel
  exact ⟨hmined, (mined_nonce_accepted_iff _ _ _ (.inl (by decide +kernel)) rfl hmined).2
    ⟨by decide +kernel, .inl rfl⟩⟩

/-- At difficulty 50 the miner looks for five characters, which are 40 bits; the check asks for 50. -/
theorem mined_nonce_refused :
    IsHexText 56 sampleParent ∧
    mineNonce (.const (sampleHash 5) (sampleHash_isHex 5 (by decide))) (sampleMiner false) sampleSearch
      sampleParent (.float (.ofRat 50)) = .ok (some (sampleParent, ['7'])) ∧
    measuredCheckBlock (.const (sampleHash 5) (sampleHash_isHex 5 (by decide))) (sampleMiner false) ['7']
      sampleParent (.float (.ofRat 50)) "1500000060.00".toList (.ofRat 1500000060) (.ofRat 1500000000) =
      some (.error (.raised .lowDifficulty)) := by
  refine ⟨by decide +kernel, by decide +kernel, by decide +kernel⟩

/-! ## Where the measurement ends -/

/-- The loop of `diffme_heavy3`, for at most `fuel` rounds. -/
def diffmeLoop (nonce blockHash : Text) (fuel : Nat) : Option Nat :=
  List.matchLoop (binConvert blockHash) (binConvert (checkAnneal H m nonce blockHash)) fuel 1

theorem diffmeHeavy3_eq_some_iff (nonce blockHash : Text) {d : Nat} :
    diffmeHeavy3 H m nonce blockHash = some d ↔ ∃ fuel, diffmeLoop H m nonce blockHash fuel = some d :=
  List.longestMatch_eq_some_iff

/-- How many bits of the block hash are found in the annealed hash, counting from the first one. -/
def IsMeasured (nonce blockHash : Text) (d : Nat) : Prop :=
  IsGreatest {k | k ≤ (binConvert blockHash).length ∧
    (binConvert blockHash).take k <:+: binConvert (checkAnneal H m nonce blockHash)} d

/-- The measurement ends with the longest match if and only if the block hash does not occur as a whole. -/
theorem diffmeHeavy3_measures_iff (nonce blockHash : Text) :
    (∃ fuel d, diffmeLoop H m nonce blockHash fuel = some d ∧ IsMeasured H m nonce blockHash d) ↔
    ¬binConvert blockHash <:+: binConvert (checkAnneal H m nonce blockHash) := by
  constructor
  · rintro ⟨fuel, d, hd, -⟩ hwhole
    rw [diffmeLoop, List.matchLoop_of_occurs hwhole] at hd
    cases hd
  · intro hpart
    obtain ⟨d, hd, hiff⟩ := List.longestMatch_of_not_infix hpart
    have hlen : d < (binConvert blockHash).length := by
      by_contra hge
      have htake := (hiff d).1 le_rfl
      rw [List.take_of_length_le (by omega)] at htake
      exact hpart htake
    obtain ⟨fuel, hfuel⟩ := (diffmeHeavy3_eq_some_iff H m nonce blockHash).1 hd
    refine ⟨fuel, d, hfuel, ⟨by omega, (hiff d).1 le_rfl⟩, ?_⟩
    intro k hk
    exact (hiff k).2 hk.2

/-- The empty block hash occurs everywhere, and one that is a single digit in most hashes. -/
theorem diffmeHeavy3_endless :
    (¬∃ fuel d, diffmeLoop (.const (sampleHash 0) (sampleHash_isHex 0 (by decide))) (sampleMiner false) ['7'] []
      fuel = some d) ∧
    ¬∃ fuel d, diffmeLoop (.const (sampleHash 0) (sampleHash_isHex 0 (by decide))) (sampleMiner false) ['7'] ['f']
      fuel = some d := by
  have hnil : binConvert [] <:+: binConvert (checkAnneal (.const (sampleHash 0) (sampleHash_isHex 0 (by decide)))
      (sampleMiner false) ['7'] []) := by decide +kernel
  have hdigit : binConvert ['f'] <:+: binConvert (checkAnneal
      (.const (sampleHash 0) (sampleHash_isHex 0 (by decide))) (sampleMiner false) ['7'] ['f']) := by decide +kernel
  refine ⟨?_, ?_⟩
  · rintro ⟨fuel, d, h⟩
    rw [diffmeLoop, List.matchLoop_of_occurs hnil] at h
    cases h
  · rintro ⟨fuel, d, h⟩
    rw [diffmeLoop, List.matchLoop_of_occurs hdigit] at h
    cases h

end Bismuth
