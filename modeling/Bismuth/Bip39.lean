import Bismuth.HdWallet
import Bismuth.Py.Binary
import Mathlib

/-!
# Mnemonics

`bip39.py`: the phrase of an entropy and back, and the wallet of a phrase. The word list, SHA-256, NFKD and PBKDF2 are
parameters.
-/

namespace Bismuth
open Py

def IsLower (c : Char) : Prop := 'a' ≤ c ∧ c ≤ 'z'

theorem IsLower.toNat (h : IsLower c) : 97 ≤ c.toNat ∧ c.toNat ≤ 122 := h

theorem IsLower.isSpace_eq (h : IsLower c) : isSpace c = false := by
  have hc := h.toNat
  simp only [isSpace, Bool.or_eq_false_iff, Bool.and_eq_false_iff, decide_eq_false_iff_not, beq_eq_false_iff_ne]
  omega

theorem IsLower.ne_blank (h : IsLower c) : c ≠ ' ' := by
  rintro rfl
  exact absurd h.isSpace_eq (by decide)

structure Bip39 where
  /-- `WORDLIST`. -/
  words : List Text
  length_words : words.length = 2048
  nodup_words : words.Nodup
  ne_nil_of_mem : ∀ w ∈ words, w ≠ []
  lower_of_mem : ∀ w ∈ words, ∀ c ∈ w, IsLower c
  sha256 : Bytes → Bytes
  length_sha256 : ∀ b, (sha256 b).length = 32
  nfkd : Text → Text
  nfkd_nfkd : ∀ s, nfkd (nfkd s) = nfkd s
  nfkd_ascii : ∀ s, (∀ c ∈ s, c.toNat < 128) → nfkd s = s

inductive Phrase where
  | text (s : Text)
  | list (ws : List Text)

namespace Bip39
variable (B : Bip39)

/-- The first `k` bits of the checksum. -/
def checksumBits (entropy : Bytes) (k : Nat) : Text := (binText 256 (beVal (B.sha256 entropy))).take k

/-- The words of `_entropy_to_mnemonic`. A slice of 11 bits is below 2048, so that the look-up does not fail. -/
def mnemonicWords (entropy : Bytes) : List Text :=
  let entBits := entropy.length * 8
  let bits := binText entBits (beVal entropy) ++ B.checksumBits entropy (entBits / 32)
  (slices 11 bits).map fun s => B.words.getD (binVal s) []

def entropyLengths : List Nat := [16, 20, 24, 28, 32]

def entropyToMnemonic (entropy : Bytes) : Except HdErr Text :=
  if entropy.length ∉ entropyLengths then .error .valueError
  else .ok ([' '].intercalate (B.mnemonicWords entropy))

def normalize : Phrase → List Text
  | .text s => ((B.nfkd (strip s)).splitOn ' ').filter (· ≠ [])
  | .list ws => ws

/-- `_WORD_INDEX[w]`; a missing key is turned into a `ValueError`. -/
def wordIndex (w : Text) : Except HdErr Nat :=
  match B.words.idxOf? w with
  | some i => .ok i
  | none => .error .valueError

def toEntropy (mnemonic : Phrase) : Except HdErr Bytes :=
  let words := B.normalize mnemonic
  if words.length ∉ [12, 15, 18, 21, 24] then .error .valueError
  else do
    let indices ← words.mapM B.wordIndex
    let bits := indices.flatMap (binText 11)
    let total := words.length * 11
    let entBits := total * 32 / 33
    let entropy := beBytes (entBits / 8) (binVal (bits.take entBits))
    if bits.drop entBits ≠ B.checksumBits entropy (total - entBits) then .error .valueError else .ok entropy

/-- `check`; `to_entropy` raises nothing but `ValueError`. -/
def check (mnemonic : Phrase) : Bool := (B.toEntropy mnemonic).isOk

def toSeed (pbkdf2 : (password salt : Bytes) → { seed : Bytes // seed.length = 64 }) (mnemonic passphrase : Text) :
    Bytes :=
  (pbkdf2 (utf8 (B.nfkd mnemonic)) (utf8 (B.nfkd ("mnemonic".toList ++ passphrase)))).val

end Bip39

namespace HdWallet

def seedDomain : Bytes := utf8 "Bismuth seed".toList

/-- `HDWallet.__init__`. -/
def make (P : HdPrims) (seed : Bytes) (coinType : Int) : Except HdErr HdWallet :=
  if seed.length < 16 then .error .valueError
  else do
    let i := P.hmacSha512 seedDomain seed
    return ⟨← HdNode.make (i.take 32) (i.drop 32) 0 0, coinType⟩

def fromMnemonic (B : Bip39) (P : HdPrims) (pbkdf2 : (password salt : Bytes) → { seed : Bytes // seed.length = 64 })
    (mnemonic passphrase : Text) (coinType : Int) : Except HdErr HdWallet :=
  if ¬B.check (.text mnemonic) then .error .valueError else make P (B.toSeed pbkdf2 mnemonic passphrase) coinType

end HdWallet

/-! ## Entropies and their words -/

namespace Bip39
variable {B : Bip39}

def bits (B : Bip39) (entropy : Bytes) : Text :=
  binText (entropy.length * 8) (beVal entropy) ++ B.checksumBits entropy (entropy.length / 4)

theorem isBinary_bits (B : Bip39) (e : Bytes) : IsBinary (B.bits e) := by
  intro c hc
  obtain hc | hc := List.mem_append.1 hc
  · exact isBinary_binText _ _ c hc
  · exact isBinary_binText _ _ c (List.mem_of_mem_take hc)

theorem length_entropyText (h : e.length ∈ entropyLengths) :
    (binText (e.length * 8) (beVal e)).length = e.length * 8 := by
  refine length_binText ?_ ?_
  · simp only [entropyLengths, List.mem_cons, List.not_mem_nil, or_false] at h
    omega
  · have hlt := beVal_lt e
    rwa [show (256 : Nat) = 2 ^ 8 from rfl, ← pow_mul, Nat.mul_comm] at hlt

theorem length_checksumBits (B : Bip39) (e : Bytes) (hk : k ≤ 256) : (B.checksumBits e k).length = k := by
  have hlt := beVal_lt (B.sha256 e)
  rw [B.length_sha256, show (256 : Nat) ^ 32 = 2 ^ 256 from rfl] at hlt
  rw [checksumBits, List.length_take, length_binText (by decide) hlt]
  omega

theorem length_bits (B : Bip39) (h : e.length ∈ entropyLengths) : (B.bits e).length = 11 * (e.length * 3 / 4) := by
  have hsize := h
  simp only [entropyLengths, List.mem_cons, List.not_mem_nil, or_false] at hsize
  rw [bits, List.length_append, length_entropyText h, length_checksumBits _ _ (by omega)]
  omega

theorem mnemonicWords_eq (B : Bip39) (e : Bytes) :
    B.mnemonicWords e = (slices 11 (B.bits e)).map fun s => B.words.getD (binVal s) [] := by
  rw [mnemonicWords, bits, show e.length * 8 / 32 = e.length / 4 by omega]

theorem wordIndex_eq_ok : B.wordIndex w = .ok i ↔ i < 2048 ∧ B.words.getD i [] = w := by
  rw [← B.length_words]
  constructor
  · intro h
    rw [wordIndex] at h
    split at h
    · rename_i j hj
      cases h
      obtain ⟨hlt, heq, -⟩ := List.idxOf?_eq_some_iff.1 hj
      exact ⟨hlt, by rw [List.getD_eq_getElem _ _ hlt, heq]⟩
    · cases h
  · rintro ⟨hlt, rfl⟩
    have hidx : B.words.idxOf? (B.words.getD i []) = some i := by
      rw [List.getD_eq_getElem _ _ hlt, List.idxOf?_eq_some_iff]
      refine ⟨hlt, rfl, fun j hj heq => ?_⟩
      exact hj.ne ((B.nodup_words.getElem_inj_iff).1 heq)
    rw [wordIndex, hidx]

variable {ws : List Text}

theorem mapM_wordIndex (h : ws.mapM B.wordIndex = .ok idxs) : (idxs.flatMap (binText 11)).length = ws.length * 11 ∧
      (slices 11 (idxs.flatMap (binText 11))).map (fun s => B.words.getD (binVal s) []) = ws := by
  have hidx := Except.mapM_eq_ok.1 h
  have hlen : ∀ p ∈ idxs.map (binText 11), p.length = 11 := by
    intro p hp
    obtain ⟨i, hi, rfl⟩ := List.mem_map.1 hp
    obtain ⟨w, -, hw⟩ := hidx.exists_left hi
    exact length_binText (by decide) (wordIndex_eq_ok.1 hw).1
  refine ⟨?_, ?_⟩
  · rw [List.flatMap_def, List.length_flatten, List.eq_replicate_of_mem (a := 11) (l := (idxs.map _).map _) ?_]
    · simp [hidx.length_eq]
    · intro n hn
      obtain ⟨p, hp, rfl⟩ := List.mem_map.1 hn
      exact hlen p hp
  · rw [List.flatMap_def, slices_flatten (by decide) hlen, List.map_map]
    have hword : idxs.map ((fun s => B.words.getD (binVal s) []) ∘ binText 11) = ws.map id := by
      refine hidx.flip.map_eq fun {i w} hw => ?_
      rw [Function.comp_apply, binVal_binText]
      exact (wordIndex_eq_ok.1 hw).2
    rw [hword, List.map_id]

theorem mapM_slices {bits : Text} (hbin : IsBinary bits) (hlen : bits.length = 11 * m) :
    ∃ idxs, ((slices 11 bits).map fun s => B.words.getD (binVal s) []).mapM B.wordIndex = .ok idxs ∧
      idxs.flatMap (binText 11) = bits ∧ (slices 11 bits).length = m := by
  obtain ⟨pieces, rfl, hm, hpieces⟩ := exists_pieces hlen
  have hpiece : ∀ p ∈ pieces, IsBinary p := fun p hp c hc => hbin c (List.mem_flatten.2 ⟨p, hp, hc⟩)
  rw [slices_flatten (by decide) hpieces]
  refine ⟨pieces.map binVal, ?_, ?_, hm⟩
  · rw [Except.mapM_eq_ok, List.forall₂_map_left_iff, List.forall₂_map_right_iff, List.forall₂_same]
    intro p hp
    have hlt := (hpiece p hp).binVal_lt
    rw [hpieces p hp] at hlt
    exact wordIndex_eq_ok.2 ⟨hlt, rfl⟩
  · rw [List.flatMap_def, List.map_map, List.map_congr_left (g := id) ?_, List.map_id]
    intro p hp
    have h := (hpiece p hp).binText_binVal (by rw [hpieces p hp]; decide)
    rwa [hpieces p hp] at h

theorem entropy_of_bits {bits : Text} (hbin : IsBinary bits) (hlen : bits.length = n * 8) (hn : 0 < n) :
    binText (n * 8) (beVal (beBytes n (binVal bits))) = bits := by
  have hlt := hbin.binVal_lt
  rw [hlen, Nat.mul_comm, pow_mul, show (2 : Nat) ^ 8 = 256 from rfl] at hlt
  have h := hbin.binText_binVal (by omega)
  rwa [beVal_beBytes hlt, ← hlen]

/-- What `to_entropy` accepts: the words of the mnemonic of its result. -/
theorem toEntropy_eq_ok : B.toEntropy p = .ok e ↔ e.length ∈ entropyLengths ∧ B.normalize p = B.mnemonicWords e := by
  rw [toEntropy]
  generalize B.normalize p = ws
  constructor
  · intro h
    split at h
    · cases h
    · rename_i hcount
      obtain ⟨idxs, hidxs, h⟩ := Except.bind_eq_ok.1 h
      obtain ⟨hlen, hwords⟩ := mapM_wordIndex hidxs
      have hbin : IsBinary (idxs.flatMap (binText 11)) := by
        intro c hc
        obtain ⟨i, -, hc⟩ := List.mem_flatMap.1 hc
        exact isBinary_binText _ _ c hc
      generalize idxs.flatMap (binText 11) = bits at h hlen hwords hbin
      simp only [List.mem_cons, List.not_mem_nil, or_false, not_not] at hcount
      -- the entropy takes `n` bytes, and its checksum a quarter as many bits
      obtain ⟨n, hn⟩ : ∃ n, n = ws.length * 4 / 3 := ⟨_, rfl⟩
      have hent : ws.length * 11 * 32 / 33 = n * 8 := by omega
      have hcheck : ws.length * 11 - n * 8 = n / 4 := by omega
      simp only [hent, hcheck, Nat.mul_div_cancel n (show 0 < 8 by decide)] at h
      split at h
      · cases h
      · rename_i hsum
        cases h
        rw [not_not] at hsum
        have he : (beBytes n (binVal (bits.take (n * 8)))).length ∈ entropyLengths := by
          simp only [length_beBytes, entropyLengths, List.mem_cons, List.not_mem_nil, or_false]
          omega
        have htake : (bits.take (n * 8)).length = n * 8 := by
          rw [List.length_take]
          omega
        have hbits : B.bits (beBytes n (binVal (bits.take (n * 8)))) = bits := by
          rw [Bip39.bits, length_beBytes, ← hsum,
            entropy_of_bits (fun c hc => hbin c (List.mem_of_mem_take hc)) htake (by omega), List.take_append_drop]
        exact ⟨he, by rw [mnemonicWords_eq, hbits, hwords]⟩
  · rintro ⟨he, rfl⟩
    have hsize := he
    simp only [entropyLengths, List.mem_cons, List.not_mem_nil, or_false] at hsize
    obtain ⟨idxs, hidxs, hbits, hcount⟩ := mapM_slices (B := B) (B.isBinary_bits e) (B.length_bits he)
    rw [if_neg (by rw [mnemonicWords_eq, List.length_map, hcount]; simp; omega), mnemonicWords_eq, hidxs,
      Except.ok_bind, List.length_map, hcount, hbits]
    have hent : e.length * 3 / 4 * 11 * 32 / 33 = e.length * 8 := by omega
    have hcheck : e.length * 3 / 4 * 11 - e.length * 8 = e.length / 4 := by omega
    have htext := length_entropyText he
    simp only [hent, hcheck, Nat.mul_div_cancel e.length (show 0 < 8 by decide)]
    rw [Bip39.bits, List.take_left' htext, List.drop_left' htext, binVal_binText, beBytes_beVal, if_neg (by simp)]

/-! ## The phrase of an entropy -/

theorem mem_words_of_mem_mnemonicWords (h : e.length ∈ entropyLengths) (hw : w ∈ B.mnemonicWords e) : w ∈ B.words := by
  obtain ⟨idxs, hidxs, -⟩ := mapM_slices (B := B) (B.isBinary_bits e) (B.length_bits h)
  rw [← mnemonicWords_eq] at hidxs
  obtain ⟨i, -, hi⟩ := (Except.mapM_eq_ok.1 hidxs).exists_right hw
  obtain ⟨hlt, rfl⟩ := wordIndex_eq_ok.1 hi
  rw [← B.length_words] at hlt
  rw [List.getD_eq_getElem _ _ hlt]
  exact List.getElem_mem hlt

theorem ends_join (hws : ws ≠ []) (h : ∀ w ∈ ws, w ≠ []) :
    (∃ w ∈ ws, ([' '].intercalate ws).head? = w.head?) ∧ ∃ w ∈ ws, ([' '].intercalate ws).getLast? = w.getLast? := by
  induction ws with
  | nil => exact absurd rfl hws
  | cons w ws ih =>
    cases ws with
    | nil => simp
    | cons v ws =>
      obtain ⟨-, u, hu, hlast⟩ := ih (by simp) fun w hw => h w (List.mem_cons_of_mem _ hw)
      have hw := h w List.mem_cons_self
      have hu' := h u (List.mem_cons_of_mem _ hu)
      rw [List.intercalate_cons_cons]
      refine ⟨⟨w, List.mem_cons_self, ?_⟩, u, List.mem_cons_of_mem _ hu, ?_⟩
      · rw [List.append_assoc, List.head?_append_of_ne_nil _ hw]
      · rw [List.getLast?_append_of_ne_nil, hlast]
        intro hnil
        rw [hnil] at hlast
        exact hu' (List.getLast?_eq_none_iff.1 hlast.symm)

theorem mem_join (h : c ∈ [' '].intercalate ws) : c = ' ' ∨ ∃ w ∈ ws, c ∈ w := by
  induction ws with
  | nil => cases h
  | cons w ws ih =>
    cases ws with
    | nil =>
      rw [List.intercalate_singleton] at h
      exact .inr ⟨w, List.mem_cons_self, h⟩
    | cons v ws =>
      rw [List.intercalate_cons_cons, List.mem_append, List.mem_append, List.mem_singleton] at h
      obtain (h | h) | h := h
      · exact .inr ⟨w, List.mem_cons_self, h⟩
      · exact .inl h
      · obtain h | ⟨u, hu, h⟩ := ih h
        · exact .inl h
        · exact .inr ⟨u, List.mem_cons_of_mem _ hu, h⟩

theorem normalize_join (h : ∀ w ∈ ws, w ∈ B.words) : B.normalize (.text ([' '].intercalate ws)) = ws := by
  have hascii : B.nfkd ([' '].intercalate ws) = [' '].intercalate ws := by
    refine B.nfkd_ascii _ fun c hc => ?_
    obtain rfl | ⟨w, hw, hc⟩ := mem_join hc
    · decide
    · have hc := (B.lower_of_mem w (h w hw) c hc).toNat
      omega
  have hne : ∀ w ∈ ws, w ≠ [] := fun w hw => B.ne_nil_of_mem w (h w hw)
  obtain rfl | hws := eq_or_ne ws []
  · rw [normalize, show strip ([' '].intercalate []) = [' '].intercalate [] from rfl, hascii]
    rfl
  · have hend : ∀ {w}, w ∈ ws → ∀ c ∈ w, isSpace c = false :=
      fun hw c hc => (B.lower_of_mem _ (h _ hw) c hc).isSpace_eq
    obtain ⟨⟨u, hu, hhead⟩, v, hv, hlast⟩ := ends_join hws hne
    have hstrip : strip ([' '].intercalate ws) = [' '].intercalate ws := by
      refine stripWith_eq_self_of_ends ?_ ?_
      · intro c hc
        rw [hhead] at hc
        exact hend hu c (List.mem_of_mem_head? hc)
      · intro c hc
        rw [hlast] at hc
        exact hend hv c (List.mem_of_mem_getLast? hc)
    have hblank : ∀ w ∈ ws, ' ' ∉ w := fun w hw hmem => (B.lower_of_mem w (h w hw) _ hmem).ne_blank rfl
    rw [normalize, hstrip, hascii, List.splitOn_intercalate _ hblank hws, List.filter_eq_self]
    exact fun w hw => decide_eq_true (hne w hw)

theorem normalize_mnemonic (h : e.length ∈ entropyLengths) :
    B.normalize (.text ([' '].intercalate (B.mnemonicWords e))) = B.mnemonicWords e :=
  normalize_join fun _ => mem_words_of_mem_mnemonicWords h

/-- **Mnemonic encoding is a bijection onto valid phrases**: an entropy comes back from its mnemonic, and a list of
words is accepted if and only if it is the word list of the mnemonic of some entropy. -/
theorem mnemonic_bijective (B : Bip39) :
    (∀ e : Bytes, e.length ∈ entropyLengths →
      ∃ m, B.entropyToMnemonic e = .ok m ∧ B.toEntropy (.text m) = .ok e) ∧
    ∀ ws, (∃ e, B.toEntropy (.list ws) = .ok e) ↔
      ∃ e m, e.length ∈ entropyLengths ∧ B.entropyToMnemonic e = .ok m ∧ B.normalize (.text m) = ws := by
  have hmnemonic : ∀ {e : Bytes}, e.length ∈ entropyLengths →
      B.entropyToMnemonic e = .ok ([' '].intercalate (B.mnemonicWords e)) := by
    intro e he
    rw [entropyToMnemonic, if_neg (not_not.2 he)]
  refine ⟨fun e he => ⟨_, hmnemonic he, toEntropy_eq_ok.2 ⟨he, normalize_mnemonic he⟩⟩, fun ws => ⟨?_, ?_⟩⟩
  · rintro ⟨e, h⟩
    obtain ⟨he, hws⟩ := toEntropy_eq_ok.1 h
    exact ⟨e, _, he, hmnemonic he, (normalize_mnemonic he).trans hws.symm⟩
  · rintro ⟨e, m, he, hm, rfl⟩
    cases hm.symm.trans (hmnemonic he)
    exact ⟨e, toEntropy_eq_ok.2 ⟨he, normalize_mnemonic he⟩⟩

/-! ## The wallet of a phrase -/

theorem check_eq_true : B.check p = true ↔ ∃ e, B.toEntropy p = .ok e := by
  rw [check]
  cases B.toEntropy p with
  | error e => simp [Except.isOk, Except.toBool]
  | ok e => simp [Except.isOk, Except.toBool]

end Bip39

def HdPrims.echo : HdPrims where
  hmacSha512 _ message := if message.length = 64 then message else .replicate 64 0
  length_hmacSha512 _ message := by
    split
    · assumption
    · exact List.length_replicate
  publicKey key := key
  keyAddress _ := []

namespace HdWallet

theorem fromMnemonic_of_check {B : Bip39} (h : B.toEntropy (.text m) = .ok e) (P : HdPrims)
    (pbkdf2 : (password salt : Bytes) → { seed : Bytes // seed.length = 64 }) (passphrase : Text) (coinType : Int) :
    fromMnemonic B P pbkdf2 m passphrase coinType = make P (B.toSeed pbkdf2 m passphrase) coinType := by
  rw [fromMnemonic, if_neg (not_not.2 (Bip39.check_eq_true.2 ⟨e, h⟩))]

theorem map_master_make (P : HdPrims) (h : 16 ≤ seed.length) (coinType : Int) :
    (make P seed coinType).map (·.master) =
      HdNode.make ((P.hmacSha512 seedDomain seed).take 32) ((P.hmacSha512 seedDomain seed).drop 32) 0 0 := by
  rw [make, if_neg (by omega)]
  generalize P.hmacSha512 seedDomain seed = i
  change ((HdNode.make (i.take 32) (i.drop 32) 0 0).bind _).map _ = _
  cases HdNode.make (i.take 32) (i.drop 32) 0 0 with
  | error e => rfl
  | ok node => rfl

def tell (password : Bytes) (password' _salt : Bytes) : { seed : Bytes // seed.length = 64 } :=
  if password' = password then ⟨.replicate 64 1, rfl⟩ else ⟨.replicate 64 2, rfl⟩

/-- The NFKD form of an accepted phrase is all that its wallet keeps, and nothing less. -/
theorem fromMnemonic_differs {B : Bip39} {m₁ m₂ : Text} (h₁ : B.toEntropy (.text m₁) = .ok e)
    (h₂ : B.toEntropy (.text m₂) = .ok e) (hne : B.nfkd m₁ ≠ B.nfkd m₂) :
    ∃ P pbkdf2, ∀ passphrase coinType, (fromMnemonic B P pbkdf2 m₁ passphrase coinType).map (·.master) ≠
      (fromMnemonic B P pbkdf2 m₂ passphrase coinType).map (·.master) := by
  have hne' : utf8 (B.nfkd m₂) ≠ utf8 (B.nfkd m₁) := fun heq => hne (utf8_injective heq).symm
  refine ⟨.echo, tell (utf8 (B.nfkd m₁)), fun passphrase coinType => ?_⟩
  rw [fromMnemonic_of_check h₁, fromMnemonic_of_check h₂, Bip39.toSeed, Bip39.toSeed, tell, tell, if_pos rfl,
    if_neg hne', map_master_make _ (by simp), map_master_make _ (by simp)]
  decide +kernel

/-- **Two phrases with one entropy give one wallet**, whatever PBKDF2 and HMAC are, if and only if their NFKD forms are
equal. -/
theorem fromMnemonic_agrees_iff {B : Bip39} {m₁ m₂ : Text} {e : Bytes} (h₁ : B.toEntropy (.text m₁) = .ok e)
    (h₂ : B.toEntropy (.text m₂) = .ok e) :
    (∀ P pbkdf2 passphrase coinType, (fromMnemonic B P pbkdf2 m₁ passphrase coinType).map (·.master) =
      (fromMnemonic B P pbkdf2 m₂ passphrase coinType).map (·.master)) ↔ B.nfkd m₁ = B.nfkd m₂ := by
  constructor
  · intro h
    by_contra hne
    obtain ⟨P, pbkdf2, hdiffers⟩ := fromMnemonic_differs h₁ h₂ hne
    exact hdiffers [] 0 (h P pbkdf2 [] 0)
  · intro heq P pbkdf2 passphrase coinType
    rw [fromMnemonic_of_check h₁, fromMnemonic_of_check h₂, Bip39.toSeed, Bip39.toSeed, heq]

end HdWallet

/-! ## A word list -/

namespace Bip39

def toyWord (i : Nat) : Text :=
  [Char.ofNat (97 + i / 256), Char.ofNat (97 + i / 16 % 16), Char.ofNat (97 + i % 16)]

theorem isLower_ofNat : ∀ k < 16, IsLower (Char.ofNat (97 + k)) ∧ (Char.ofNat (97 + k)).toNat = 97 + k := by
  unfold IsLower
  decide

theorem toyWord_inj (hi : i < 2048) (hj : j < 2048) (h : toyWord i = toyWord j) : i = j := by
  have hval : ∀ k < 16, (Char.ofNat (97 + k)).toNat = 97 + k := fun k hk => (isLower_ofNat k hk).2
  simp only [toyWord, List.cons.injEq, and_true] at h
  obtain ⟨h₁, h₂, h₃⟩ := h
  have h₁ := congrArg Char.toNat h₁
  have h₂ := congrArg Char.toNat h₂
  have h₃ := congrArg Char.toNat h₃
  rw [hval _ (by omega), hval _ (by omega)] at h₁ h₂ h₃
  omega

/-- A codec with these words, a constant checksum, and an NFKD that turns a no-break space into a blank. -/
def toy : Bip39 where
  words := (List.range 2048).map toyWord
  length_words := by rw [List.length_map, List.length_range]
  nodup_words := by
    refine List.Nodup.map_on (fun i hi j hj h => ?_) List.nodup_range
    exact toyWord_inj (List.mem_range.1 hi) (List.mem_range.1 hj) h
  ne_nil_of_mem w hw := by
    obtain ⟨i, -, rfl⟩ := List.mem_map.1 hw
    exact List.cons_ne_nil _ _
  lower_of_mem w hw c hc := by
    obtain ⟨i, hi, rfl⟩ := List.mem_map.1 hw
    have hi := List.mem_range.1 hi
    simp only [toyWord, List.mem_cons, List.not_mem_nil, or_false] at hc
    obtain rfl | rfl | rfl := hc
    · exact (isLower_ofNat _ (by omega)).1
    · exact (isLower_ofNat _ (by omega)).1
    · exact (isLower_ofNat _ (by omega)).1
  sha256 _ := .replicate 32 0
  length_sha256 _ := List.length_replicate
  nfkd s := s.map fun c => if c = '\u00a0' then ' ' else c
  nfkd_nfkd s := by
    rw [List.map_map]
    apply List.map_congr_left
    intro c _
    rw [Function.comp_apply]
    split
    · rfl
    · rfl
  nfkd_ascii s hs := by
    rw [List.map_congr_left (g := id), List.map_id]
    intro c hc
    refine if_neg ?_
    rintro rfl
    exact absurd (hs _ hc) (by decide)

/-- The phrase of an entropy of zeros, with another character between the words. -/
def zeroPhrase (c : Char) : Text := [c].intercalate (.replicate 12 ['a', 'a', 'a'])

theorem toEntropy_zeroPhrase : toy.toEntropy (.text (zeroPhrase ' ')) = .ok (.replicate 16 0) ∧
    toy.toEntropy (.text (zeroPhrase '\u00a0')) = .ok (.replicate 16 0) ∧
    toy.toEntropy (.text (zeroPhrase ' ' ++ [' '])) = .ok (.replicate 16 0) := by
  decide +kernel

theorem mnemonic_bijective_sample : (List.replicate 16 (0 : UInt8)).length ∈ entropyLengths ∧
    ∃ m, toy.entropyToMnemonic (.replicate 16 0) = .ok m ∧ toy.toEntropy (.text m) = .ok (.replicate 16 0) :=
  ⟨by decide, (mnemonic_bijective toy).1 _ (by decide)⟩

end Bip39

namespace HdWallet
open Bip39

theorem fromMnemonic_agrees_sample : toy.toEntropy (.text (zeroPhrase ' ')) = .ok (.replicate 16 0) ∧
    toy.toEntropy (.text (zeroPhrase '\u00a0')) = .ok (.replicate 16 0) ∧
    ∀ P pbkdf2 passphrase coinType,
      (fromMnemonic toy P pbkdf2 (zeroPhrase ' ') passphrase coinType).map (·.master) =
        (fromMnemonic toy P pbkdf2 (zeroPhrase '\u00a0') passphrase coinType).map (·.master) := by
  obtain ⟨h₁, h₂, -⟩ := toEntropy_zeroPhrase
  exact ⟨h₁, h₂, (fromMnemonic_agrees_iff h₁ h₂).2 (by decide +kernel)⟩

/-- A blank after the last word does not change the entropy and gives another wallet. -/
theorem fromMnemonic_trailing_blank : toy.toEntropy (.text (zeroPhrase ' ')) = .ok (.replicate 16 0) ∧
    toy.toEntropy (.text (zeroPhrase ' ' ++ [' '])) = .ok (.replicate 16 0) ∧
    ∃ P pbkdf2, ∀ passphrase coinType,
      (fromMnemonic toy P pbkdf2 (zeroPhrase ' ') passphrase coinType).map (·.master) ≠
        (fromMnemonic toy P pbkdf2 (zeroPhrase ' ' ++ [' ']) passphrase coinType).map (·.master) := by
  obtain ⟨h₁, -, h₂⟩ := toEntropy_zeroPhrase
  exact ⟨h₁, h₂, fromMnemonic_differs h₁ h₂ (by decide +kernel)⟩

end HdWallet

end Bismuth
