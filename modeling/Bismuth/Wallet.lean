import Bismuth.Serialize

/-!
# The signing buffer of the browser wallet

`web/lib/bismuth-tx.js` has a copy of Python's `repr` of a `str`. It escapes what ASCII has to be escaped and writes
every other character as it is, where Python escapes what is not printable.
-/

namespace Bismuth
open Py

namespace Wallet

/-- One character of `pyReprStr`. -/
def reprChar (quote ch : Char) : Text :=
  if ch = '\\' then ['\\', '\\']
  else if ch = quote then ['\\', quote]
  else if ch = '\n' then ['\\', 'n']
  else if ch = '\r' then ['\\', 'r']
  else if ch = '\t' then ['\\', 't']
  else if ch.toNat < 0x20 ∨ ch.toNat = 0x7f then '\\' :: 'x' :: hexPad 2 ch.toNat
  else [ch]

def pyReprStr (s : Text) : Text :=
  let quote := if '\'' ∈ s ∧ '"' ∉ s then '"' else '\''
  quote :: (s.flatMap (reprChar quote) ++ [quote])

/-- One character of `_utf8`. -/
def utf8Char (ch : Char) : Bytes :=
  let c := ch.toNat
  (if c < 0x80 then [c]
  else if c < 0x800 then [0xc0 ||| (c >>> 6), 0x80 ||| (c &&& 0x3f)]
  else if c < 0x10000 then [0xe0 ||| (c >>> 12), 0x80 ||| ((c >>> 6) &&& 0x3f), 0x80 ||| (c &&& 0x3f)]
  else [0xf0 ||| (c >>> 18), 0x80 ||| ((c >>> 12) &&& 0x3f), 0x80 ||| ((c >>> 6) &&& 0x3f), 0x80 ||| (c &&& 0x3f)]).map
    UInt8.ofNat

/-- `signatureBuffer`; a browser without `TextEncoder` takes the encoder of the wallet. -/
def signatureBuffer (textEncoder : Bool) (timestamp address recipient amount operation openfield : Text) : Bytes :=
  let s := reprSeq '(' ')' ([timestamp, address, recipient, amount, operation, openfield].map pyReprStr)
  if textEncoder then utf8 s else s.flatMap utf8Char

/-! ## The encoder -/

private theorem or_eq_add {n b i : Nat} (a : Nat) (hn : n = 2 ^ i * a) (hb : b < 2 ^ i) : n ||| b = b + n := by
  rw [hn, ← Nat.two_pow_add_eq_or_of_lt hb, Nat.add_comm]

private theorem continuation (n : Nat) : 0x80 ||| (n &&& 0x3f) = n % 64 + 128 := by
  have hmod : n &&& 0x3f = n % 64 := Nat.and_two_pow_sub_one_eq_mod n 6
  rw [hmod]
  exact or_eq_add 1 (i := 7) rfl (by omega)

theorem utf8Char_eq (c : Char) : utf8Char c = String.utf8EncodeChar c := by
  have hlt : c.val.toNat < 0x110000 := by
    rcases c.valid with h | ⟨-, h⟩
    · exact Nat.lt_of_lt_of_le h (by decide)
    · exact h
  have hval : c.toNat = c.val.toNat := rfl
  simp only [utf8Char, String.utf8EncodeChar, Nat.shiftRight_eq_div_pow, continuation, hval]
  generalize c.val.toNat = n at hlt
  -- one case per encoded length
  split_ifs with h1 _ _ h2 _ _ h3
  any_goals omega
  · rfl
  · have hlead : 0xc0 ||| n / 2 ^ 6 = n / 64 % 32 + 192 := (or_eq_add 3 (i := 6) rfl (by omega)).trans (by omega)
    rw [hlead]
    rfl
  · have hlead : 0xe0 ||| n / 2 ^ 12 = n / 4096 % 16 + 224 := (or_eq_add 7 (i := 5) rfl (by omega)).trans (by omega)
    rw [hlead]
    rfl
  · have hlead : 0xf0 ||| n / 2 ^ 18 = n / 262144 % 8 + 240 := (or_eq_add 15 (i := 4) rfl (by omega)).trans (by omega)
    rw [hlead]
    rfl

theorem signatureBuffer_eq (textEncoder : Bool) (timestamp address recipient amount operation openfield : Text) :
    signatureBuffer textEncoder timestamp address recipient amount operation openfield =
      utf8 (reprSeq '(' ')' ([timestamp, address, recipient, amount, operation, openfield].map pyReprStr)) := by
  have hchar : utf8Char = String.utf8EncodeChar := funext utf8Char_eq
  rw [signatureBuffer, hchar]
  split <;> rfl

/-! ## The two forms of `repr` -/

variable {P : Prims}

def escaped (P : Prims) (c : Char) : Bool := 0x7f < c.toNat && !P.isPrintable c

theorem reprChar_eq {q c : Char} (h : escaped P c = false) :
    reprChar q c = Bismuth.reprChar P.isPrintable q c := by
  have hplain : ¬(c.toNat < 32 ∨ c.toNat = 127) → c.toNat < 127 ∨ P.isPrintable c = true := by
    intro hc
    rw [escaped, Bool.and_eq_false_iff, decide_eq_false_iff_not, Bool.not_eq_false'] at h
    obtain h | h := h
    · exact .inl (by omega)
    · exact .inr h
  rw [reprChar, Bismuth.reprChar]
  split_ifs <;> simp_all

theorem mem_reprChar {q c : Char} (hq : q.toNat < 0x7f) (h : escaped P c) : c ∈ reprChar q c := by
  have hc : 0x7f < c.toNat := by
    rw [escaped, Bool.and_eq_true, decide_eq_true_eq] at h
    exact h.1
  have hne : ∀ d : Char, d.toNat ≤ 0x7f → c ≠ d := by
    rintro d hd rfl
    omega
  rw [reprChar, if_neg (hne _ (by decide)), if_neg (hne _ hq.le), if_neg (hne _ (by decide)), if_neg (hne _ (by decide)),
    if_neg (hne _ (by decide)), if_neg (by omega)]
  exact List.mem_singleton.2 rfl

theorem toNat_le_of_mem_hexPad {w n : Nat} {c : Char} (h : c ∈ hexPad w n) : c.toNat ≤ 0x7f := by
  have hdigit : ∀ k < 16, (Nat.digitChar k).toNat ≤ 0x7f := by decide
  rw [hexPad, zeroPad, List.mem_append] at h
  obtain h | h := h
  · rw [List.eq_of_mem_replicate h]
    decide
  · induction n using Nat.strong_induction_on with
    | _ n ih =>
      rw [Nat.toDigits_eq_if (by decide)] at h
      split at h
      · rename_i hn
        rw [List.mem_singleton.1 h]
        exact hdigit n hn
      · rename_i hn
        rw [List.mem_append, List.mem_singleton] at h
        obtain h | rfl := h
        · exact ih (n / 16) (by omega) h
        · exact hdigit _ (Nat.mod_lt _ (by decide))

theorem not_escaped_of_mem_reprChar {q c d : Char} (hq : q.toNat < 0x7f) (h : d ∈ Bismuth.reprChar P.isPrintable q c) :
    escaped P d = false := by
  have hascii : d.toNat ≤ 0x7f → escaped P d = false := by
    intro hd
    rw [escaped, decide_eq_false (by omega), Bool.false_and]
  have hesc : ∀ t : Char, t.toNat ≤ 0x7f → ∀ w n : Nat, d ∈ '\\' :: t :: hexPad w n → escaped P d = false := by
    intro t ht w n hd
    obtain rfl | rfl | hd : d = '\\' ∨ d = t ∨ d ∈ hexPad w n := by simpa using hd
    · exact hascii (by decide)
    · exact hascii ht
    · exact hascii (toNat_le_of_mem_hexPad hd)
  have hpair : ∀ t : Char, t.toNat ≤ 0x7f → d ∈ ['\\', t] → escaped P d = false := by
    intro t ht hd
    obtain rfl | rfl : d = '\\' ∨ d = t := by simpa using hd
    · exact hascii (by decide)
    · exact hascii ht
  rw [Bismuth.reprChar] at h
  split_ifs at h with h1 h2 h3 h4 h5 h6 h7 h8
  · obtain rfl | rfl := h1
    · exact hpair _ hq.le h
    · exact hpair _ (by decide) h
  · exact hpair _ (by decide) h
  · exact hpair _ (by decide) h
  · exact hpair _ (by decide) h
  · exact hesc _ (by decide) _ _ h
  · obtain rfl := List.mem_singleton.1 h
    obtain h6 | h6 := h6
    · exact hascii h6.le
    · rw [escaped, h6, Bool.not_true, Bool.and_false]
  · exact hesc _ (by decide) _ _ h
  · exact hesc _ (by decide) _ _ h
  · exact hesc _ (by decide) _ _ h

theorem quote_lt (s : Text) : (if '\'' ∈ s ∧ '"' ∉ s then '"' else '\'').toNat < 0x7f := by
  split <;> decide

theorem pyReprStr_eq {s : Text} (h : ∀ c ∈ s, escaped P c = false) : pyReprStr s = reprText P.isPrintable s := by
  rw [pyReprStr, reprText, List.flatMap_congr fun c hc => reprChar_eq (h c hc)]

theorem mem_pyReprStr {s : Text} {c : Char} (hc : c ∈ s) (h : escaped P c) : c ∈ pyReprStr s := by
  rw [pyReprStr]
  refine List.mem_cons_of_mem _ (List.mem_append_left _ (List.mem_flatMap.2 ⟨c, hc, ?_⟩))
  exact mem_reprChar (quote_lt s) h

theorem not_escaped_of_mem_reprText {s : Text} {c : Char} (hc : c ∈ reprText P.isPrintable s) : escaped P c = false := by
  have hquote : ∀ q : Char, q.toNat < 0x7f → escaped P q = false := by
    intro q hq
    rw [escaped, decide_eq_false (by omega), Bool.false_and]
  rw [reprText, List.mem_cons, List.mem_append, List.mem_singleton] at hc
  obtain rfl | hc | rfl := hc
  · exact hquote _ (quote_lt s)
  · obtain ⟨d, -, hd⟩ := List.mem_flatMap.1 hc
    exact not_escaped_of_mem_reprChar (quote_lt s) hd
  · exact hquote _ (quote_lt s)

theorem mem_reprSeq {left right c : Char} {items : List Text} {t : Text} (ht : t ∈ items) (hc : c ∈ t) :
    c ∈ reprSeq left right items := by
  refine List.mem_cons_of_mem _ (List.mem_append_left _ ?_)
  induction items with
  | nil => cases ht
  | cons a items ih =>
    cases items with
    | nil =>
      obtain rfl := List.mem_singleton.1 ht
      rwa [List.intercalate_singleton]
    | cons b items =>
      rw [List.intercalate_cons_cons, List.mem_append, List.mem_append]
      obtain rfl | ht := List.mem_cons.1 ht
      · exact .inl (.inl hc)
      · exact .inr (ih ht)

/-- A character of a tuple is of an element, or stands between them. -/
theorem mem_of_mem_reprSeq {left right c : Char} {items : List Text} (h : c ∈ reprSeq left right items) :
    c ∈ [left, right, ',', ' '] ∨ ∃ t ∈ items, c ∈ t := by
  rw [reprSeq, List.mem_cons, List.mem_append, List.mem_singleton] at h
  obtain rfl | h | rfl := h
  · simp
  · induction items with
    | nil => cases h
    | cons a items ih =>
      cases items with
      | nil =>
        rw [List.intercalate_singleton] at h
        exact .inr ⟨a, by simp, h⟩
      | cons b items =>
        rw [List.intercalate_cons_cons, List.mem_append, List.mem_append] at h
        obtain (h | h) | h := h
        · exact .inr ⟨a, by simp, h⟩
        · obtain rfl | rfl : c = ',' ∨ c = ' ' := by simpa using h
          · simp
          · simp
        · refine (ih h).imp_right fun ⟨t, ht, hc⟩ => ⟨t, List.mem_cons_of_mem _ ht, hc⟩
  · simp

/-- **The wallet signs what the node verifies** exactly when no field has a character beyond ASCII that is not
printable. -/
theorem signatureBuffer_eq_iff (P : Prims) (textEncoder : Bool)
    (timestamp address recipient amount operation openfield : Text) :
    signatureBuffer textEncoder timestamp address recipient amount operation openfield =
        Bismuth.signatureBuffer P timestamp address recipient amount operation openfield ↔
      ∀ s ∈ [timestamp, address, recipient, amount, operation, openfield], ∀ c ∈ s, 0x7f < c.toNat → P.isPrintable c := by
  rw [signatureBuffer_eq, Bismuth.signatureBuffer]
  generalize [timestamp, address, recipient, amount, operation, openfield] = fields
  have hiff : ∀ c : Char, (0x7f < c.toNat → P.isPrintable c) ↔ escaped P c = false := by
    intro c
    rw [escaped, Bool.and_eq_false_iff, decide_eq_false_iff_not, Bool.not_eq_false', ← imp_iff_not_or]
  simp only [hiff]
  constructor
  · -- the character would stand in what Python writes
    intro heq s hs c hc
    by_contra hesc
    rw [Bool.not_eq_false] at hesc
    have hmem : c ∈ reprSeq '(' ')' (fields.map (reprText P.isPrintable)) := by
      rw [← utf8_injective heq]
      exact mem_reprSeq (List.mem_map_of_mem hs) (mem_pyReprStr hc hesc)
    obtain hmem | ⟨t, ht, hmem⟩ := mem_of_mem_reprSeq hmem
    · have hascii : ∀ d ∈ ['(', ')', ',', ' '], escaped P d = false := by
        intro d hd
        rw [escaped, decide_eq_false, Bool.false_and]
        revert d
        decide
      rw [hascii c hmem] at hesc
      cases hesc
    · obtain ⟨s', -, rfl⟩ := List.mem_map.1 ht
      rw [not_escaped_of_mem_reprText hmem] at hesc
      cases hesc
  · intro h
    rw [List.map_congr_left fun s hs => pyReprStr_eq (h s hs)]

/-- A no-break space in the openfield: the wallet signs the character, the node its escape. -/
theorem signatureBuffer_differs :
    signatureBuffer true "1700000000.00".toList [] [] "1.00000000".toList [] ['\u00a0'] ≠
      Bismuth.signatureBuffer .toy "1700000000.00".toList [] [] "1.00000000".toList [] ['\u00a0'] := by
  decide +kernel

end Wallet

end Bismuth
