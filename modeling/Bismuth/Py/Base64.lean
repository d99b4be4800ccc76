import Bismuth.Py.Bytes

/-!
# Base64

`base64.b64encode`, and `base64.b64decode` as it runs without `validate`: characters outside the
alphabet are skipped, a padding that completes a quantum ends the text, and the low bits that the
padding leaves over are dropped. Many texts therefore decode to the same bytes.
-/

namespace Py

def base64Char (n : Nat) : Char :=
  if n < 26 then Char.ofNat (n + 65)
  else if n < 52 then Char.ofNat (n + 71)
  else if n < 62 then Char.ofNat (n - 4)
  else if n = 62 then '+' else '/'

def base64Val? (c : Char) : Option Nat :=
  if 'A'.toNat ≤ c.toNat ∧ c.toNat ≤ 'Z'.toNat then some (c.toNat - 65)
  else if 'a'.toNat ≤ c.toNat ∧ c.toNat ≤ 'z'.toNat then some (c.toNat - 71)
  else if c.isDigit then some (c.toNat + 4)
  else if c = '+' then some 62
  else if c = '/' then some 63
  else none

/-- `base64.b64encode(b).decode()`. -/
def base64Encode : Bytes → Text
  | [] => []
  | [a] => [base64Char (a.toNat / 4), base64Char (a.toNat % 4 * 16), '=', '=']
  | [a, b] =>
    [base64Char (a.toNat / 4), base64Char (a.toNat % 4 * 16 + b.toNat / 16),
      base64Char (b.toNat % 16 * 4), '=']
  | a :: b :: c :: s =>
    base64Char (a.toNat / 4) :: base64Char (a.toNat % 4 * 16 + b.toNat / 16) ::
      base64Char (b.toNat % 16 * 4 + c.toNat / 64) :: base64Char (c.toNat % 64) :: base64Encode s

/-- The decoder's loop: `quad` characters of the current quantum read, `left` their pending bits,
`pads` the paddings seen since. -/
def base64Go (quad left pads : Nat) : Text → Option Bytes
  | [] => if quad = 0 then some [] else none
  | c :: s =>
    if c = '=' then
      if 2 ≤ quad then
        if 4 ≤ quad + (pads + 1) then some [] else base64Go quad left (pads + 1) s
      else base64Go quad left pads s
    else match base64Val? c with
    | none => base64Go quad left pads s
    | some v =>
      match quad with
      | 0 => base64Go 1 v 0 s
      | 1 => (UInt8.ofNat (left * 4 + v / 16) :: ·) <$> base64Go 2 (v % 16) 0 s
      | 2 => (UInt8.ofNat (left * 16 + v / 4) :: ·) <$> base64Go 3 (v % 4) 0 s
      | _ => (UInt8.ofNat (left * 64 + v) :: ·) <$> base64Go 0 0 0 s

/-- `base64.b64decode(s)`. -/
def base64Decode (s : Text) : Option Bytes :=
  if s.all (·.toNat < 128) then base64Go 0 0 0 s else none

/-! ## Decoding what was encoded -/

theorem base64Char_table : ∀ v < 64, base64Val? (base64Char v) = some v ∧ base64Char v ≠ '=' ∧
    (base64Char v).toNat < 128 := by decide

/-- A character of the alphabet is never skipped. -/
theorem base64Go_char (h : v < 64) (quad left pads : Nat) (s : Text) :
    base64Go quad left pads (base64Char v :: s) =
      match quad with
      | 0 => base64Go 1 v 0 s
      | 1 => (UInt8.ofNat (left * 4 + v / 16) :: ·) <$> base64Go 2 (v % 16) 0 s
      | 2 => (UInt8.ofNat (left * 16 + v / 4) :: ·) <$> base64Go 3 (v % 4) 0 s
      | _ => (UInt8.ofNat (left * 64 + v) :: ·) <$> base64Go 0 0 0 s := by
  obtain ⟨hv, hne, -⟩ := base64Char_table v h
  rw [base64Go, if_neg hne, hv]

theorem base64Go_two (h : v < 64) (h' : w < 64) (s : Text) :
    base64Go 0 0 0 (base64Char v :: base64Char w :: s) =
      (UInt8.ofNat (v * 4 + w / 16) :: ·) <$> base64Go 2 (w % 16) 0 s := by
  rw [base64Go_char h]
  exact base64Go_char h' 1 v 0 s

theorem base64Go_three (h : v < 64) (left : Nat) (s : Text) :
    base64Go 2 left 0 (base64Char v :: s) =
      (UInt8.ofNat (left * 16 + v / 4) :: ·) <$> base64Go 3 (v % 4) 0 s :=
  base64Go_char h 2 left 0 s

theorem base64Go_four (h : v < 64) (left : Nat) (s : Text) :
    base64Go 3 left 0 (base64Char v :: s) =
      (UInt8.ofNat (left * 64 + v) :: ·) <$> base64Go 0 0 0 s :=
  base64Go_char h 3 left 0 s

theorem uint8_ofNat_eq {a : UInt8} (h : n = a.toNat) : UInt8.ofNat n = a := by
  rw [h, UInt8.ofNat_toNat]

theorem base64Go_encode (b : Bytes) : base64Go 0 0 0 (base64Encode b) = some b := by
  induction b using base64Encode.induct with
  | case1 => rfl
  | case2 a =>
    have ha := a.toNat_lt
    have h1 : UInt8.ofNat (a.toNat / 4 * 4 + a.toNat % 4 * 16 / 16) = a := uint8_ofNat_eq (by omega)
    rw [base64Encode, base64Go_two (by omega) (by omega), h1]
    simp [base64Go]
  | case3 a b =>
    have ha := a.toNat_lt
    have hb := b.toNat_lt
    have h1 : UInt8.ofNat (a.toNat / 4 * 4 + (a.toNat % 4 * 16 + b.toNat / 16) / 16) = a :=
      uint8_ofNat_eq (by omega)
    have h2 : UInt8.ofNat ((a.toNat % 4 * 16 + b.toNat / 16) % 16 * 16 + b.toNat % 16 * 4 / 4) = b :=
      uint8_ofNat_eq (by omega)
    rw [base64Encode, base64Go_two (by omega) (by omega), base64Go_three (by omega), h1, h2]
    simp [base64Go]
  | case4 a b c s ih =>
    have ha := a.toNat_lt
    have hb := b.toNat_lt
    have hc := c.toNat_lt
    have h1 : UInt8.ofNat (a.toNat / 4 * 4 + (a.toNat % 4 * 16 + b.toNat / 16) / 16) = a :=
      uint8_ofNat_eq (by omega)
    have h2 : UInt8.ofNat ((a.toNat % 4 * 16 + b.toNat / 16) % 16 * 16 +
        (b.toNat % 16 * 4 + c.toNat / 64) / 4) = b := uint8_ofNat_eq (by omega)
    have h3 : UInt8.ofNat ((b.toNat % 16 * 4 + c.toNat / 64) % 4 * 64 + c.toNat % 64) = c :=
      uint8_ofNat_eq (by omega)
    rw [base64Encode, base64Go_two (by omega) (by omega), base64Go_three (by omega),
      base64Go_four (by omega), h1, h2, h3, ih]
    rfl

theorem ascii_of_mem_encode (b : Bytes) : ∀ c ∈ base64Encode b, c.toNat < 128 := by
  have key : ∀ v < 64, (base64Char v).toNat < 128 := fun v hv => (base64Char_table v hv).2.2
  induction b using base64Encode.induct with
  | case1 => simp [base64Encode]
  | case2 a =>
    have ha := a.toNat_lt
    simp only [base64Encode, List.forall_mem_cons, List.not_mem_nil, false_implies, implies_true, and_true]
    exact ⟨key _ (by omega), key _ (by omega), by decide, by decide⟩
  | case3 a b =>
    have ha := a.toNat_lt
    have hb := b.toNat_lt
    simp only [base64Encode, List.forall_mem_cons, List.not_mem_nil, false_implies, implies_true, and_true]
    exact ⟨key _ (by omega), key _ (by omega), key _ (by omega), by decide⟩
  | case4 a b c s ih =>
    have ha := a.toNat_lt
    have hb := b.toNat_lt
    have hc := c.toNat_lt
    simp only [base64Encode, List.forall_mem_cons]
    exact ⟨key _ (by omega), key _ (by omega), key _ (by omega), key _ (by omega), ih⟩

theorem base64Decode_encode (b : Bytes) : base64Decode (base64Encode b) = some b := by
  rw [base64Decode, if_pos, base64Go_encode]
  exact List.all_eq_true.2 fun c hc => by simpa using ascii_of_mem_encode b c hc

end Py
