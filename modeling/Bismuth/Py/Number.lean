import Bismuth.Lib.Rounding
import Bismuth.Py.Text

/-!
# Python numbers

`Number` is the value of a `float` or of a `Decimal`: an exact rational, an infinity or a NaN. A zero
carries its sign, since formatting shows it; of a `Decimal` the exponent is left out, since nothing
read here depends on it. Decimal arithmetic is that of the default context (28 digits, ties to
even); `float` is binary64.
-/

namespace Py

inductive Number where
  /-- The value `q`; `negZero` tells `-0` from `0` and means nothing when `q ≠ 0`. -/
  | fin (q : ℚ) (negZero : Bool)
  | inf (neg : Bool)
  | nan
  | snan
  deriving DecidableEq

instance : Inhabited Number := ⟨.fin 0 false⟩

def Number.ofRat (q : ℚ) : Number := .fin q false

def isNeg (q : ℚ) (negZero : Bool) : Bool := q < 0 || (q == 0 && negZero)

def binary64 : FloatFormat := ⟨2, 53, -1074, by decide, by decide⟩

/-- The default decimal context; `emin` is its `Etiny()`. -/
def context28 : FloatFormat := ⟨10, 28, -1000026, by decide, by decide⟩

/-! ## Reading a number -/

def signOf : Text → Bool × Text
  | '-' :: s => (true, s)
  | '+' :: s => (false, s)
  | s => (false, s)

def exponentOf : Text → Option Int
  | [] => some 0
  | c :: s =>
    if c = 'e' ∨ c = 'E' then
      let (neg, d) := signOf s
      if d ≠ [] ∧ d.all Char.isDigit then some (if neg then -digitsVal d else digitsVal d) else none
    else none

def fractionOf : Text → Text × Text
  | '.' :: s => s.span Char.isDigit
  | s => ([], s)

/-- `digits [. digits] [e [sign] digits]` as a coefficient and an exponent. -/
def unsignedOf (s : Text) : Option (Nat × Int) :=
  let (ip, s) := s.span Char.isDigit
  let (fp, s) := fractionOf s
  if ip = [] ∧ fp = [] then none
  else (exponentOf s).map fun e => (digitsVal (ip ++ fp), e - fp.length)

def scaled (neg : Bool) (c : Nat) (e : Int) : ℚ := (if neg then -1 else 1) * (c * (10 : ℚ) ^ e)

def lower (s : Text) : Text := s.map Char.toLower

/-- `Decimal` strips the spaces around its text, drops every underscore and reads any Unicode digit. -/
def decimalAscii (s : Text) : Option Text :=
  ((strip s).filter (· ≠ '_')).mapM fun c => if c.toNat < 128 then some c else asciiDigit? c

/-- The coefficient and exponent that a `Decimal` can hold exactly. -/
def decimalFits (c : Nat) (e : Int) : Bool :=
  -1999999999999999997 ≤ e && e + ((natText c).length - 1 : Nat) ≤ 999999999999999999

def decimalSpecial (neg : Bool) (s : Text) : Option Number :=
  let s := lower s
  if s = ['i', 'n', 'f'] ∨ s = ['i', 'n', 'f', 'i', 'n', 'i', 't', 'y'] then some (.inf neg)
  else if s.take 3 = ['n', 'a', 'n'] ∧ (s.drop 3).all Char.isDigit then some .nan
  else if s.take 4 = ['s', 'n', 'a', 'n'] ∧ (s.drop 4).all Char.isDigit then some .snan
  else none

/-- `Decimal(s)`: exact, whatever the context. -/
def decimal (s : Text) : Except (Exc ρ) Number :=
  match decimalAscii s with
  | none => .error .invalidOperation
  | some s =>
    let (neg, s) := signOf s
    match unsignedOf s with
    | some (c, e) =>
      if decimalFits c e then .ok (.fin (scaled neg c e) neg) else .error .invalidOperation
    | none =>
      match decimalSpecial neg s with
      | some x => .ok x
      | none => .error .invalidOperation

/-- The double nearest to an exact value; an overflow gives an infinity. -/
def toDouble (q : ℚ) (negZero : Bool) : Number :=
  let x := binary64.round q
  if 1024 ≤ Int.log 2 |x| then .inf (q < 0) else .fin x (isNeg q negZero)

/-- `float` replaces Unicode spaces and digits, then strips the ASCII spaces. -/
def floatAscii (s : Text) : Option Text :=
  (s.mapM fun c =>
    if c.toNat < 127 then some c else if isSpace c then some ' ' else asciiDigit? c).map
      (stripWith fun c => c = ' ' || (9 ≤ c.toNat && c.toNat ≤ 13))

/-- `float` takes an underscore only between two digits. -/
def dropUnderscores (prev : Bool) : Text → Option Text
  | [] => some []
  | '_' :: c :: s =>
    if prev ∧ c.isDigit then (dropUnderscores true s).map (c :: ·) else none
  | ['_'] => none
  | c :: s => (dropUnderscores c.isDigit s).map (c :: ·)

/-- `float(s)`. -/
def float (s : Text) : Except (Exc ρ) Number :=
  match floatAscii s >>= dropUnderscores false with
  | none => .error .valueError
  | some s =>
    let (neg, s) := signOf s
    match unsignedOf s with
    | some (c, e) => .ok (toDouble (scaled neg c e) neg)
    | none =>
      let s := lower s
      if s = ['i', 'n', 'f'] ∨ s = ['i', 'n', 'f', 'i', 'n', 'i', 't', 'y'] then .ok (.inf neg)
      else if s = ['n', 'a', 'n'] then .ok .nan
      else .error .valueError

/-- `int(s)`. -/
def int (s : Text) : Except (Exc ρ) Int :=
  match floatAscii s >>= dropUnderscores false with
  | none => .error .valueError
  | some s =>
    let (neg, s) := signOf s
    if s ≠ [] ∧ s.all Char.isDigit then .ok (if neg then -digitsVal s else digitsVal s)
    else .error .valueError

/-! ## Arithmetic of the default context -/

/-- `x.quantize(Decimal(1).scaleb(-k))`. -/
def quantize (k : Nat) : Number → Except (Exc ρ) Number
  | .fin q negZero =>
    let u := Rat.halfEven (q * 10 ^ k)
    if 10 ^ 28 ≤ |u| then .error .invalidOperation else .ok (.fin (u / 10 ^ k) (isNeg q negZero))
  | .nan => .ok .nan
  | .inf _ | .snan => .error .invalidOperation

/-- The result of an operation whose exact value is `q`. -/
def rounded (q : ℚ) : Except (Exc ρ) Number :=
  let x := context28.round q
  if 1000000 ≤ Int.log 10 |x| then .error .overflowError else .ok (.ofRat x)

def add : Number → Number → Except (Exc ρ) Number
  | .snan, _ | _, .snan => .error .invalidOperation
  | .nan, _ | _, .nan => .ok .nan
  | .inf a, .inf b => if a = b then .ok (.inf a) else .error .invalidOperation
  | .inf a, .fin .. | .fin .., .inf a => .ok (.inf a)
  | .fin p _, .fin q _ => rounded (p + q)

def mul : Number → Number → Except (Exc ρ) Number
  | .fin p _, .fin q _ => rounded (p * q)
  | .nan, .nan | .nan, .fin .. | .fin .., .nan => .ok .nan
  | _, _ => .error .invalidOperation

/-- `x / y`; a zero divisor raises. -/
def div : Number → Number → Except (Exc ρ) Number
  | .fin p _, .fin q _ => if q = 0 then .error .invalidOperation else rounded (p / q)
  | .nan, .nan | .nan, .fin .. | .fin .., .nan => .ok .nan
  | _, _ => .error .invalidOperation

/-- `x.to_integral_value()`. -/
def toIntegral : Number → Number
  | .fin q z => .fin (Rat.halfEven q) (isNeg q z)
  | x => x

def negate : Number → Number
  | .fin q z => .fin (-q) !z
  | .inf a => .inf !a
  | x => x

def sub (x y : Number) : Except (Exc ρ) Number := add x (negate y)

/-- `x < y` on decimals: an order test against a NaN raises. -/
def lt : Number → Number → Except (Exc ρ) Bool
  | .fin p _, .fin q _ => .ok (p < q)
  | .fin .., .inf b => .ok !b
  | .inf a, .fin .. => .ok a
  | .inf a, .inf b => .ok (a && !b)
  | _, _ => .error .invalidOperation

def le (x y : Number) : Except (Exc ρ) Bool := (lt y x).map (!·)

/-- `x < y` on floats: false against a NaN. -/
def floatLt : Number → Number → Bool
  | .nan, _ | .snan, _ | _, .nan | _, .snan => false
  | x, y => match (lt x y : Except (Exc Empty) Bool) with
    | .ok b => b
    | .error _ => false

/-- `x == 0`. -/
def Number.isZero : Number → Bool
  | .fin q _ => q = 0
  | _ => false

/-- `int(x)`. -/
def truncate : Number → Except (Exc ρ) Int
  | .fin q _ => .ok (if q < 0 then ⌈q⌉ else ⌊q⌋)
  | .inf _ => .error .overflowError
  | .nan | .snan => .error .valueError

/-! ## Formatting -/

/-- The text of `u / 10 ^ k` with `k` decimals. -/
def fixedText (neg : Bool) (k u : Nat) : Text :=
  (if neg then ['-'] else []) ++
    (natText (u / 10 ^ k) ++ '.' :: zeroPad k (natText (u % 10 ^ k)))

/-- `'{:.kf}'.format(x)`: the exact value rounded to `k` decimals. -/
def formatFixed (k : Nat) : Number → Text
  | .fin q z => fixedText (isNeg q z) k (Rat.halfEven (|q| * 10 ^ k)).natAbs
  | .inf a => (if a then ['-'] else []) ++ ['i', 'n', 'f']
  | .nan | .snan => ['n', 'a', 'n']

/-- `float(x)` of a `Decimal`. -/
def Number.toFloat : Number → Except (Exc ρ) Number
  | .fin q z => .ok (toDouble q z)
  | .snan => .error .valueError
  | x => .ok x

/-- `'%.kf' % x` of a `Decimal`: by way of `float`. -/
def percentFixed (k : Nat) (x : Number) : Except (Exc ρ) Text := (x.toFloat).map (formatFixed k)

end Py
