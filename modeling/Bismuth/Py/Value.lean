import Bismuth.Py.Number

/-!
# Python values of a transaction field

A field that arrives over the wire is a `str`, an `int` or a `float`; the builtins below are `str`,
`Decimal`, `float` and `==` on them.
-/

namespace Py

inductive Val where
  | str (s : Text)
  | int (n : Int)
  | float (x : Number)
  deriving DecidableEq

instance : Inhabited Val := ⟨.str []⟩

/-! ## `repr` of a float: the shortest digits that read back -/

/-- `n` digits of `x ≠ 0` that read back as `x`, as an integer and the exponent of its last digit:
the nearest such integer when it reads back, else one of its two neighbours that does. -/
def reprDigitsAt (x : ℚ) (n : Nat) : Option (Nat × Int) :=
  let e := Int.log 10 |x| + 1 - n
  let y := |x| / 10 ^ e
  ([Rat.halfEven y, ⌊y⌋, ⌈y⌉].find? fun (m : ℤ) => binary64.round (m * 10 ^ e) = |x|).map
    fun m => (m.natAbs, e)

def reprDigits (x : ℚ) : Option (Nat × Int) :=
  (List.range 17).firstM fun n => reprDigitsAt x (n + 1)

/-- Digits `d`, the point standing after the first `p` of them, as `repr` lays them out: with an
exponent when the point is out of reach. -/
def layout (reach : Int) (d : Text) (p : Int) : Text :=
  if p ≤ -4 ∨ reach < p then
    let e := (p - 1).natAbs
    let m := if d.length = 1 then d else d.take 1 ++ '.' :: d.drop 1
    m ++ 'e' :: (if p - 1 < 0 then '-' else '+') :: zeroPad 2 (natText e)
  else if p ≤ 0 then '0' :: '.' :: (List.replicate (-p).toNat '0' ++ d)
  else if p < d.length then d.take p.toNat ++ '.' :: d.drop p.toNat
  else d ++ List.replicate (p.toNat - d.length) '0' ++ ['.', '0']

/-- `repr` of a float. -/
def reprFloat : Number → Text
  | .fin q z =>
    let s := if isNeg q z then ['-'] else []
    match reprDigits q with
    | some (n, e) =>
      let d := natText n
      s ++ if q = 0 then ['0', '.', '0'] else layout 16 (d.rdropWhile (· = '0')) (d.length + e)
    | none => s
  | .inf a => (if a then ['-'] else []) ++ ['i', 'n', 'f']
  | .nan | .snan => ['n', 'a', 'n']

/-! ## Builtins -/

namespace Val

/-- `str(v)`. -/
def text : Val → Text
  | .str s => s
  | .int n => intText n
  | .float x => reprFloat x

/-- `Decimal(v)`. -/
def toDecimal : Val → Except (Exc ρ) Number
  | .str s => Py.decimal s
  | .int n => .ok (.ofRat n)
  | .float x => .ok x

/-- An `int` beyond the doubles raises. -/
def finite : Number → Except (Exc ρ) Number
  | .inf _ => .error .overflowError
  | x => .ok x

/-- `float(v)`. -/
def toFloat : Val → Except (Exc ρ) Number
  | .str s => Py.float s
  | .int n => finite (toDouble n false)
  | .float x => .ok x

/-- `int(v)`. -/
def toInt : Val → Except (Exc ρ) Int
  | .str s => Py.int s
  | .int n => .ok n
  | .float x => truncate x

/-- `v == w`. -/
def eq : Val → Val → Bool
  | .str s, .str t => s = t
  | .int m, .int n => m = n
  | .int m, .float (.fin q _) | .float (.fin q _), .int m => m = q
  | .float (.fin p _), .float (.fin q _) => p = q
  | .float (.inf a), .float (.inf b) => a = b
  | _, _ => false

/-- `bool(v)`. -/
def truthy : Val → Bool
  | .str s => s ≠ []
  | .int n => n ≠ 0
  | .float x => !x.isZero

end Val

end Py
