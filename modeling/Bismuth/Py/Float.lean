import Bismuth.Py.Number

/-!
# Arithmetic of `float`

The operations of binary64, as Python computes them: nothing raises, and a NaN compares with nothing.
-/

namespace Py

def floatAdd : Number → Number → Number
  | .fin p a, .fin q b => toDouble (p + q) (p = 0 && a && b)
  | .inf a, .inf b => if a = b then .inf a else .nan
  | .inf a, .fin .. | .fin .., .inf a => .inf a
  | _, _ => .nan

def floatSub : Number → Number → Number
  | .fin p a, .fin q b => toDouble (p - q) (p = 0 && a && !b)
  | .fin .., .inf b => .inf !b
  | .inf a, .fin .. => .inf a
  | .inf a, .inf b => if a = b then .nan else .inf a
  | _, _ => .nan

def floatMul : Number → Number → Number
  | .fin p a, .fin q b => toDouble (p * q) (isNeg p a != isNeg q b)
  | .inf a, .inf b => .inf (a != b)
  | .inf a, .fin q b | .fin q b, .inf a => if q = 0 then .nan else .inf (a != isNeg q b)
  | _, _ => .nan

/-- `x / n` for a positive integer `n`. -/
def floatDivNat (x : Number) (n : Nat) : Number :=
  match x with
  | .fin p a => toDouble (p / n) (isNeg p a)
  | x => x

/-- `x / y`; none when `y` is zero. -/
def floatDiv (x y : Number) : Option Number :=
  if y.isZero then none
  else some (match x, y with
    | .fin p a, .fin q b => toDouble (p / q) (isNeg p a != isNeg q b)
    | .fin p a, .inf b => .fin 0 (isNeg p a != b)
    | .inf a, .fin q b => .inf (a != isNeg q b)
    | _, _ => .nan)

def floatAbs : Number → Number
  | .fin p _ => .fin |p| false
  | .inf _ => .inf false
  | x => x

/-- `x <= y`. -/
def floatLe : Number → Number → Bool
  | .nan, _ | .snan, _ | _, .nan | _, .snan => false
  | x, y => !floatLt y x

def Number.IsNumber (x : Number) : Prop := x ≠ .nan ∧ x ≠ .snan

instance (x : Number) : Decidable x.IsNumber := inferInstanceAs (Decidable (_ ∧ _))

theorem floatLt_of_not_floatLe {x y : Number} (hx : x.IsNumber) (hy : y.IsNumber) (h : floatLe x y = false) :
    floatLt y x = true := by
  cases x with
  | nan => exact absurd rfl hx.1
  | snan => exact absurd rfl hx.2
  | _ =>
    cases y with
    | nan => exact absurd rfl hy.1
    | snan => exact absurd rfl hy.2
    | _ => simpa [floatLe] using h

/-- `max(x, y)`. -/
def floatMax (x y : Number) : Number := if floatLt x y then y else x

theorem floatMax_isNumber {x y : Number} (hx : x.IsNumber) : (floatMax x y).IsNumber := by
  rw [floatMax]
  split
  · rename_i h
    cases y with
    | nan => cases x <;> cases h
    | snan => cases x <;> cases h
    | _ => exact ⟨by simp, by simp⟩
  · exact hx

/-- A list in the order of `<`, each entry put after those that are not above it. -/
def floatSorted (l : List Number) : List Number :=
  l.foldl (fun s x => s.takeWhile (fun y => !floatLt x y) ++ x :: s.dropWhile fun y => !floatLt x y) []

end Py
