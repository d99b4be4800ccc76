import Bismuth.Node

/-!
# Fees

`essentials.fee_calculate` and the base fee of `fee_dynamics`, which after the fork follows the weight
of the recent blocks.
-/

namespace Bismuth
open Py

variable {π : Type}

/-- `quantizer.quantize_eight` of a decimal. -/
def quantizeEightNum (x : Number) : Except Err Number :=
  if x.isZero then .ok (.ofRat 0) else quantize 8 x

theorem IsBis.quantizeEightNum {x y : Number} {u : Int} (hx : IsBis x u) (h : Bismuth.quantizeEightNum x = .ok y) :
    IsBis y u := by
  rw [Bismuth.quantizeEightNum] at h
  split at h
  · rename_i hzero
    obtain ⟨hu, z, rfl⟩ := hx
    cases h
    have h0 : bis u = 0 := by simpa [Number.isZero] using hzero
    refine ⟨hu, false, ?_⟩
    rw [h0]
    rfl
  · exact hx.of_quantize h

/-- `essentials.BASE_FEE`. -/
def staticBaseFee : Number := .ofRat (1 / 100)

/-- `fee_dynamics.base_fee` with the target weight 30. -/
def dynamicBaseFee (loads : List Nat) : Except Err Number := do
  if loads = [] then return ← quantizeEightNum staticBaseFee
  let avg ← div (.ofRat (loads.sum : Nat)) (.ofRat (loads.length : Nat))
  let factor ← div avg (.ofRat 30)
  let low ← lt factor (.ofRat (1 / 2))
  let high ← lt (.ofRat 10) factor
  let factor := if low then .ofRat (1 / 2) else if high then .ofRat 10 else factor
  quantizeEightNum (← mul staticBaseFee factor)

def blockBaseFee (cfg : Config π) (n : Node π) : Except Err Number :=
  if n.postFork then do
    dynamicBaseFee (← n.store.recentBlockWeights cfg.mode n.lastBlock 20 1000 true)
  else .ok staticBaseFee

/-- What `fee_calculate` adds for the operation. -/
def feeSurcharge (openfield operation : Text) : Nat :=
  if operation = ['t', 'o', 'k', 'e', 'n', ':', 'i', 's', 's', 'u', 'e'] then 10
  else if ['a', 'l', 'i', 'a', 's', '='].isPrefixOf openfield then 1
  else 0

def feeCalculate (openfield operation : Text) (baseFee : Number) : Except Err Number := do
  let perChar ← div (.ofRat (openfield.length : Nat)) (.ofRat 100000)
  let fee ← add baseFee perChar
  let fee ← (if feeSurcharge openfield operation = 0 then .ok fee
    else add fee (.ofRat (feeSurcharge openfield operation : Nat)))
  quantizeEightNum fee

end Bismuth
