import SharedSequence.Binary64.Basic

namespace SharedSequence.Binary64

def powerOfTen (exponent : Nat) : Float :=
  .ofScientific 1 false exponent

/-- Multiplies by a power of ten, or divides by one, in steps of at most 308 places. A product
without a finite binary number near it is refused. -/
def scale (x : Float) (exponent : Int) : Option Float :=
  if exponent.natAbs ≤ 308 then
    if 0 ≤ exponent then
      let product := x * powerOfTen exponent.natAbs
      if product.isInf then none else some product
    else some (x / powerOfTen exponent.natAbs)
  else if x == 0 then some x
  else if 0 ≤ exponent then none
  else scale (x / powerOfTen 308) (exponent + 308)
termination_by exponent.natAbs

/-- The digits are rounded before they are scaled, and every step rounds, so the result may miss the
nearest binary number by some last places. -/
def ofDecimal? (negative : Bool) (decimal : Decimal) : Option Binary64 :=
  (scale (.ofScientific decimal.digits false 0) decimal.exponent).map fun x =>
    ⟨if negative then x.toBits ||| 0x8000000000000000 else x.toBits⟩

end SharedSequence.Binary64
