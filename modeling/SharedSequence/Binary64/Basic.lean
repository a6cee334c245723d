namespace SharedSequence

/-- The number `digits * 10 ^ exponent`. -/
structure Decimal where
  digits : Nat
  exponent : Int
deriving DecidableEq, Repr

/-- A number given by its bits: a sign, eleven bits of exponent and 52 of fraction. -/
structure Binary64 where
  bits : UInt64

namespace Binary64

def magnitude (x : Binary64) : UInt64 :=
  x.bits &&& 0x7fffffffffffffff

/-- The greatest exponent with a fraction is no number. -/
def isNaN (x : Binary64) : Bool :=
  0x7ff0000000000000 < x.magnitude

/-- Every exponent below the greatest belongs to a number. -/
def isFinite (x : Binary64) : Bool :=
  x.magnitude < 0x7ff0000000000000

/-- Equality of the numbers: the two zeros are equal, and what is no number equals nothing. -/
instance : BEq Binary64 where
  beq x y := !x.isNaN && !y.isNaN && (x.bits == y.bits || (x.magnitude == 0 && y.magnitude == 0))

end Binary64

end SharedSequence
