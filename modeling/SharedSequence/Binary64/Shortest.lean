import SharedSequence.Binary64.Basic

namespace SharedSequence

namespace Binary64

def isNegative (x : Binary64) : Bool :=
  x.bits >>> 63 == 1

def fraction (x : Binary64) : Nat :=
  x.magnitude.toNat % 0x10000000000000

def biasedExponent (x : Binary64) : Nat :=
  x.magnitude.toNat / 0x10000000000000

/-- The magnitude is `significand * 2 ^ exponent`. -/
def significand (x : Binary64) : Nat :=
  if x.biasedExponent = 0 then x.fraction else x.fraction + 0x10000000000000

def exponent (x : Binary64) : Int :=
  (max x.biasedExponent 1 : Nat) - 1075

/-- The ends of the interval that reads back as the number, in quarters of its last place. -/
def quarters (x : Binary64) : Nat × Nat :=
  let below := if x.fraction = 0 ∧ 1 < x.biasedExponent then 1 else 2
  (4 * x.significand - below, 4 * x.significand + 2)

/-- The points of the grid of a power of ten are compared with quarters of the last place after
multiplication by these two factors. -/
def gridFactors (x : Binary64) (power : Int) : Nat × Nat :=
  (Nat.pow 10 power.toNat * Nat.pow 2 (2 - x.exponent).toNat,
    Nat.pow 10 (-power).toNat * Nat.pow 2 (x.exponent - 2).toNat)

/-- The grid point reads back as the number; the ends of the interval do if the significand is
even. -/
def readsBack (x : Binary64) (power : Int) (point : Nat) : Bool :=
  let (grid, unit) := x.gridFactors power
  let (least, greatest) := x.quarters
  if x.significand % 2 = 0 then least * unit ≤ point * grid && point * grid ≤ greatest * unit
  else least * unit < point * grid && point * grid < greatest * unit

/-- The grid point next to the number that reads back, the nearer of two, of equally near ones the
even. -/
def onGrid? (x : Binary64) (power : Int) : Option Nat :=
  let (grid, unit) := x.gridFactors power
  let value := 4 * x.significand * unit
  let below := value / grid
  match x.readsBack power below, x.readsBack power (below + 1) with
  | false, false => none
  | true, false => some below
  | false, true => some (below + 1)
  | true, true =>
    match compare (2 * value) ((2 * below + 1) * grid) with
    | .lt => some below
    | .gt => some (below + 1)
    | .eq => some (if below % 2 = 0 then below else below + 1)

/-- The first grid with a point that reads back, among finer and finer ones. -/
def refine (x : Binary64) : Nat → Int → Decimal
  | 0, power => ⟨0, power⟩
  | grids + 1, power =>
    match x.onGrid? power with
    | some digits => ⟨digits, power⟩
    | none => refine x grids (power - 1)

/-- A power of ten above the magnitude of a number that is not zero. -/
def topPower (x : Binary64) : Int :=
  ((x.significand.log2 : Int) + x.exponent + 1) * 30103 / 100000 + 1

def shortest (x : Binary64) : Decimal :=
  if x.significand = 0 then ⟨0, 0⟩ else x.refine 24 x.topPower

/-- The text of a decimal with an exponent, which always has a sign. -/
def scientific (digits : List Char) (point : Int) : String :=
  let mantissa :=
    match digits with
    | first :: second :: rest => first :: '.' :: second :: rest
    | short => short
  String.ofList mantissa ++ (if 0 < point then "e+" else "e") ++ toString (point - 1)

/-- The digits with a point after the first `point` of them: written out from 0.00001 up to sixteen
places before the point, and with an exponent outside that. -/
def positional (digits : List Char) (point : Int) : String :=
  let size : Int := digits.length
  if size ≤ point ∧ point ≤ 16 then
    String.ofList (digits ++ List.replicate (point - size).toNat '0') ++ ".0"
  else if 0 < point ∧ point ≤ 16 then
    String.ofList (digits.take point.toNat) ++ "." ++ String.ofList (digits.drop point.toNat)
  else if -5 < point ∧ point ≤ 0 then
    "0." ++ String.ofList (List.replicate (-point).toNat '0' ++ digits)
  else scientific digits point

/-- The shortest text of a finite number that reads back as it; a whole number keeps one decimal
place. -/
def text (x : Binary64) : String :=
  let decimal := x.shortest
  let digits := (toString decimal.digits).toList
  let magnitude :=
    if decimal.digits = 0 then "0.0" else positional digits (digits.length + decimal.exponent)
  if x.isNegative then "-" ++ magnitude else magnitude

end Binary64

end SharedSequence
