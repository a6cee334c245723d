import SharedSequence.SequenceError

namespace SharedSequence.Hex

def digit (n : Nat) : Char :=
  if n < 10 then Char.ofNat ('0'.toNat + n) else Char.ofNat ('A'.toNat + (n - 10))

def digitValue? (byte : UInt8) : Option UInt8 :=
  if 0x30 ≤ byte ∧ byte ≤ 0x39 then some (byte - 0x30)
  else if 0x41 ≤ byte ∧ byte ≤ 0x46 then some (byte - 0x41 + 10)
  else if 0x61 ≤ byte ∧ byte ≤ 0x66 then some (byte - 0x61 + 10)
  else none

def encodeByte (byte : UInt8) : List Char :=
  [digit (byte.toNat / 16), digit (byte.toNat % 16)]

/-- The bytes of pairs of digits. -/
def decodePairs? : List UInt8 → Option (List UInt8)
  | high :: low :: rest => do
    let high ← digitValue? high
    let low ← digitValue? low
    return ((high <<< 4) ||| low) :: (← decodePairs? rest)
  | _ => some []

/-- The bytes of digits; an odd number of digits is refused before any digit is looked at. -/
def decode (digits : List UInt8) : Except Rejection (List UInt8) :=
  if digits.length % 2 ≠ 0 then .error .oddHexDigits
  else
    match decodePairs? digits with
    | some bytes => .ok bytes
    | none => .error .invalidHexDigit

end SharedSequence.Hex
