namespace SharedSequence

inductive Rejection where
  | windowExceedsSequence
  | windowExceedsBuffer
  | offsetExceedsSequence
  | boundsReversed
  | targetTooShort
  | mapEncodingShape
  | mapLengthsDiffer
  | invalidCodePoint
  | unpairedSurrogate
  | malformedUtf8
  | missingHexHeader
  | oddHexDigits
  | invalidHexDigit
  | integerTooLong
deriving DecidableEq, Repr

def Rejection.reason : Rejection → String
  | windowExceedsSequence => "window exceeds sequence"
  | windowExceedsBuffer => "window exceeds source buffer"
  | offsetExceedsSequence => "offset exceeds sequence"
  | boundsReversed => "sub list bounds are reversed"
  | targetTooShort => "target buffer too short"
  | mapEncodingShape => "map encoding needs exactly keys and values"
  | mapLengthsDiffer => "keys and values differ in length"
  | invalidCodePoint => "invalid code point"
  | unpairedSurrogate => "unpaired surrogate"
  | malformedUtf8 => "malformed utf-8"
  | missingHexHeader => "missing hex header"
  | oddHexDigits => "odd number of hex digits"
  | invalidHexDigit => "invalid hex digit"
  | integerTooLong => "integer length exceeds 8 bytes"

/-- A failed precondition of a sequence operation. -/
inductive SequenceError where
  | outOfBounds (index length : Nat)
  | invalidArgument (rejection : Rejection)
  | missingElement (index : Nat)
deriving DecidableEq, Repr

def SequenceError.message : SequenceError → String
  | outOfBounds index length => s!"index {index} out of bounds for length {length}"
  | invalidArgument rejection => "invalid argument: " ++ rejection.reason
  | missingElement index => s!"missing element at index {index}"

end SharedSequence
