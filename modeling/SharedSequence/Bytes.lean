import SharedSequence.Cursor
import SharedSequence.Sequence.Construct
import SharedSequence.Text.Hex
import SharedSequence.Text.Utf8

namespace SharedSequence

abbrev Bytes := Sequence UInt8

inductive Endian where
  /-- The most significant byte comes first. -/
  | big
  /-- The least significant byte comes first. -/
  | little
deriving DecidableEq, Repr

namespace Bytes

def dropHeader? : List Char → Option (List Char)
  | '0' :: 'x' :: digits => some digits
  | _ => none

/-- The digits of a text, which follow a header if one is required. -/
def hexDigits (text : String) (header : Bool) : Except Rejection (List UInt8) :=
  if header then
    match dropHeader? text.toList with
    | some digits => .ok (Utf8.encode digits)
    | none => .error .missingHexHeader
  else .ok (Utf8.encode text.toList)

def ofHex (text : String) (header : Bool) : Except SequenceError (StoreM Bytes) :=
  match hexDigits text header >>= Hex.decode with
  | .ok bytes => .ok (Sequence.ofList bytes)
  | .error rejection => .error (.invalidArgument rejection)

def toHex (s : Bytes) (header : Bool) : String :=
  s.fold (fun text byte => text ++ String.ofList (Hex.encodeByte byte))
    (if header then "0x" else "")

/-- The bytes as text are hexadecimal with a header. -/
def toText (s : Bytes) : String :=
  s.toHex true

/-- The text written in one piece into limited room. -/
def display (s : Bytes) (room : Nat) : Bool × String :=
  if s.toText.utf8ByteSize ≤ room then (true, s.toText) else (false, "")

/-- The low bytes of a word, the least significant first. -/
def lowBytes (value : UInt64) : Nat → List UInt8
  | 0 => []
  | count + 1 => value.toUInt8 :: lowBytes (value >>> 8) count

/-- The low bytes of a word in an order; more than the word has are refused. -/
def ofInteger (value : UInt64) (length : Nat) (endian : Endian) :
    Except SequenceError (StoreM Bytes) :=
  if 8 < length then .error (.invalidArgument .integerTooLong)
  else
    match endian with
    | .big => .ok (Sequence.ofList (lowBytes value length).reverse)
    | .little => .ok (Sequence.ofList (lowBytes value length))

def shiftIn (value : UInt64) (byte : UInt8) : UInt64 :=
  (value <<< 8) ||| byte.toUInt64

/-- The integer written by at most eight bytes. -/
def toInteger (s : Bytes) (endian : Endian) : Except SequenceError UInt64 :=
  if 8 < s.length then .error (.invalidArgument .integerTooLong)
  else
    match endian with
    | .big => .ok (s.fold shiftIn 0)
    | .little => .ok (s.foldBack shiftIn 0)

end Bytes

end SharedSequence
