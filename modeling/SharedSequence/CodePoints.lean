import SharedSequence.Cursor
import SharedSequence.Sequence.Construct
import SharedSequence.Sequence.Traversal
import SharedSequence.Text.Utf8
import SharedSequence.Text.Utf16

namespace SharedSequence

abbrev CodePoints := Sequence Char

namespace CodePoints

def ofText (text : String) : StoreM CodePoints :=
  Sequence.ofList text.toList

def charOf? (codePoint : UInt32) : Option Char :=
  if h : codePoint.isValidChar then some ⟨codePoint, h⟩ else none

/-- The characters with given numbers; surrogates and numbers above the last character are
refused. -/
def ofCodePoints (codePoints : List UInt32) : Except SequenceError (StoreM CodePoints) :=
  match codePoints.mapM charOf? with
  | some text => .ok (Sequence.ofList text)
  | none => .error (.invalidArgument .invalidCodePoint)

def ofUtf16 (units : List UInt16) : Except SequenceError (StoreM CodePoints) :=
  match Utf16.decode units with
  | some text => .ok (Sequence.ofList text)
  | none => .error (.invalidArgument .unpairedSurrogate)

def ofUtf8 (bytes : List UInt8) : Except SequenceError (StoreM CodePoints) :=
  match Utf8.decode bytes with
  | some text => .ok (Sequence.ofList text)
  | none => .error (.invalidArgument .malformedUtf8)

def textWriter : Collector String Char :=
  fun text c => .yield (text.push c)

/-- Appends characters to a text as long as its UTF-8 form fits into a number of bytes. -/
def limitedWriter (room : Nat) : Collector String Char :=
  fun text c =>
    if text.utf8ByteSize + c.utf8Size ≤ room then .yield (text.push c) else .done text

def toText (s : CodePoints) : String :=
  Collector.state (s.extract textWriter "")

/-- The characters written one by one into limited room: whether all fit, and those before the
first that does not. -/
def display (s : CodePoints) (room : Nat) : Bool × String :=
  let reached := s.extract (limitedWriter room) ""
  (Collector.completed reached, Collector.state reached)

def toUtf8 (s : CodePoints) : List UInt8 :=
  Utf8.encode s.toText.toList

def utf16Writer : Collector (Array UInt16) Char :=
  fun units c => .yield (units ++ (Utf16.encodeChar c).toArray)

def toUtf16 (s : CodePoints) : List UInt16 :=
  (Collector.state (s.extract utf16Writer #[])).toList

def toCodePoints (s : CodePoints) : List UInt32 :=
  s.cursor.rest.map Char.val

end CodePoints

end SharedSequence
