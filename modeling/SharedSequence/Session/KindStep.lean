import SharedSequence.CodePoints
import SharedSequence.Session.Elements
import SharedSequence.Session.Step

namespace SharedSequence

open Session

def TextCommand.run : TextCommand → SessionM Char (Answer Char)
  | .ofText text target => do keep target (← allocating (CodePoints.ofText text))
  | .ofCodePoints codePoints target => do
    keep target (← building (CodePoints.ofCodePoints codePoints))
  | .ofUtf16 units target => do keep target (← building (CodePoints.ofUtf16 units))
  | .ofUtf8 bytes target => do keep target (← building (CodePoints.ofUtf8 bytes))
  | .toText a => return .text (CodePoints.toText (← readSequence a))
  | .toUtf8 a => return .counts ((CodePoints.toUtf8 (← readSequence a)).map (·.toNat))
  | .toUtf16 a => return .counts ((CodePoints.toUtf16 (← readSequence a)).map (·.toNat))
  | .toCodePoints a => return .counts ((CodePoints.toCodePoints (← readSequence a)).map (·.toNat))
  | .display a room => do
    let (completed, text) := CodePoints.display (← readSequence a) room
    return .written completed text

def ByteCommand.run : ByteCommand → SessionM UInt8 (Answer UInt8)
  | .ofHex text header target => do keep target (← building (Bytes.ofHex text header))
  | .toHex a header => return .text (Bytes.toHex (← readSequence a) header)
  | .toText a => return .text (Bytes.toText (← readSequence a))
  | .ofInteger value length endian target => do
    keep target (← building (Bytes.ofInteger value length endian))
  | .toInteger a endian =>
    return .count (← checked (Bytes.toInteger (← readSequence a) endian)).toNat
  | .display a room => do
    let (completed, text) := Bytes.display (← readSequence a) room
    return .written completed text

variable {β : Type}

structure MapContents (β : Type) where
  keys : List β
  values : List β
  found : Option β

def NestedCommand.run [BEq β] [ElementHash β] :
    NestedCommand β → SessionM (HashedSequence β) (MapContents β)
  | .toMap a key => do
    let map ← checked ((← readSequence a).toMapBy HashedSequence.sequence)
    return {
      keys := map.keys.toArray.toList
      values := map.values.toArray.toList
      found := key.bind map.get? }

end SharedSequence
