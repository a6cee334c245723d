import SharedSequence.DebugText
import SharedSequence.Json.Element
import SharedSequence.Json.Printer
import SharedSequence.Sequence.Equality
import SharedSequence.Sequence.Order
import SharedSequence.Session.Step

namespace SharedSequence

open Session

variable {α : Type}

def ElementOrder.compare [Ord α] : ElementOrder → α → α → Ordering
  | natural, x, y => Ord.compare x y
  | reversed, x, y => Ord.compare y x
  | allEqual, _, _ => .eq

/-- The partial order that a total order gives. -/
def totalOrder [Ord α] (x y : α) : Option Ordering :=
  some (compare x y)

def HashedCommand.run [BEq α] [ElementHash α] [Ord α] [DebugText α] [JsonElement α] :
    HashedCommand α → SessionM α (Answer α)
  | .compact a withIndex target => do
    keep target (← allocating ((← readSequence a).compact withIndex))
  | .compactTraced a withIndex target => do
    let compaction ← allocating ((← readSequence a).compactTraced withIndex)
    writeSequence target compaction.result
    return .compaction compaction.result.summarize compaction.events
  | .hashCode a => return .count (← allocating (← readSequence a).hashCode).toNat
  | .hashIndex a => return .index (← readSequence a).hashIndex?
  | .bucket a hash => return .bucket ((← readSequence a).hashIndex?.map (·.bucket hash))
  | .sameIndex a b => do
    let a ← readSequence a
    let b ← readSequence b
    return .flag (a.hashIndex? = b.hashIndex?)
  | .equals a b => do
    let a ← readSequence a
    let b ← readSequence b
    return .flag (← allocating (a.equals b))
  | .equalsEmpty a => return .flag (← allocating (← readSequence a).equalsEmpty)
  | .compare a b => do
    let a ← readSequence a
    let b ← readSequence b
    return .comparison (a.lexCompare b) (a.partialCompare totalOrder b)
      (a.isLess totalOrder b) (a.isAtLeast totalOrder b)
  | .compareWith a b order => do
    let a ← readSequence a
    let b ← readSequence b
    return .order (a.compareWith order.compare b)
  | .debug a => do
    let s ← readSequence a
    return .debugTexts (debugText .line s) (debugText .line s.asList) (debugText (.block 0) s)
  | .toJson a => return .text (SharedSequence.toJson (← readSequence a)).render
  | .ofJson json target => do keep target (← decoding (SharedSequence.ofJson json))
  | .mapOfEntries entries target => do keepMap target (← allocating (SequenceMap.ofEntries entries))
  | .mapDebug map => return .text (← readMap map).debugLine

end SharedSequence
