import SharedSequence.CursorScript
import SharedSequence.SequenceMap

namespace SharedSequence

/-- The elements shown of a sequence: all of them, or both ends of a long one. -/
inductive Excerpt (α : Type) where
  | whole (items : List α)
  | ends (head tail : List α)

structure Summary (α : Type) where
  length : Nat
  isCompact : Bool
  isIndexed : Bool
  excerpt : Excerpt α

structure MapSummary where
  length : Nat
  isEmpty : Bool
  keysIndexed : Bool
  valuesIndexed : Bool
deriving DecidableEq, Repr

inductive Answer (α : Type) where
  | nothing
  | summary (summary : Summary α)
  | compaction (summary : Summary α) (events : List CompactionEvent)
  | info (length : Nat) (isEmpty : Bool) (first last : Option α) (isCompact isIndexed : Bool)
  | listInfo (length : Nat) (isEmpty sameInstance : Bool)
  | element (value : Option α)
  | elements (values : List α)
  | traversal (completed : Bool) (seen : List α)
  | script (answers : List (CursorAnswer α))
  | flag (value : Bool)
  | count (value : Nat)
  | counts (values : List Nat)
  | position (value : Option Nat)
  | occurrences (found : List Nat) (last : Option Nat) (contains : Bool)
  | listOccurrences (first last : Option Nat) (contains : Bool)
  | bucket (positions : Option (List Nat))
  | index (table : Option HashIndex)
  | order (order : Ordering)
  | comparison (total : Ordering) (partialOrder : Option Ordering) (isLess isAtLeast : Bool)
  | text (text : String)
  | written (completed : Bool) (text : String)
  | debugTexts (sequence list block : String)
  | mapSummary (summary : MapSummary)
  | mapParts (keys values : Summary α)
  | mapRecoded (length : Nat) (isCompact : Bool) (summary : MapSummary)
  | mapContains (key value : Bool)
  | entries (entries : List (α × α))

variable {α : Type}

def Sequence.elementsAt (s : Sequence α) (start count : Nat) : List α :=
  (List.range' start count).filterMap s.get?

/-- Up to forty elements are all shown, of more the first and the last eight. -/
def Sequence.excerpt (s : Sequence α) : Excerpt α :=
  if s.length ≤ 40 then .whole (s.elementsAt 0 s.length)
  else .ends (s.elementsAt 0 8) (s.elementsAt (s.length - 8) 8)

def Sequence.summarize (s : Sequence α) : Summary α :=
  { length := s.length, isCompact := s.isCompact, isIndexed := s.isIndexed, excerpt := s.excerpt }

def SequenceMap.summarize (map : SequenceMap α α) : MapSummary :=
  { length := map.length, isEmpty := map.isEmpty,
    keysIndexed := map.keys.isIndexed, valuesIndexed := map.values.isIndexed }

end SharedSequence
