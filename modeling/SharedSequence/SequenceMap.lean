import SharedSequence.Cursor
import SharedSequence.Sequence.Compact
import SharedSequence.Sequence.Search

namespace SharedSequence

/-- The key at a position maps to the value at that position; of equal keys the first one counts. -/
structure SequenceMap (κ ν : Type) where
  keys : Sequence κ
  values : Sequence ν

namespace SequenceMap

variable {κ ν : Type}

/-- Pairs keys with as many values. -/
def pair (keys : Sequence κ) (values : Sequence ν) : Except SequenceError (SequenceMap κ ν) :=
  if keys.length = values.length then .ok { keys, values }
  else .error (.invalidArgument .mapLengthsDiffer)

/-- The map of a list of entries; its keys carry an index. -/
def ofEntries [BEq κ] [ElementHash κ] [BEq ν] (entries : List (κ × ν)) :
    StoreM (SequenceMap κ ν) := do
  let (keys, values) := entries.unzip
  let keys ← (← Sequence.ofList keys).compact true
  let values ← (← Sequence.ofList values).compactFlat
  return { keys, values }

def length (map : SequenceMap κ ν) : Nat :=
  map.keys.length

def isEmpty (map : SequenceMap κ ν) : Bool :=
  map.keys.isEmpty

/-- The pairs that two cursors give until one ends, within a number of moves. -/
def zipWithin : Nat → Cursor κ → Cursor ν → List (κ × ν)
  | 0, _, _ => []
  | moves + 1, keys, values =>
    match keys.next, values.next with
    | (some key, keys), (some value, values) => (key, value) :: zipWithin moves keys values
    | _, _ => []

def entries (map : SequenceMap κ ν) : List (κ × ν) :=
  zipWithin map.length map.keys.cursor map.values.cursor

/-- The value of the first entry with the key. -/
def get? [BEq κ] (map : SequenceMap κ ν) (key : κ) : Option ν :=
  match map.keys.findWindow key 0 map.length .forward with
  | some position => map.values.get? position
  | none => none

def containsKey [BEq κ] (map : SequenceMap κ ν) (key : κ) : Bool :=
  map.keys.contains key

def containsValue [BEq ν] (map : SequenceMap κ ν) (value : ν) : Bool :=
  map.values.contains value

/-- The keys and the values as a sequence of two sequences. -/
def toSequence {α : Type} (map : SequenceMap α α) : StoreM (Sequence (Sequence α)) :=
  Sequence.ofArray #[map.keys, map.values]

end SequenceMap

/-- Reads a sequence of two elements that hold sequences as the keys and the values of a map. -/
def Sequence.toMapBy {σ α : Type} (held : σ → Sequence α) (s : Sequence σ) :
    Except SequenceError (SequenceMap α α) :=
  match s.length, s.get? 0, s.get? 1 with
  | 2, some keys, some values => SequenceMap.pair (held keys) (held values)
  | _, _, _ => .error (.invalidArgument .mapEncodingShape)

def Sequence.toMap {α : Type} (s : Sequence (Sequence α)) :
    Except SequenceError (SequenceMap α α) :=
  s.toMapBy id

end SharedSequence
