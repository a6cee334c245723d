import SharedSequence.Sequence.Basic

namespace SharedSequence.Sequence

variable {α : Type}

def empty : StoreM (Sequence α) :=
  return .nil (← allocate)

/-- Copies of one value, which is stored once. -/
def replicate (count : Nat) (value : α) : StoreM (Sequence α) := do
  if count = 0 then empty else return .run (← allocate) value count

/-- A leaf over a whole buffer, of any length. -/
def ofBuffer (items : Array α) : StoreM (Sequence α) := do
  if items.isEmpty then empty else return .flat (← allocate) items 0 items.size

/-- The elements of an array; a single element becomes a run. -/
def ofArray (items : Array α) : StoreM (Sequence α) :=
  if h : items.size = 1 then replicate 1 items[0] else ofBuffer items

def ofList (items : List α) : StoreM (Sequence α) :=
  ofArray items.toArray

def ofSlice (items : Array α) (offset length : Nat) :
    Except SequenceError (StoreM (Sequence α)) :=
  if offset + length ≤ items.size then .ok (ofArray (items.extract offset (offset + length)))
  else .error (.invalidArgument .windowExceedsBuffer)

def presentItems : List (Option α) → Nat → Except SequenceError (List α)
  | [], _ => .ok []
  | none :: _, index => .error (.missingElement index)
  | some value :: rest, index => return value :: (← presentItems rest (index + 1))

/-- The elements of a list; the first missing one is refused. -/
def ofOptions (items : List (Option α)) : Except SequenceError (StoreM (Sequence α)) :=
  return ofList (← presentItems items 0)

end SharedSequence.Sequence
