import SharedSequence.Store
import SharedSequence.SequenceError
import SharedSequence.HashIndex

namespace SharedSequence

/-- Which child of a link had the larger shape when the link was made. -/
inductive Bias where
  | neutral
  | left
  | right
deriving DecidableEq, Repr

/-- An immutable sequence as a tree that shares structure: leaves own their elements, views show
another sequence, and links join two. Every node is identified by its cell. -/
inductive Sequence (α : Type) where
  /-- No elements. -/
  | nil (cell : Cell)
  /-- Equal copies of one value. -/
  | run (cell : Cell) (value : α) (count : Nat)
  /-- A window over a shared buffer. -/
  | flat (cell : Cell) (items : Array α) (start count : Nat)
  /-- A whole buffer with the table of its element hashes. -/
  | indexed (cell : Cell) (items : Array α) (index : HashIndex) (hasher : α → UInt32)
  /-- A window over another sequence. -/
  | window (cell : Cell) (base : Sequence α) (start count : Nat)
  /-- The elements of another sequence in opposite order. -/
  | reversed (cell : Cell) (base : Sequence α)
  /-- The elements of one sequence followed by those of another. -/
  | link (cell : Cell) (left right : Sequence α) (bias : Bias) (count : Nat)

namespace Sequence

variable {α : Type}

def cell : Sequence α → Cell
  | nil cell | run cell _ _ | flat cell _ _ _ | indexed cell _ _ _
  | window cell _ _ _ | reversed cell _ | link cell _ _ _ _ => cell

/-- Two handles are the same instance when their root nodes are. -/
def sameInstance (a b : Sequence α) : Bool :=
  a.cell == b.cell

def length : Sequence α → Nat
  | nil _ => 0
  | run _ _ count | flat _ _ _ count | window _ _ _ count | link _ _ _ _ count => count
  | indexed _ items _ _ => items.size
  | reversed _ base => base.length

def isEmpty (s : Sequence α) : Bool :=
  s.length == 0

def toList : Sequence α → List α
  | nil _ => []
  | run _ value count => List.replicate count value
  | flat _ items start count => (items.toList.drop start).take count
  | indexed _ items _ _ => items.toList
  | window _ base start count => (base.toList.drop start).take count
  | reversed _ base => base.toList.reverse
  | link _ left right _ _ => left.toList ++ right.toList

def get? : Sequence α → Nat → Option α
  | nil _, _ => none
  | run _ value count, i => if i < count then some value else none
  | flat _ items start count, i => if i < count then items[start + i]? else none
  | indexed _ items _ _, i => items[i]?
  | window _ base start count, i => if i < count then base.get? (start + i) else none
  | reversed _ base, i => if i < base.length then base.get? (base.length - i - 1) else none
  | link _ left right _ count, i =>
    if i < count then
      if i < left.length then left.get? i else right.get? (i - left.length)
    else none

def get (s : Sequence α) (i : Nat) : Except SequenceError α :=
  match s.get? i with
  | some value => .ok value
  | none => .error (.outOfBounds i s.length)

def first? (s : Sequence α) : Option α :=
  s.get? 0

def last? (s : Sequence α) : Option α :=
  if s.length = 0 then none else s.get? (s.length - 1)

def isCompact : Sequence α → Bool
  | nil _ | run _ _ _ | flat _ _ _ _ | indexed _ _ _ _ => true
  | window _ _ _ _ | reversed _ _ | link _ _ _ _ _ => false

/-- A search touches only indexed leaves and runs. -/
def isIndexed : Sequence α → Bool
  | nil _ | run _ _ _ | indexed _ _ _ _ => true
  | flat _ _ _ _ => false
  | window _ base _ _ | reversed _ base => base.isIndexed
  | link _ left right _ _ => left.isIndexed && right.isIndexed

def hashIndex? : Sequence α → Option HashIndex
  | indexed _ _ index _ => some index
  | _ => none

def checkWindow (s : Sequence α) (offset length : Nat) : Except SequenceError Unit :=
  if offset + length ≤ s.length then .ok ()
  else .error (.invalidArgument .windowExceedsSequence)

def lengthFrom (s : Sequence α) (offset : Nat) : Except SequenceError Nat :=
  if offset ≤ s.length then .ok (s.length - offset)
  else .error (.invalidArgument .offsetExceedsSequence)

end Sequence

end SharedSequence
