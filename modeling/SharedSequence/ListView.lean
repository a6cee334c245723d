import SharedSequence.Sequence.Search
import SharedSequence.Sequence.Slice

namespace SharedSequence

/-- A sequence read as a list. -/
structure ListView (α : Type) where
  sequence : Sequence α

/-- An access to a list outside its bounds. -/
structure IndexFault where
  index : Nat
  length : Nat
deriving DecidableEq, Repr

def IndexFault.message (fault : IndexFault) : String :=
  s!"index {fault.index} out of bounds for length {fault.length}"

def Sequence.asList {α : Type} (s : Sequence α) : ListView α :=
  ⟨s⟩

namespace ListView

variable {α : Type}

def length (view : ListView α) : Nat :=
  view.sequence.length

def isEmpty (view : ListView α) : Bool :=
  view.sequence.isEmpty

def get? (view : ListView α) (index : Nat) : Option α :=
  view.sequence.get? index

def elementAt (view : ListView α) (index : Nat) : Except IndexFault α :=
  match view.sequence.get? index with
  | some value => .ok value
  | none => .error ⟨index, view.sequence.length⟩

def indexOf [BEq α] (view : ListView α) (value : α) : Option Nat :=
  view.sequence.findWindow value 0 view.length .forward

def lastIndexOf [BEq α] (view : ListView α) (value : α) : Option Nat :=
  view.sequence.findLast value

def contains [BEq α] (view : ListView α) (value : α) : Bool :=
  view.sequence.contains value

/-- The elements from `start` up to, not including, `stop`. -/
def subList (view : ListView α) (start stop : Nat) :
    Except SequenceError (StoreM (Sequence α)) :=
  if start ≤ stop then view.sequence.slice start (stop - start)
  else .error (.invalidArgument .boundsReversed)

end ListView

end SharedSequence
