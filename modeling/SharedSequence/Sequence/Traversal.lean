import SharedSequence.Collector
import SharedSequence.Sequence.Basic

namespace SharedSequence.Sequence

open Collector

variable {α σ : Type}

/-- Pushes the elements of a window, which has to lie inside the sequence, in a direction. -/
def extractWindow (push : Collector σ α) (s : Sequence α) (offset length : Nat)
    (direction : Direction) (state : σ) : ForInStep σ :=
  if length = 0 then .yield state
  else
    match s with
    | nil _ => .yield state
    | run _ value _ => pushRun push value length state
    | flat _ items start _ => pushSlice push items (start + offset) length direction state
    | indexed _ items _ _ => pushSlice push items offset length direction state
    | window _ base start _ => base.extractWindow push (start + offset) length direction state
    | reversed _ base =>
      base.extractWindow push (base.length - offset - length) length direction.flip state
    | link _ left right _ _ =>
      if left.length ≤ offset then
        right.extractWindow push (offset - left.length) length direction state
      else if offset + length ≤ left.length then
        left.extractWindow push offset length direction state
      else
        match direction with
        | .forward =>
          andThen (left.extractWindow push offset (left.length - offset) direction state)
            (right.extractWindow push 0 (offset + length - left.length) direction)
        | .backward =>
          andThen (right.extractWindow push 0 (offset + length - left.length) direction state)
            (left.extractWindow push offset (left.length - offset) direction)

def extract (push : Collector σ α) (s : Sequence α) (state : σ) : ForInStep σ :=
  s.extractWindow push 0 s.length .forward state

def extractRange (push : Collector σ α) (s : Sequence α) (offset length : Nat)
    (direction : Direction) (state : σ) : Except SequenceError (ForInStep σ) := do
  s.checkWindow offset length
  return s.extractWindow push offset length direction state

def toArray (s : Sequence α) : Array α :=
  Collector.state (s.extract buffer #[])

/-- Copies all elements into a target, from a position on, and gives the target after that; one that
is too short is refused and stays as it is. -/
def writeInto (s : Sequence α) (target : Array α) (offset : Nat) :
    Except SequenceError Unit × Array α :=
  if offset + s.length ≤ target.size then
    (.ok (), (Collector.state (s.extract sliceWriter (target, offset))).1)
  else (.error (.invalidArgument .targetTooShort), target)

/-- All elements equal the first one. -/
def isUniform [BEq α] : Sequence α → Bool
  | nil _ | run _ _ _ => true
  | reversed _ base => base.isUniform
  | s =>
    match s.get? 0 with
    | none => true
    | some value => completed (s.extract (uniformCheck value) ())

end SharedSequence.Sequence
