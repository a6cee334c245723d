import SharedSequence.Sequence.Basic

namespace SharedSequence.Sequence

variable {α : Type}

/-- The first place at or after `skipped`, among `count` places from `start` on, that holds the
value. -/
def searchUp [BEq α] (items : Array α) (value : α) (start : Nat) : Nat → Nat → Option Nat
  | _, 0 => none
  | skipped, count + 1 =>
    if items[start + skipped]?.any (· == value) then some skipped
    else searchUp items value start (skipped + 1) count

/-- The last of `count` places from `start` on that holds the value. -/
def searchDown [BEq α] (items : Array α) (value : α) (start : Nat) : Nat → Option Nat
  | 0 => none
  | count + 1 =>
    if items[start + count]?.any (· == value) then some count
    else searchDown items value start count

/-- The place of the value in a window of a buffer, counted from the start of the window. -/
def searchSlice [BEq α] (items : Array α) (value : α) (start count : Nat) :
    Direction → Option Nat
  | .forward => searchUp items value start 0 count
  | .backward => searchDown items value start count

/-- The first position met in the direction, inside a window, whose element equals the value. -/
def findWindow [BEq α] (s : Sequence α) (value : α) (offset length : Nat)
    (direction : Direction) : Option Nat :=
  if length = 0 then none
  else
    match s with
    | nil _ => none
    | run _ item _ =>
      if item == value then
        match direction with
        | .forward => some offset
        | .backward => some (offset + length - 1)
      else none
    | flat _ items start _ =>
      (searchSlice items value (start + offset) length direction).map (· + offset)
    | indexed _ items index hasher =>
      index.find items (hasher value) value offset length direction
    | window _ base start _ =>
      (base.findWindow value (start + offset) length direction).map (· - start)
    | reversed _ base =>
      (base.findWindow value (base.length - offset - length) length direction.flip).map
        (base.length - · - 1)
    | link _ left right _ _ =>
      if left.length ≤ offset then
        (right.findWindow value (offset - left.length) length direction).map (· + left.length)
      else if offset + length ≤ left.length then
        left.findWindow value offset length direction
      else
        match direction with
        | .forward =>
          match left.findWindow value offset (left.length - offset) direction with
          | some position => some position
          | none =>
            (right.findWindow value 0 (offset + length - left.length) direction).map
              (· + left.length)
        | .backward =>
          match right.findWindow value 0 (offset + length - left.length) direction with
          | some position => some (position + left.length)
          | none => left.findWindow value offset (left.length - offset) direction

def find [BEq α] (s : Sequence α) (value : α) (offset : Nat) :
    Except SequenceError (Option Nat) := do
  return s.findWindow value offset (← s.lengthFrom offset) .forward

def findLast [BEq α] (s : Sequence α) (value : α) : Option Nat :=
  s.findWindow value 0 s.length .backward

def contains [BEq α] (s : Sequence α) (value : α) : Bool :=
  (s.findWindow value 0 s.length .forward).isSome

/-- Up to `budget` positions that hold the value, each found from the one before it. -/
def positionsFrom [BEq α] (s : Sequence α) (value : α) : Nat → Nat → List Nat
  | 0, _ => []
  | budget + 1, offset =>
    match s.find value offset with
    | .ok (some position) => position :: positionsFrom s value budget (position + 1)
    | _ => []

def positions [BEq α] (s : Sequence α) (value : α) : List Nat :=
  s.positionsFrom value (s.length + 1) 0

/-- From an index on, the next `count` elements of the needle stand at a position. -/
def matchesFrom [BEq α] (s needle : Sequence α) (position : Nat) : Nat → Nat → Bool
  | _, 0 => true
  | index, count + 1 =>
    s.get? (position + index) == needle.get? index &&
      matchesFrom s needle position (index + 1) count

def matchesAt [BEq α] (s needle : Sequence α) (position : Nat) : Bool :=
  s.matchesFrom needle position 0 needle.length

/-- Tries, one after another, the places of the needle's first element up to the last start. -/
def findCandidate [BEq α] (s needle : Sequence α) (head : α) (lastStart : Nat) :
    Nat → Nat → Option Nat
  | _, 0 => none
  | start, tries + 1 =>
    if start ≤ lastStart then
      match s.findWindow head start (lastStart - start + 1) .forward with
      | none => none
      | some candidate =>
        if s.matchesAt needle candidate then some candidate
        else findCandidate s needle head lastStart (candidate + 1) tries
    else none

/-- The first position at or after an offset where the needle stands. -/
def findSequence [BEq α] (s needle : Sequence α) (offset : Nat) :
    Except SequenceError (Option Nat) :=
  match needle.length, needle.first? with
  | 1, some value => s.find value offset
  | _, _ => do
    let remaining ← s.lengthFrom offset
    if needle.isEmpty then return some offset
    else if remaining < needle.length then return none
    else
      match needle.first? with
      | none => return none
      | some head =>
        let lastStart := s.length - needle.length
        return s.findCandidate needle head lastStart offset (lastStart + 1 - offset)

end SharedSequence.Sequence
