import SharedSequence.Sequence.Basic

namespace SharedSequence

/-- The elements of a sequence from position `front` up to, not including, position `back`. -/
structure Cursor (α : Type) where
  sequence : Sequence α
  front : Nat
  back : Nat

namespace Cursor

variable {α β : Type}

def ofSequence (s : Sequence α) : Cursor α :=
  { sequence := s, front := 0, back := s.length }

def remaining (cursor : Cursor α) : Nat :=
  cursor.back - cursor.front

/-- A lower and an upper bound of the number of elements that are not consumed. -/
def sizeHint (cursor : Cursor α) : Nat × Nat :=
  (cursor.remaining, cursor.remaining)

def next (cursor : Cursor α) : Option α × Cursor α :=
  if cursor.back ≤ cursor.front then (none, cursor)
  else (cursor.sequence.get? cursor.front, { cursor with front := cursor.front + 1 })

def nextBack (cursor : Cursor α) : Option α × Cursor α :=
  if cursor.back ≤ cursor.front then (none, cursor)
  else (cursor.sequence.get? (cursor.back - 1), { cursor with back := cursor.back - 1 })

/-- Skips elements in one jump, then consumes one. -/
def nth (cursor : Cursor α) (count : Nat) : Option α × Cursor α :=
  { cursor with front := min (cursor.front + count) cursor.back }.next

/-- Repeats a move until it has been made `count` times or answers nothing. -/
def advance (move : Cursor α → Option α × Cursor α) : Nat → Cursor α → Bool × Cursor α
  | 0, cursor => (true, cursor)
  | count + 1, cursor =>
    match move cursor with
    | (none, cursor) => (false, cursor)
    | (some _, cursor) => advance move count cursor

/-- Skips elements by single moves, then makes one more. -/
def nthBy (move : Cursor α → Option α × Cursor α) (cursor : Cursor α) (count : Nat) :
    Option α × Cursor α :=
  match advance move count cursor with
  | (true, cursor) => move cursor
  | (false, cursor) => (none, cursor)

/-- Skips elements one at a time, then consumes one. -/
def nthStepwise (cursor : Cursor α) (count : Nat) : Option α × Cursor α :=
  cursor.nthBy next count

/-- Skips elements one at a time from the back, then consumes one. -/
def nthBack (cursor : Cursor α) (count : Nat) : Option α × Cursor α :=
  cursor.nthBy nextBack count

/-- The elements that up to `count` moves consume, and the cursor after them. -/
def collect (move : Cursor α → Option α × Cursor α) : Nat → Cursor α → List α × Cursor α
  | 0, cursor => ([], cursor)
  | count + 1, cursor =>
    match move cursor with
    | (none, cursor) => ([], cursor)
    | (some value, cursor) =>
      let (rest, cursor) := collect move count cursor
      (value :: rest, cursor)

def drain (cursor : Cursor α) : List α × Cursor α :=
  collect next (cursor.remaining + 1) cursor

def drainBack (cursor : Cursor α) : List α × Cursor α :=
  collect nextBack (cursor.remaining + 1) cursor

def rest (cursor : Cursor α) : List α :=
  cursor.drain.1

end Cursor

namespace Sequence

variable {α β : Type}

def cursor (s : Sequence α) : Cursor α :=
  .ofSequence s

def fold (step : β → α → β) (initial : β) (s : Sequence α) : β :=
  s.cursor.rest.foldl step initial

def foldBack (step : β → α → β) (initial : β) (s : Sequence α) : β :=
  s.cursor.drainBack.1.foldl step initial

end Sequence

end SharedSequence
