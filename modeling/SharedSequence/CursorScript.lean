import SharedSequence.Cursor

namespace SharedSequence

inductive CursorMove where
  | next
  | back
  | nth (count : Nat)
  | nthBack (count : Nat)
  | remaining
  | sizeHint
  /-- Looks at all elements left without consuming them. -/
  | rest
  | drain
  | drainBack
deriving DecidableEq, Repr

inductive CursorAnswer (α : Type) where
  | element (value : Option α)
  | count (elements : Nat)
  | bounds (lower upper : Nat)
  | elements (values : List α)

/-- How elements are skipped from the front: in one jump, or one at a time. -/
inductive Skipping where
  | jump
  | stepwise
deriving DecidableEq, Repr

namespace Cursor

variable {α : Type}

def elementOf (result : Option α × Cursor α) : CursorAnswer α × Cursor α :=
  (.element result.1, result.2)

def elementsOf (result : List α × Cursor α) : CursorAnswer α × Cursor α :=
  (.elements result.1, result.2)

/-- Skips elements from the front, then consumes one. -/
def skip (cursor : Cursor α) : Skipping → Nat → Option α × Cursor α
  | .jump, count => cursor.nth count
  | .stepwise, count => cursor.nthStepwise count

def perform (skipping : Skipping) (cursor : Cursor α) :
    CursorMove → CursorAnswer α × Cursor α
  | .next => elementOf cursor.next
  | .back => elementOf cursor.nextBack
  | .nth count => elementOf (cursor.skip skipping count)
  | .nthBack count => elementOf (cursor.nthBack count)
  | .remaining => (.count cursor.remaining, cursor)
  | .sizeHint => (.bounds cursor.sizeHint.1 cursor.sizeHint.2, cursor)
  | .rest => (.elements cursor.rest, cursor)
  | .drain => elementsOf cursor.drain
  | .drainBack => elementsOf cursor.drainBack

def performAll (skipping : Skipping) : List CursorMove → Cursor α → List (CursorAnswer α)
  | [], _ => []
  | move :: script, cursor =>
    let (answer, cursor) := cursor.perform skipping move
    answer :: performAll skipping script cursor

end Cursor

end SharedSequence
