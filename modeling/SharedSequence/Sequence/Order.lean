import SharedSequence.Cursor

namespace SharedSequence

variable {α : Type}

namespace Cursor

def compareWithin [Ord α] : Nat → Cursor α → Cursor α → Ordering
  | 0, _, _ => .eq
  | moves + 1, a, b =>
    match a.next, b.next with
    | (none, _), (none, _) => .eq
    | (none, _), (some _, _) => .lt
    | (some _, _), (none, _) => .gt
    | (some x, a), (some y, b) =>
      match compare x y with
      | .eq => compareWithin moves a b
      | order => order

/-- The partial order of two cursors' elements; elements without an order leave the cursors
without one. -/
def partialCompareWithin (order? : α → α → Option Ordering) :
    Nat → Cursor α → Cursor α → Option Ordering
  | 0, _, _ => some .eq
  | moves + 1, a, b =>
    match a.next, b.next with
    | (none, _), (none, _) => some .eq
    | (none, _), (some _, _) => some .lt
    | (some _, _), (none, _) => some .gt
    | (some x, a), (some y, b) =>
      match order? x y with
      | some .eq => partialCompareWithin order? moves a b
      | order => order

/-- The first unequal comparison of elements at equal distance, within a number of moves. -/
def firstDifference? (order : α → α → Ordering) : Nat → Cursor α → Cursor α → Option Ordering
  | 0, _, _ => none
  | moves + 1, a, b =>
    match a.next, b.next with
    | (some x, a), (some y, b) =>
      let found := order x y
      if found = .eq then firstDifference? order moves a b else some found
    | _, _ => none

end Cursor

namespace Sequence

def lexCompare [Ord α] (a b : Sequence α) : Ordering :=
  Cursor.compareWithin (a.length + 1) a.cursor b.cursor

instance [Ord α] : Ord (Sequence α) where
  compare := lexCompare

def partialCompare (order? : α → α → Option Ordering) (a b : Sequence α) : Option Ordering :=
  Cursor.partialCompareWithin order? (a.length + 1) a.cursor b.cursor

def isLess (order? : α → α → Option Ordering) (a b : Sequence α) : Bool :=
  partialCompare order? a b == some .lt

def isAtLeast (order? : α → α → Option Ordering) (a b : Sequence α) : Bool :=
  match partialCompare order? a b with
  | some .gt | some .eq => true
  | some .lt | none => false

/-- The first difference by a comparison of elements, else the comparison of the lengths. -/
def compareWith (order : α → α → Ordering) (a b : Sequence α) : Ordering :=
  match Cursor.firstDifference? order (a.length + 1) a.cursor b.cursor with
  | some found => found
  | none => compare a.length b.length

end Sequence

end SharedSequence
