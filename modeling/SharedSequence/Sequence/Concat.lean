import SharedSequence.Sequence.Construct

namespace SharedSequence

def Bias.ofShapes (left right : Nat) : Bias :=
  match compare left right with
  | .gt => .left
  | .lt => .right
  | .eq => .neutral

namespace Sequence

variable {α : Type}

/-- The number of links on the walk that follows the bias. -/
def shape : Sequence α → Nat
  | link _ left right bias _ =>
    match bias with
    | .right => right.shape + 1
    | .left | .neutral => left.shape + 1
  | _ => 0

def linkOf (left right : Sequence α) : StoreM (Sequence α) :=
  return .link (← allocate) left right (Bias.ofShapes left.shape right.shape)
    (left.length + right.length)

/-- One side of a rotated join: a sequence as it is, or two that are still to be joined. -/
inductive JoinPart (α : Type) where
  | whole (s : Sequence α)
  | pair (left right : Sequence α)

def JoinPart.resolve (join : Sequence α → Sequence α → OptionT StoreM (Sequence α)) :
    JoinPart α → OptionT StoreM (Sequence α)
  | whole s => return s
  | pair left right => join left right

/-- Moves the left part of a heavier second operand over to the first one. -/
def rotateLeft (first : Sequence α) : Sequence α → Option (JoinPart α × JoinPart α)
  | link _ (link _ innerLeft innerRight _ _) right .left _ =>
    some (.pair first innerLeft, .pair innerRight right)
  | link _ left right .neutral _ | link _ left right .right _ =>
    some (.pair first left, .whole right)
  | _ => none

/-- Moves the right part of a heavier first operand over to the second one. -/
def rotateRight (second : Sequence α) : Sequence α → Option (JoinPart α × JoinPart α)
  | link _ left (link _ innerLeft innerRight _ _) .right _ =>
    some (.pair left innerLeft, .pair innerRight second)
  | link _ left right .neutral _ | link _ left right .left _ =>
    some (.whole left, .pair right second)
  | _ => none

/-- The two sides that a join rotates its operands into. There are none where their shapes differ by
at most one; otherwise the heavier operand is taken apart:

    b not heavier on its left:  a + (x + y)        becomes  (a + x) + y
    b heavier on its left:      a + ((x + y) + z)  becomes  (a + x) + (y + z) -/
def rotate (first second : Sequence α) : Option (JoinPart α × JoinPart α) :=
  if first.shape + 1 < second.shape then rotateLeft first second
  else if second.shape + 1 < first.shape then rotateRight second first
  else none

/-- Joins two sequences that are not empty, with at most `fuel` nested joins. -/
def joinWithin : Nat → Sequence α → Sequence α → OptionT StoreM (Sequence α)
  | 0, _, _ => failure
  | fuel + 1, first, second =>
    match rotate first second with
    | none => linkOf first second
    | some (low, high) => do
      let low ← low.resolve (joinWithin fuel)
      let high ← high.resolve (joinWithin fuel)
      joinWithin fuel low high

/-- Enough nested joins for operands with balanced links. -/
def joinFuel (first second : Sequence α) : Nat :=
  first.shape + second.shape + 1

def join (first second : Sequence α) : StoreM (Sequence α) := do
  match ← (joinWithin (joinFuel first second) first second).run with
  | some joined => return joined
  | none => linkOf first second

/-- The elements of `a` followed by those of `b`; an empty operand gives the other one itself. -/
def concat (a b : Sequence α) : StoreM (Sequence α) :=
  if b.isEmpty then return a
  else if a.isEmpty then return b
  else join a b

/-- Concatenates all parts by balanced halving. -/
def concatAll (parts : List (Sequence α)) : StoreM (Sequence α) :=
  match parts with
  | [] => empty
  | [part] => return part
  | parts@(_ :: _ :: _) => do
    let low ← concatAll (parts.take (parts.length / 2))
    let high ← concatAll (parts.drop (parts.length / 2))
    low.concat high
termination_by parts.length
decreasing_by all_goals simp_all; omega

def appendAll (first : Sequence α) (parts : List (Sequence α)) : StoreM (Sequence α) :=
  parts.foldlM concat first

/-- Concatenates all parts one after another, starting from the empty sequence. -/
def combineAll (parts : List (Sequence α)) : StoreM (Sequence α) := do
  (← empty).appendAll parts

/-- Concatenates all parts one after another, starting from the first; there is none of no parts.
-/
def reduceAll : List (Sequence α) → Option (StoreM (Sequence α))
  | [] => none
  | first :: rest => some (first.appendAll rest)

def appendEach (s : Sequence α) (items : List α) : StoreM (Sequence α) :=
  items.foldlM (fun s item => do s.concat (← replicate 1 item)) s

def prependEach (s : Sequence α) (items : List α) : StoreM (Sequence α) :=
  items.foldlM (fun s item => do (← replicate 1 item).concat s) s

end Sequence

end SharedSequence
