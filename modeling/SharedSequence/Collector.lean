import SharedSequence.Direction

namespace SharedSequence

/-- Receives elements one by one and decides after each whether the traversal goes on: a step that
yields continues with a new state, and one that is done ends the traversal. -/
abbrev Collector (σ α : Type) := σ → α → ForInStep σ

namespace Collector

variable {σ α : Type}

def state : ForInStep σ → σ
  | .yield state | .done state => state

/-- The traversal saw all elements and no step ended it. -/
def completed : ForInStep σ → Bool
  | .yield _ => true
  | .done _ => false

/-- Goes on with a traversal unless it has ended. -/
def andThen (reached : ForInStep σ) (next : σ → ForInStep σ) : ForInStep σ :=
  match reached with
  | .yield state => next state
  | .done state => .done state

def pushList (push : Collector σ α) : List α → σ → ForInStep σ
  | [], state => .yield state
  | value :: rest, state => andThen (push state value) (pushList push rest)

def pushRun (push : Collector σ α) (value : α) : Nat → σ → ForInStep σ
  | 0, state => .yield state
  | count + 1, state =>
    match push state value with
    | .yield state => pushRun push value count state
    | .done state => .done state

def pushUp (push : Collector σ α) (items : Array α) : Nat → Nat → σ → ForInStep σ
  | _, 0, state => .yield state
  | start, count + 1, state =>
    match items[start]? with
    | none => .yield state
    | some value =>
      match push state value with
      | .yield state => pushUp push items (start + 1) count state
      | .done state => .done state

def pushDown (push : Collector σ α) (items : Array α) (start : Nat) : Nat → σ → ForInStep σ
  | 0, state => .yield state
  | count + 1, state =>
    match items[start + count]? with
    | none => .yield state
    | some value =>
      match push state value with
      | .yield state => pushDown push items start count state
      | .done state => .done state

/-- Pushes a window of a buffer in a direction. -/
def pushSlice (push : Collector σ α) (items : Array α) (start count : Nat) :
    Direction → σ → ForInStep σ
  | .forward => pushUp push items start count
  | .backward => pushDown push items start count

def buffer : Collector (Array α) α :=
  fun items value => .yield (items.push value)

/-- Writes elements to ascending positions of a target and ends when the target is full. -/
def sliceWriter : Collector (Array α × Nat) α :=
  fun (target, position) value =>
    if position < target.size then .yield (target.setIfInBounds position value, position + 1)
    else .done (target, position)

/-- Ends at the first element that does not equal a value. -/
def uniformCheck [BEq α] (value : α) : Collector Unit α :=
  fun _ item => if value == item then .yield () else .done ()

end Collector

end SharedSequence
