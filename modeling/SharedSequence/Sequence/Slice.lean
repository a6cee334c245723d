import SharedSequence.Sequence.Concat

namespace SharedSequence.Sequence

variable {α : Type}

/-- Views are not nested: the reversal of a reversal is its base. -/
def reverse (s : Sequence α) : StoreM (Sequence α) := do
  if s.length < 2 then return s
  else
    match s with
    | reversed _ base => return base
    | run _ _ _ => return s
    | _ => return .reversed (← allocate) s

/-- The elements of a window, which has to lie inside the sequence. A window of a view is a window
of its base. -/
def cut (s : Sequence α) (offset length : Nat) : StoreM (Sequence α) := do
  if offset = 0 ∧ length = s.length then return s
  else if length = 0 then empty
  else
    match s with
    | nil _ => empty
    | run _ value _ => return .run (← allocate) value length
    | flat _ items start _ => return .flat (← allocate) items (start + offset) length
    | indexed _ _ _ _ => return .window (← allocate) s offset length
    | window _ base start _ => base.cut (start + offset) length
    | reversed _ base =>
      let cut ← base.cut (base.length - offset - length) length
      cut.reverse
    | link _ left right _ _ =>
      if left.length ≤ offset then right.cut (offset - left.length) length
      else if offset + length ≤ left.length then left.cut offset length
      else
        let low ← left.cut offset (left.length - offset)
        let high ← right.cut 0 (offset + length - left.length)
        low.concat high

/-- The elements of a window; the whole window is the sequence itself. -/
def slice (s : Sequence α) (offset length : Nat) : Except SequenceError (StoreM (Sequence α)) :=
  if offset = 0 ∧ length = s.length then .ok (return s)
  else do
    s.checkWindow offset length
    return s.cut offset length

def sliceFrom (s : Sequence α) (offset : Nat) : Except SequenceError (StoreM (Sequence α)) := do
  s.slice offset (← s.lengthFrom offset)

end SharedSequence.Sequence
