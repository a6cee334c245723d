import SharedSequence.Sequence.Basic

namespace SharedSequence.Sequence

def outlineSized (kind : String) (length : Nat) : String :=
  kind ++ toString length

/-- A text that shows the tree: `E` for no elements, `U` for runs, `F` for flat and `I` for indexed
leaves and `S` for windows, each with its length, `R(…)` for reversals and `C(…,…)` for links. -/
def outline : Sequence α → String
  | nil _ => "E"
  | run _ _ count => outlineSized "U" count
  | flat _ _ _ count => outlineSized "F" count
  | indexed _ items _ _ => outlineSized "I" items.size
  | window _ _ _ count => outlineSized "S" count
  | reversed _ base => "R(" ++ base.outline ++ ")"
  | link _ left right _ _ => "C(" ++ left.outline ++ "," ++ right.outline ++ ")"

end SharedSequence.Sequence
