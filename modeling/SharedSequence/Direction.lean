namespace SharedSequence

/-- From the lowest position to the highest, or from the highest to the lowest. -/
inductive Direction where
  | forward
  | backward
deriving DecidableEq, Repr

def Direction.flip : Direction → Direction
  | forward => backward
  | backward => forward

/-- Lists the elements met in the direction. -/
def Direction.orient : Direction → List α → List α
  | forward, items => items
  | backward, items => items.reverse

@[simp]
theorem Direction.flip_flip (direction : Direction) : direction.flip.flip = direction := by
  cases direction <;> rfl

@[simp]
theorem Direction.orient_flip (direction : Direction) (items : List α) :
    direction.flip.orient items = direction.orient items.reverse := by
  cases direction <;> simp [flip, orient]

theorem Direction.orient_nil (direction : Direction) : direction.orient ([] : List α) = [] := by
  cases direction <;> rfl

theorem Direction.orient_replicate (direction : Direction) (count : Nat) (value : α) :
    direction.orient (List.replicate count value) = List.replicate count value := by
  cases direction with
  | forward => rfl
  | backward => exact List.reverse_replicate

theorem Direction.mem_orient {direction : Direction} {items : List α} {x : α} :
    x ∈ direction.orient items ↔ x ∈ items := by
  cases direction <;> simp [orient]

theorem Direction.orient_map (f : α → β) (direction : Direction) (items : List α) :
    direction.orient (items.map f) = (direction.orient items).map f := by
  cases direction <;> simp [orient]

theorem Direction.orient_filter (test : α → Bool) (direction : Direction) (items : List α) :
    direction.orient (items.filter test) = (direction.orient items).filter test := by
  cases direction <;> simp [orient]

end SharedSequence
