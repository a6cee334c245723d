import SharedSequence.Sequence.Hash

namespace SharedSequence

variable {α : Type}

namespace Sequence

/-- The elements of both sequences are equal at each of `count` positions from `i` on. -/
def equalFrom [BEq α] (a b : Sequence α) (i : Nat) : Nat → Bool
  | 0 => true
  | count + 1 =>
    match a.get? i, b.get? i with
    | some x, some y => x == y && equalFrom a b (i + 1) count
    | _, _ => false

def elementsEqual [BEq α] (a b : Sequence α) : Bool :=
  match a, b with
  | run _ x m, run _ y n => m == n && (m == 0 || x == y)
  | a, b => a.length == b.length && equalFrom a b 0 a.length

theorem equalFrom_run [BEq α] (c d : Cell) (x y : α) (n i count : Nat) (h : i + count ≤ n) :
    equalFrom (run c x n) (run d y n) i count = (count == 0 || x == y) := by
  induction count generalizing i with
  | zero => rfl
  | succ count ih =>
    have hi : i < n := by omega
    simp only [equalFrom, get?, hi, if_true, ih (i + 1) (by omega)]
    cases x == y <;> simp

theorem elementsEqual_eq [BEq α] (a b : Sequence α) :
    a.elementsEqual b = (a.length == b.length && equalFrom a b 0 a.length) := by
  unfold elementsEqual
  split
  · rename_i c x m d y n
    by_cases h : m = n
    · subst h
      simp [length, equalFrom_run c d x y m 0 m (by omega)]
    · simp [length, beq_false_of_ne h]
  · rfl

/-- The same instance is equal to itself, and sequences of other lengths or hashes differ; only when
these say nothing are the elements compared. -/
def equals [BEq α] [ElementHash α] (a b : Sequence α) : StoreM Bool := do
  if a.sameInstance b then return true
  else if a.length ≠ b.length then return false
  else
    let first ← a.hashCode
    let second ← b.hashCode
    if first ≠ second then return false else return a.elementsEqual b

/-- Equality without a store to remember hashes in: the hashes are compared last, because computing
them costs more than finding a difference. -/
instance [BEq α] [ElementHash α] : BEq (Sequence α) where
  beq a b :=
    a.sameInstance b ||
      (a.length == b.length && a.elementsEqual b && a.computeHash == b.computeHash)

/-- Equality answers what the comparison on an empty store answers. -/
theorem beq_eq_equals [BEq α] [ElementHash α] (a b : Sequence α) :
    (a == b) = ((a.equals b).run {}).1 := by
  have run_bind {β γ : Type} (x : β) (store : Store) (f : β → StoreM γ) (m : StoreM β)
      (h : m.run store = (x, store)) : ((m >>= f).run store) = (f x).run store := by
    rw [StateT.run_bind, h]; rfl
  simp only [BEq.beq, equals]
  by_cases hi : a.sameInstance b
  · simp only [hi, Bool.true_or, if_true]; rfl
  · by_cases hl : a.length = b.length
    · simp only [hi, hl, ne_eq, not_true_eq_false, if_false, Bool.false_eq_true]
      rw [run_bind _ _ _ _ a.hashCode_run_empty, run_bind _ _ _ _ b.hashCode_run_empty]
      by_cases hh : a.computeHash = b.computeHash
      · simp [hh]; rfl
      · simp [hh]; rfl
    · simp [hi, hl]; rfl

def equalsEmpty [BEq α] [ElementHash α] (s : Sequence α) : StoreM Bool := do
  s.equals (.nil (← allocate))

end Sequence

end SharedSequence
