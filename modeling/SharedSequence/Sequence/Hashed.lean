import SharedSequence.Sequence.Equality
import SharedSequence.Sequence.Order

namespace SharedSequence

variable {α : Type}

/-- A sequence with its hash, which is computed when it is first asked for and shared by all
copies. -/
structure HashedSequence (α : Type) [ElementHash α] where
  sequence : Sequence α
  hash : Thunk UInt32
  hash_get : hash.get = sequence.computeHash

def Sequence.hashed [ElementHash α] (s : Sequence α) : HashedSequence α where
  sequence := s
  hash := Thunk.mk fun _ => s.computeHash
  hash_get := rfl

namespace HashedSequence

def elementHash [ElementHash α] (wordHash : UInt32 → UInt64) (s : HashedSequence α) : UInt32 :=
  foldHash (wordHash s.hash.get)

/-- Hashes that differ decide before any element is compared. -/
instance [BEq α] [ElementHash α] : BEq (HashedSequence α) where
  beq a b :=
    a.sequence.sameInstance b.sequence ||
      (a.sequence.length == b.sequence.length && a.hash.get == b.hash.get &&
        a.sequence.elementsEqual b.sequence)

instance [Ord α] [ElementHash α] : Ord (HashedSequence α) where
  compare a b := compare a.sequence b.sequence

/-- The carried hash is the one that the sequence has as an element. -/
theorem elementHash_eq [ElementHash α] (wordHash : UInt32 → UInt64) (s : HashedSequence α) :
    s.elementHash wordHash = s.sequence.elementHash wordHash := by
  rw [elementHash, Sequence.elementHash, s.hash_get]

theorem beq_eq [BEq α] [ElementHash α] (a b : HashedSequence α) :
    (a == b) = (a.sequence == b.sequence) := by
  simp only [BEq.beq, a.hash_get, b.hash_get]
  rw [Bool.and_right_comm]

end HashedSequence

end SharedSequence
