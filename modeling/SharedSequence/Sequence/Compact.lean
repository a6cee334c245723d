import SharedSequence.Sequence.Construct
import SharedSequence.Sequence.Hash

namespace SharedSequence

/-- What a compaction had to do beyond sharing leaves. -/
inductive CompactionEvent where
  | filledBuffer (length : Nat)
  | builtIndex (length buckets : Nat)
deriving DecidableEq, Repr

def CompactionEvent.message : CompactionEvent → String
  | filledBuffer _ => "compacted sequence into flat buffer"
  | builtIndex _ _ => "built hash index"

structure Compaction (α : Type) where
  result : Sequence α
  events : List CompactionEvent

namespace Sequence

variable {α : Type}

def commonValue? [BEq α] (s : Sequence α) : Option α :=
  if s.isUniform then s.get? 0 else none

/-- The whole buffer of a flat leaf, or a copy of the elements. -/
def sharedItems : Sequence α → Array α
  | s@(flat _ items start count) =>
    if start = 0 ∧ count = items.size then items else s.toArray
  | s => s.toArray

/-- Compacts without an index; a leaf stays as it is unless it is flat with equal elements. -/
def flatten [BEq α] (s : Sequence α) : StoreM (Compaction α) := do
  match s with
  | nil _ | run _ _ _ | indexed _ _ _ _ => return ⟨s, []⟩
  | _ =>
    match s.commonValue? with
    | some value => return ⟨← replicate s.length value, []⟩
    | none =>
      match s with
      | flat _ _ _ _ => return ⟨s, []⟩
      | _ =>
        let cell ← allocate
        seed cell (← recallHash s.cell)
        return ⟨.flat cell s.toArray 0 s.length, [.filledBuffer s.length]⟩

def index [BEq α] [ElementHash α] (s : Sequence α) : StoreM (Compaction α) := do
  match s with
  | nil _ | run _ _ _ | indexed _ _ _ _ => return ⟨s, []⟩
  | _ =>
    match s.commonValue? with
    | some value => return ⟨← replicate s.length value, []⟩
    | none =>
      let items := s.sharedItems
      let index := HashIndex.build items hash32
      let cell ← allocate
      seed cell (← recallHash s.cell)
      return ⟨.indexed cell items index hash32, [.builtIndex items.size index.bucketCount]⟩

def compactTraced [BEq α] [ElementHash α] (s : Sequence α) (withIndex : Bool) :
    StoreM (Compaction α) :=
  if withIndex then s.index else s.flatten

def compactFlat [BEq α] (s : Sequence α) : StoreM (Sequence α) :=
  return (← s.flatten).result

def compact [BEq α] [ElementHash α] (s : Sequence α) (withIndex : Bool) :
    StoreM (Sequence α) :=
  return (← s.compactTraced withIndex).result

end Sequence

end SharedSequence
