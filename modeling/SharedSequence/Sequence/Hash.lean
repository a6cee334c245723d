import SharedSequence.ElementHash
import SharedSequence.Sequence.Traversal

namespace SharedSequence

namespace RollingHash

def start : UInt32 := 0x811C9DC5

def step (state hash : UInt32) : UInt32 :=
  state * 0x01000193 ^^^ hash

/-- Zero is kept free for cells that hold no hash. -/
def finish (state : UInt32) : UInt32 :=
  if state = 0 then 1 else state

/-- A rolling hash of the element hashes, front to back. -/
def ofHashes (hashes : List UInt32) : UInt32 :=
  finish (hashes.foldl step start)

end RollingHash

namespace Sequence

variable {α : Type}

def hashCollector [ElementHash α] : Collector UInt32 α :=
  fun state value => .yield (RollingHash.step state (hash32 value))

def computeHash [ElementHash α] (s : Sequence α) : UInt32 :=
  RollingHash.finish (Collector.state (s.extract hashCollector RollingHash.start))

/-- The hash of the elements, from the memo cell if it is there. -/
def hashCode [ElementHash α] (s : Sequence α) : StoreM UInt32 := do
  match ← recallHash s.cell with
  | some hash => return hash
  | none =>
    let hash := s.computeHash
    rememberHash s.cell hash
    return hash

theorem hashCode_run_empty [ElementHash α] (s : Sequence α) :
    s.hashCode.run {} = (s.computeHash, {}) := by
  simp [hashCode, recallHash, rememberHash]
  rfl

/-- The hash of a sequence as an element: a hasher takes in its own hash and nothing else. -/
def elementHash [ElementHash α] (wordHash : UInt32 → UInt64) (s : Sequence α) : UInt32 :=
  foldHash (wordHash s.computeHash)

end Sequence

end SharedSequence
