import SharedSequence.Json.Scalars
import SharedSequence.Sequence.Hashed
import SharedSequence.WordHash

namespace SharedSequence

instance {α : Type} [ElementHash α] : ElementHash (HashedSequence α) where
  hash32 := HashedSequence.elementHash WordHash.ofUInt32

end SharedSequence
