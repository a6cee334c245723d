namespace SharedSequence

class ElementHash (α : Type) where
  hash32 : α → UInt32

export ElementHash (hash32)

/-- The two halves of a hash laid over each other. -/
def foldHash (wide : UInt64) : UInt32 :=
  (wide ^^^ (wide >>> 32)).toUInt32

end SharedSequence
