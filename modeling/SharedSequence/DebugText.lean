import SharedSequence.ListView
import SharedSequence.Sequence.Hashed
import SharedSequence.SequenceMap
import SharedSequence.Text.Quoted

namespace SharedSequence

/-- A text on one line, or a text whose lists have a line for every element, at an indentation. -/
inductive Layout where
  | line
  | block (indent : Nat)

class DebugText (α : Type) where
  debugText : Layout → α → String

export DebugText (debugText)

def Layout.inner : Layout → Layout
  | line => line
  | block indent => block (indent + 4)

def Layout.spaces (count : Nat) : String :=
  String.ofList (List.replicate count ' ')

/-- The text of a list whose elements already are texts in the inner layout. -/
def Layout.bracketed : Layout → List String → String
  | line, items => "[" ++ ", ".intercalate items ++ "]"
  | block _, [] => "[]"
  | block indent, items =>
    "[\n" ++ String.join (items.map fun item => spaces (indent + 4) ++ item ++ ",\n") ++
      spaces indent ++ "]"

instance : DebugText Int64 := ⟨fun _ value => toString value.toInt⟩

instance : DebugText Int32 := ⟨fun _ value => toString value.toInt⟩

instance : DebugText UInt8 := ⟨fun _ value => toString value.toNat⟩

instance : DebugText Char := ⟨fun _ value => Quoted.ofChar value⟩

instance : DebugText String := ⟨fun _ value => Quoted.ofString value⟩

variable {α κ ν : Type}

instance [DebugText α] : DebugText (Sequence α) where
  debugText layout s := layout.bracketed (s.cursor.rest.map (debugText layout.inner))

instance [DebugText α] [ElementHash α] : DebugText (HashedSequence α) where
  debugText layout s := debugText layout s.sequence

instance [DebugText α] : DebugText (ListView α) where
  debugText layout view :=
    layout.bracketed (view.sequence.cursor.rest.map (debugText layout.inner))

def SequenceMap.debugLine [DebugText κ] [DebugText ν] (map : SequenceMap κ ν) : String :=
  let entries := map.entries.map fun (key, value) =>
    debugText .line key ++ ": " ++ debugText .line value
  "\x7b" ++ ", ".intercalate entries ++ "\x7d"

end SharedSequence
