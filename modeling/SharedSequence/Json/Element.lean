import SharedSequence.Binary64.Shortest
import SharedSequence.Cursor
import SharedSequence.Json.Format
import SharedSequence.Sequence.Construct
import SharedSequence.Sequence.Hashed
import SharedSequence.Text.Quoted

namespace SharedSequence

/-- Why a JSON value does not give an element or a sequence. -/
inductive DecodeError where
  /-- A value stands where an array is needed. -/
  | notSequence (found : Json)
  /-- A value is no element of its kind. -/
  | badElement

def Json.describe : Json → String
  | null => "null"
  | bool value => "boolean `" ++ toString value ++ "`"
  | integer value => "integer `" ++ toString value ++ "`"
  | float value => "floating point `" ++ value.text ++ "`"
  | string text => "string " ++ Quoted.ofString text
  | array _ => "sequence"
  | object _ => "map"

/-- The text of an error; a bad element has none of its own. -/
def DecodeError.message? : DecodeError → Option String
  | notSequence found => some ("invalid type: " ++ found.describe ++ ", expected a sequence")
  | badElement => none

class JsonElement (α : Type) where
  toJson : α → Json
  ofJson : Json → ExceptT DecodeError StoreM α

export JsonElement (toJson ofJson)

variable {α : Type}

/-- Scalars take no cells; one that is refused is an error of its kind. -/
abbrev ScalarCodec.element (codec : ScalarCodec α) : JsonElement α where
  toJson := codec.encode
  ofJson json :=
    match codec.decode json with
    | some value => return value
    | none => throw .badElement

def ofJsonItems [JsonElement α] : List Json → ExceptT DecodeError StoreM (List α)
  | [] => return []
  | item :: rest => do
    let value ← ofJson item
    return value :: (← ofJsonItems rest)

instance [JsonElement α] : JsonElement (Sequence α) where
  toJson s := .array (s.cursor.rest.map toJson)
  ofJson
    | .array items => do
      let values ← ofJsonItems items
      Sequence.ofList values
    | other => throw (.notSequence other)

instance [JsonElement α] [ElementHash α] : JsonElement (HashedSequence α) where
  toJson s := toJson s.sequence
  ofJson json := return Sequence.hashed (← ofJson json)

end SharedSequence
