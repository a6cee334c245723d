import SharedSequence.Binary64.Basic

namespace SharedSequence

/-- Whole numbers that fit into 64 bits are kept apart from all other numbers. -/
inductive Json where
  | null
  | bool (value : Bool)
  | integer (value : Int)
  | float (value : Binary64)
  | string (text : String)
  | array (items : List Json)
  | object (fields : List (String × Json))

namespace Json

/-- The value of a field of an object; of equal names the last one counts. -/
def field? (json : Json) (name : String) : Option Json :=
  match json with
  | object fields => (fields.reverse.find? (·.1 == name)).map (·.2)
  | _ => none

end Json

end SharedSequence
