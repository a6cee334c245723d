import SharedSequence.Binary64.Shortest
import SharedSequence.Json.Basic

namespace SharedSequence.Json

def hexDigit (n : Nat) : Char :=
  if n < 10 then Char.ofNat ('0'.toNat + n) else Char.ofNat ('a'.toNat + (n - 10))

/-- Of the characters in a string only quotes, backslashes and those below U+0020 are escaped. -/
def escape (c : Char) : List Char :=
  match c with
  | '"' => ['\\', '"']
  | '\\' => ['\\', '\\']
  | '\x08' => ['\\', 'b']
  | '\x0c' => ['\\', 'f']
  | '\n' => ['\\', 'n']
  | '\r' => ['\\', 'r']
  | '\t' => ['\\', 't']
  | c =>
    if c < ' ' then ['\\', 'u', '0', '0', hexDigit (c.toNat / 16), hexDigit (c.toNat % 16)]
    else [c]

def quote (text : String) : List Char :=
  '"' :: text.toList.flatMap escape ++ ['"']

mutual

def print : Json → List Char
  | null => "null".toList
  | bool true => "true".toList
  | bool false => "false".toList
  | integer value => (toString value).toList
  | float value => value.text.toList
  | string text => quote text
  | array items => '[' :: printItems items
  | object fields => '\x7b' :: printFields fields

/-- The items of an array and its closing bracket. -/
def printItems : List Json → List Char
  | [] => [']']
  | [item] => print item ++ [']']
  | item :: rest => print item ++ ',' :: printItems rest

/-- The fields of an object and its closing brace. -/
def printFields : List (String × Json) → List Char
  | [] => ['\x7d']
  | [(name, value)] => quote name ++ ':' :: print value ++ ['\x7d']
  | (name, value) :: rest => quote name ++ ':' :: print value ++ ',' :: printFields rest

end

@[simp]
theorem print_null : print null = "null".toList := by
  rw [print]

@[simp]
theorem print_bool (value : Bool) :
    print (bool value) = if value then "true".toList else "false".toList := by
  cases value <;> rw [print] <;> rfl

@[simp]
theorem print_integer (value : Int) : print (integer value) = (toString value).toList := by
  rw [print]

@[simp]
theorem print_string (text : String) : print (string text) = quote text := by
  rw [print]

@[simp]
theorem print_array (items : List Json) : print (array items) = '[' :: printItems items := by
  rw [print]

def render (json : Json) : String :=
  String.ofList json.print

end SharedSequence.Json
