import SharedSequence.Text.Unprintable

namespace SharedSequence.Quoted

def numbered (c : Char) : String :=
  "\\u\x7b" ++ String.ofList (Nat.toDigits 16 c.toNat) ++ "\x7d"

/-- The character has no image of its own. -/
def isHidden (c : Char) : Bool :=
  c < ' ' || c == '\x7f' || (0x80 ≤ c.toNat && Unprintable.contains c)

/-- A character inside quotes. -/
def escape (quote c : Char) : String :=
  match c with
  | '\x00' => "\\0"
  | '\t' => "\\t"
  | '\n' => "\\n"
  | '\r' => "\\r"
  | '\\' => "\\\\"
  | c =>
    if c = quote then String.ofList ['\\', c]
    else if isHidden c then numbered c
    else c.toString

def ofChar (c : Char) : String :=
  "'" ++ escape '\'' c ++ "'"

def ofString (text : String) : String :=
  "\"" ++ String.join (text.toList.map (escape '"')) ++ "\""

end SharedSequence.Quoted
