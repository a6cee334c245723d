import SharedSequence.Binary64.Scaled
import SharedSequence.Json.Basic

namespace SharedSequence.Json

def isSpace (c : Char) : Bool :=
  c == ' ' || c == '\t' || c == '\n' || c == '\r'

def skipSpace (text : List Char) : List Char :=
  text.dropWhile isSpace

def hexValue? (c : Char) : Option Nat :=
  if '0' ≤ c ∧ c ≤ '9' then some (c.toNat - '0'.toNat)
  else if 'a' ≤ c ∧ c ≤ 'f' then some (c.toNat - 'a'.toNat + 10)
  else if 'A' ≤ c ∧ c ≤ 'F' then some (c.toNat - 'A'.toNat + 10)
  else none

def readUnit : List Char → Option (Nat × List Char)
  | a :: b :: c :: d :: rest => do
    let a ← hexValue? a
    let b ← hexValue? b
    let c ← hexValue? c
    let d ← hexValue? d
    return (((a * 16 + b) * 16 + c) * 16 + d, rest)
  | _ => none

/-- The character of one or two escaped units, after the first `u`. -/
def readNumbered (text : List Char) : Option (Char × List Char) := do
  let (unit, rest) ← readUnit text
  if 0xD800 ≤ unit ∧ unit ≤ 0xDBFF then
    match rest with
    | '\\' :: 'u' :: rest =>
      let (low, rest) ← readUnit rest
      if 0xDC00 ≤ low ∧ low ≤ 0xDFFF then
        return (Char.ofNat (0x10000 + (unit - 0xD800) * 0x400 + (low - 0xDC00)), rest)
      else none
    | _ => none
  else if 0xDC00 ≤ unit ∧ unit ≤ 0xDFFF then none
  else return (Char.ofNat unit, rest)

def readEscape : List Char → Option (Char × List Char)
  | '"' :: rest => some ('"', rest)
  | '\\' :: rest => some ('\\', rest)
  | '/' :: rest => some ('/', rest)
  | 'b' :: rest => some ('\x08', rest)
  | 'f' :: rest => some ('\x0c', rest)
  | 'n' :: rest => some ('\n', rest)
  | 'r' :: rest => some ('\r', rest)
  | 't' :: rest => some ('\t', rest)
  | 'u' :: rest => readNumbered rest
  | _ => none

/-- The characters of a string up to its closing quote, at most `fuel - 1` of them. -/
def readChars : Nat → List Char → Option (List Char × List Char)
  | 0, _ => none
  | fuel + 1, text =>
    match text with
    | [] => none
    | '"' :: rest => some ([], rest)
    | '\\' :: rest => do
      let (c, rest) ← readEscape rest
      let (chars, rest) ← readChars fuel rest
      return (c :: chars, rest)
    | c :: rest =>
      if c < ' ' then none
      else do
        let (chars, rest) ← readChars fuel rest
        return (c :: chars, rest)

def readString (fuel : Nat) (text : List Char) : Option (String × List Char) := do
  let (chars, rest) ← readChars fuel text
  return (String.ofList chars, rest)

def ofDigits (digits : List Char) : Nat :=
  digits.foldl (fun value c => value * 10 + (c.toNat - '0'.toNat)) 0

def readDigits (text : List Char) : Option (List Char × List Char) :=
  match text.takeWhile Char.isDigit with
  | [] => none
  | digits => some (digits, text.dropWhile Char.isDigit)

/-- The digits before the point, which start with a zero only if there is no other. -/
def readWhole (text : List Char) : Option (List Char × List Char) := do
  let (digits, rest) ← readDigits text
  match digits with
  | '0' :: _ :: _ => none
  | _ => return (digits, rest)

def readFraction : List Char → Option (List Char × List Char)
  | '.' :: rest => readDigits rest
  | text => some ([], text)

def readSigned : List Char → Option (Int × List Char)
  | '-' :: rest => (readDigits rest).map fun (digits, rest) => (-(ofDigits digits : Int), rest)
  | '+' :: rest => (readDigits rest).map fun (digits, rest) => ((ofDigits digits : Int), rest)
  | rest => (readDigits rest).map fun (digits, rest) => ((ofDigits digits : Int), rest)

def readExponent : List Char → Option (Option Int × List Char)
  | mark :: rest =>
    if mark = 'e' ∨ mark = 'E' then
      (readSigned rest).map fun (exponent, rest) => (some exponent, rest)
    else some (none, mark :: rest)
  | [] => some (none, [])

/-- Appends decimal digits to a number up to the first that 64 bits do not hold, and counts them.
-/
def appendDigits (value : Nat) : List Char → Nat × Nat
  | [] => (value, 0)
  | c :: rest =>
    let next := value * 10 + (c.toNat - '0'.toNat)
    if next < 0x10000000000000000 then
      let (value, count) := appendDigits next rest
      (value, count + 1)
    else (value, 0)

/-- The decimal of the digits before and after the point. Of the digits that 64 bits do not hold,
those before the point count only as places, and those after it not at all. -/
def decimalOf (whole fraction : List Char) (exponent : Int) : Decimal :=
  let (digits, held) := appendDigits 0 whole
  let (digits, places) := appendDigits digits fraction
  { digits, exponent := exponent + (whole.length - held : Nat) - places }

/-- A number that is not whole; one that is too great is refused. -/
def ofDecimal? (negative : Bool) (decimal : Decimal) : Option Json :=
  (Binary64.ofDecimal? negative decimal).map float

/-- A number without point and exponent is whole if 64 bits hold it; a negative zero is not. -/
def ofWhole? (negative : Bool) (whole : List Char) : Option Json :=
  let magnitude := ofDigits whole
  if negative then
    if 0 < magnitude ∧ magnitude ≤ 0x8000000000000000 then some (integer (-magnitude))
    else ofDecimal? true (decimalOf whole [] 0)
  else if magnitude < 0x10000000000000000 then some (integer magnitude)
  else ofDecimal? false (decimalOf whole [] 0)

def readMagnitude (negative : Bool) (text : List Char) : Option (Json × List Char) := do
  let (whole, rest) ← readWhole text
  let (fraction, rest) ← readFraction rest
  let (exponent?, rest) ← readExponent rest
  match fraction, exponent? with
  | [], none => return (← ofWhole? negative whole, rest)
  | _, _ => return (← ofDecimal? negative (decimalOf whole fraction (exponent?.getD 0)), rest)

def readNumber : List Char → Option (Json × List Char)
  | '-' :: rest => readMagnitude true rest
  | text => readMagnitude false text

mutual

/-- A value, with its length bounded by `fuel` and the nesting of arrays and objects by `depth`. -/
def readValue : Nat → Nat → List Char → Option (Json × List Char)
  | _, 0, _ => none
  | depth, fuel + 1, text =>
    match skipSpace text with
    | 'n' :: 'u' :: 'l' :: 'l' :: rest => some (null, rest)
    | 't' :: 'r' :: 'u' :: 'e' :: rest => some (bool true, rest)
    | 'f' :: 'a' :: 'l' :: 's' :: 'e' :: rest => some (bool false, rest)
    | '"' :: rest => (readString fuel rest).map fun (text, rest) => (string text, rest)
    | '[' :: rest =>
      match depth with
      | 0 => none
      | depth + 1 =>
        match skipSpace rest with
        | ']' :: rest => some (array [], rest)
        | rest => (readItems depth fuel rest).map fun (items, rest) => (array items, rest)
    | '\x7b' :: rest =>
      match depth with
      | 0 => none
      | depth + 1 =>
        match skipSpace rest with
        | '\x7d' :: rest => some (object [], rest)
        | rest => (readFields depth fuel rest).map fun (fields, rest) => (object fields, rest)
    | text => readNumber text

def readItems : Nat → Nat → List Char → Option (List Json × List Char)
  | _, 0, _ => none
  | depth, fuel + 1, text => do
    let (item, rest) ← readValue depth fuel text
    match skipSpace rest with
    | ']' :: rest => return ([item], rest)
    | ',' :: rest =>
      let (items, rest) ← readItems depth fuel rest
      return (item :: items, rest)
    | _ => none

def readFields : Nat → Nat → List Char → Option (List (String × Json) × List Char)
  | _, 0, _ => none
  | depth, fuel + 1, text =>
    match skipSpace text with
    | '"' :: rest => do
      let (name, rest) ← readString fuel rest
      match skipSpace rest with
      | ':' :: rest =>
        let (value, rest) ← readValue depth fuel rest
        match skipSpace rest with
        | '\x7d' :: rest => return ([(name, value)], rest)
        | ',' :: rest =>
          let (fields, rest) ← readFields depth fuel rest
          return ((name, value) :: fields, rest)
        | _ => none
      | _ => none
    | _ => none

end

/-- Arrays and objects are read up to this depth. -/
def deepest : Nat := 127

def parse (text : String) : Option Json :=
  let chars := text.toList
  match readValue deepest (2 * chars.length + 2) chars with
  | some (json, rest) => if (skipSpace rest).isEmpty then some json else none
  | none => none

end SharedSequence.Json
