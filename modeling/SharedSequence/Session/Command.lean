import SharedSequence.Bytes
import SharedSequence.CursorScript
import SharedSequence.Json.Basic

namespace SharedSequence

/-- Commands that store a sequence and need no element operations beyond equality. -/
inductive Construction (α : Type) where
  | empty
  | replicate (count : Nat) (value : α)
  | ofArray (items : Array α)
  | ofBuffer (items : Array α)
  | ofSlice (items : Array α) (offset length : Nat)
  | ofOptions (items : List (Option α))
  | copy (a : String)
  | concat (a b : String)
  | concatAll (parts : List String)
  | combineAll (parts : List String)
  | appendEach (a : String) (items : List α)
  | prependEach (a : String) (items : List α)
  | slice (a : String) (offset length : Nat)
  | sliceFrom (a : String) (offset : Nat)
  | subList (a : String) (start stop : Nat)
  | reverse (a : String)
  | compactFlat (a : String)

/-- Questions about sequences that need no element operations beyond equality. -/
inductive Query (α : Type) where
  | info (a : String)
  | isUniform (a : String)
  | toList (a : String)
  | get (a : String) (index : Nat)
  | listGet (a : String) (index : Nat)
  | listElement (a : String) (index : Nat)
  | listInfo (a : String)
  | fold (a : String) (initial : String) (step : String → α → String)
  | walk (a : String) (skipping : Skipping) (script : List CursorMove)
  | extract (a : String) (stop : Nat)
  | extractRange (a : String) (offset length : Nat) (direction : Direction) (stop : Nat)
  | writeInto (a : String) (target : Array α) (offset : Nat)
  | find (a : String) (value : α) (offset : Nat)
  | findLast (a : String) (value : α)
  | contains (a : String) (value : α)
  | findAll (a : String) (value : α)
  | listFind (a : String) (value : α)
  | findSequence (a needle : String) (offset : Nat)
  | hashMask (entries : Nat)
  | sameInstance (a b : String)
  | outline (a : String)

inductive MapCommand (α : Type) where
  | pair (keys values target : String)
  | copy (map target : String)
  | get (map : String) (key : α)
  | contains (map : String) (value : α)
  | entries (map : String)
  | keys (map target : String)
  | values (map target : String)
  | parts (map keysTo valuesTo : String)
  | recode (map target : String)
  /-- Reads the sequence of the given sequences as a map, or copies of the first of them. -/
  | ofSequences (parts : List String) (copies : Option Nat) (reversed : Bool) (target : String)

inductive Command (α : Type) where
  | construct (construction : Construction α) (target : String)
  /-- Stores nothing where there are no parts. -/
  | reduceAll (parts : List String) (target : String)
  | query (query : Query α)
  | map (command : MapCommand α)

/-- Orders of elements: their own one, its opposite, and the one where all are equal. -/
inductive ElementOrder where
  | natural
  | reversed
  | allEqual
deriving DecidableEq, Repr

/-- Commands for elements that can be hashed, ordered, shown and written as JSON. -/
inductive HashedCommand (α : Type) where
  | compact (a : String) (withIndex : Bool) (target : String)
  | compactTraced (a : String) (withIndex : Bool) (target : String)
  | hashCode (a : String)
  | hashIndex (a : String)
  | bucket (a : String) (hash : UInt32)
  | sameIndex (a b : String)
  | equals (a b : String)
  | equalsEmpty (a : String)
  | compare (a b : String)
  | compareWith (a b : String) (order : ElementOrder)
  | debug (a : String)
  | toJson (a : String)
  | ofJson (json : Json) (target : String)
  | mapOfEntries (entries : List (α × α)) (target : String)
  | mapDebug (map : String)

inductive TextCommand where
  | ofText (text : String) (target : String)
  | ofCodePoints (codePoints : List UInt32) (target : String)
  | ofUtf16 (units : List UInt16) (target : String)
  | ofUtf8 (bytes : List UInt8) (target : String)
  | toText (a : String)
  | toUtf8 (a : String)
  | toUtf16 (a : String)
  | toCodePoints (a : String)
  | display (a : String) (room : Nat)

inductive ByteCommand where
  | ofHex (text : String) (header : Bool) (target : String)
  | toHex (a : String) (header : Bool)
  | toText (a : String)
  | ofInteger (value : UInt64) (length : Nat) (endian : Endian) (target : String)
  | toInteger (a : String) (endian : Endian)
  | display (a : String) (room : Nat)

inductive NestedCommand (β : Type) where
  /-- Reads the sequence itself as a map and looks up a key. -/
  | toMap (a : String) (key : Option β)

end SharedSequence
