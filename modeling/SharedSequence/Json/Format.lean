import SharedSequence.Json.Basic

namespace SharedSequence

namespace Json

/-- Values that hold no others. Of the numbers these are the whole ones of 64 bits, with or without
a sign. -/
inductive Scalar : Json → Prop where
  | null : Scalar null
  | bool (value : Bool) : Scalar (bool value)
  | integer {value : Int} (h : -0x8000000000000000 ≤ value ∧ value < 0x10000000000000000) :
      Scalar (integer value)
  | string (text : String) : Scalar (string text)

/-- Scalars, and arrays of such values up to a depth. -/
inductive Nests : Nat → Json → Prop where
  | scalar {depth : Nat} {json : Json} (h : Scalar json) : Nests depth json
  | array {depth : Nat} {items : List Json} (h : ∀ item ∈ items, Nests depth item) :
      Nests (depth + 1) (array items)

theorem Nests.mono {n m : Nat} {json : Json} (h : Nests n json) (hnm : n ≤ m) : Nests m json := by
  induction h generalizing m with
  | scalar h => exact .scalar h
  | array _ ih =>
    obtain ⟨m, rfl⟩ := Nat.exists_eq_add_of_lt (Nat.lt_of_succ_le hnm)
    exact .array fun item hi => ih item hi (by omega)

end Json

/-- How elements of a type are written as JSON values, and which values are read as which of them.
-/
structure ScalarCodec (α : Type) where
  encode : α → Json
  decode : Json → Option α

/-- Every element is written as a scalar and read back from it. -/
structure ScalarCodec.Faithful {α : Type} (codec : ScalarCodec α) : Prop where
  scalar (x : α) : (codec.encode x).Scalar
  decode_encode (x : α) : codec.decode (codec.encode x) = some x

/-- A printer and a parser of JSON text. -/
structure JsonFormat where
  print : Json → String
  parse : String → Option Json

namespace JsonFormat

/-- Scalars are read back from their text. An array is written as the texts of its items between
brackets, with a comma before each but the first, and is read from these texts as deep as the parser
goes. -/
structure Faithful (format : JsonFormat) (depth : Nat) : Prop where
  parse_scalar {json : Json} : json.Scalar → format.parse (format.print json) = some json
  print_array (items : List Json) : format.print (.array items) =
    "[" ++ ",".intercalate (items.map format.print) ++ "]"
  parse_array {items : List Json} : (Json.array items).Nests depth →
    (∀ item ∈ items, format.parse (format.print item) = some item) →
      format.parse ("[" ++ ",".intercalate (items.map format.print) ++ "]") = some (.array items)

variable {format : JsonFormat} {depth n : Nat} {i j : Json}

/-- Each depth of arrays adds brackets around texts that are read back. -/
theorem Faithful.parse_print (hf : format.Faithful depth) (h : j.Nests n) (hn : n ≤ depth) :
    format.parse (format.print j) = some j := by
  induction h with
  | scalar hs => exact hf.parse_scalar hs
  | array hi ih =>
    rw [hf.print_array]
    exact hf.parse_array (Json.Nests.mono (.array hi) hn) fun item hm =>
      ih item hm (Nat.le_of_succ_le hn)

theorem Faithful.eq_of_print_eq (hf : format.Faithful depth) (hi : i.Nests depth)
    (hj : j.Nests depth) (h : format.print i = format.print j) : i = j := by
  have hp := hf.parse_print hi (Nat.le_refl depth)
  rw [h, hf.parse_print hj (Nat.le_refl depth)] at hp
  exact (Option.some.inj hp).symm

end JsonFormat

end SharedSequence
