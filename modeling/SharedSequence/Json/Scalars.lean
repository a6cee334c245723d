import SharedSequence.Json.Element

namespace SharedSequence

namespace ScalarCodec

def whole {α : Type} (number : α → Int) (make : Int → α) (least greatest : Int) :
    ScalarCodec α where
  encode value := .integer (number value)
  decode
    | .integer value => if least ≤ value ∧ value ≤ greatest then some (make value) else none
    | _ => none

/-- Characters as strings of one. -/
def character : ScalarCodec Char where
  encode c := .string c.toString
  decode
    | .string text =>
      match text.toList with
      | [c] => some c
      | _ => none
    | _ => none

def text : ScalarCodec String where
  encode := .string
  decode
    | .string text => some text
    | _ => none

def int64 : ScalarCodec Int64 :=
  whole Int64.toInt Int64.ofInt Int64.minValue.toInt Int64.maxValue.toInt

def int32 : ScalarCodec Int32 :=
  whole Int32.toInt Int32.ofInt Int32.minValue.toInt Int32.maxValue.toInt

def byte : ScalarCodec UInt8 :=
  whole (fun value => value.toNat) (fun value => UInt8.ofNat value.toNat) 0 255

theorem whole_faithful {α : Type} {number : α → Int} {make : Int → α} {least greatest : Int}
    (make_number : ∀ v, make (number v) = v)
    (bounds : ∀ v, least ≤ number v ∧ number v ≤ greatest)
    (hl : -0x8000000000000000 ≤ least) (hg : greatest < 0x10000000000000000) :
    (whole number make least greatest).Faithful where
  scalar v := .integer ⟨Int.le_trans hl (bounds v).1, Int.lt_of_le_of_lt (bounds v).2 hg⟩
  decode_encode v := by
    simp only [whole, if_pos (bounds v), make_number]

theorem int64_faithful : int64.Faithful :=
  whole_faithful Int64.ofInt_toInt (fun v => ⟨v.minValue_le_toInt, v.toInt_le⟩) (by decide)
    (by decide)

theorem int32_faithful : int32.Faithful :=
  whole_faithful Int32.ofInt_toInt (fun v => ⟨v.minValue_le_toInt, v.toInt_le⟩) (by decide)
    (by decide)

theorem byte_faithful : byte.Faithful :=
  whole_faithful (fun _ => UInt8.ofNat_toNat)
    (fun v => ⟨Int.natCast_nonneg _, Int.ofNat_le.mpr (Nat.le_of_lt_succ v.toNat_lt)⟩) (by decide)
    (by decide)

theorem character_faithful : character.Faithful where
  scalar _ := .string _
  decode_encode c := by
    simp only [character, Char.toString_eq_singleton, String.toList_singleton]

theorem text_faithful : text.Faithful where
  scalar := .string
  decode_encode _ := rfl

end ScalarCodec

instance : JsonElement Int64 :=
  ScalarCodec.int64.element

instance : JsonElement Int32 :=
  ScalarCodec.int32.element

instance : JsonElement UInt8 :=
  ScalarCodec.byte.element

instance : JsonElement Char :=
  ScalarCodec.character.element

instance : JsonElement String :=
  ScalarCodec.text.element

end SharedSequence
