namespace SharedSequence.Utf8

/-- The byte that carries the low six bits of a number after the first byte. -/
def tail (n : Nat) : UInt8 :=
  UInt8.ofNat (0x80 + n % 0x40)

def encodeChar (c : Char) : List UInt8 :=
  let n := c.toNat
  if n < 0x80 then [UInt8.ofNat n]
  else if n < 0x800 then [UInt8.ofNat (0xC0 + n / 0x40), tail n]
  else if n < 0x10000 then [UInt8.ofNat (0xE0 + n / 0x1000), tail (n / 0x40), tail n]
  else [UInt8.ofNat (0xF0 + n / 0x40000), tail (n / 0x1000), tail (n / 0x40), tail n]

def encode (text : List Char) : List UInt8 :=
  text.flatMap encodeChar

/-- A character whose first bytes have been read: its bits so far, the number of bytes it still
needs, and the least and the greatest byte that may come next. -/
structure Pending where
  bits : Nat
  owed : Nat
  least : UInt8
  greatest : UInt8

/-- What the first byte of a longer form announces; the range of the second byte leaves out forms
that are not the shortest, surrogates, and numbers above the last character. -/
def Pending.ofLead? (lead : UInt8) : Option Pending :=
  if lead < 0xC2 then none
  else if lead ≤ 0xDF then some ⟨lead.toNat - 0xC0, 1, 0x80, 0xBF⟩
  else if lead = 0xE0 then some ⟨0, 2, 0xA0, 0xBF⟩
  else if lead = 0xED then some ⟨0xD, 2, 0x80, 0x9F⟩
  else if lead ≤ 0xEF then some ⟨lead.toNat - 0xE0, 2, 0x80, 0xBF⟩
  else if lead = 0xF0 then some ⟨0, 3, 0x90, 0xBF⟩
  else if lead ≤ 0xF3 then some ⟨lead.toNat - 0xF0, 3, 0x80, 0xBF⟩
  else if lead = 0xF4 then some ⟨4, 3, 0x80, 0x8F⟩
  else none

/-- Decodes bytes that may continue a pending character. -/
def decodeFrom : Option Pending → List UInt8 → Option (List Char)
  | none, [] => some []
  | some _, [] => none
  | none, byte :: rest =>
    if byte < 0x80 then (decodeFrom none rest).map (Char.ofNat byte.toNat :: ·)
    else
      match Pending.ofLead? byte with
      | none => none
      | some pending => decodeFrom (some pending) rest
  | some pending, byte :: rest =>
    if pending.least ≤ byte ∧ byte ≤ pending.greatest then
      let bits := pending.bits * 0x40 + (byte.toNat - 0x80)
      if pending.owed = 1 then (decodeFrom none rest).map (Char.ofNat bits :: ·)
      else decodeFrom (some ⟨bits, pending.owed - 1, 0x80, 0xBF⟩) rest
    else none

def decode (bytes : List UInt8) : Option (List Char) :=
  decodeFrom none bytes

end SharedSequence.Utf8
