import SharedSequence.Proofs.Utf8

namespace SharedSequence

open Sequence

namespace Hex

def IsDigit (c : Char) : Prop :=
  ('0' ≤ c ∧ c ≤ '9') ∨ ('A' ≤ c ∧ c ≤ 'F') ∨ ('a' ≤ c ∧ c ≤ 'f')

instance (c : Char) : Decidable (IsDigit c) :=
  inferInstanceAs (Decidable (_ ∨ _))

/-- Nothing is left over when digits are taken two by two. -/
inductive InPairs : List UInt8 → Prop where
  | nil : InPairs []
  | pair {high low : UInt8} {rest : List UInt8} (h : InPairs rest) : InPairs (high :: low :: rest)

variable {byte high low h l : UInt8} {digits bytes : List UInt8} {c : Char} {text : List Char}

theorem forall_byte {P : UInt8 → Prop} (h : ∀ n < 256, P (.ofNat n)) (byte : UInt8) : P byte := by
  have hb := h byte.toNat byte.toNat_lt
  rwa [UInt8.ofNat_toNat] at hb

theorem isSome_digitValue? :
    ∀ byte, (digitValue? byte).isSome = true ↔ IsDigit (Char.ofNat byte.toNat) :=
  forall_byte (by decide +kernel)

theorem digit_of_mem_digitValue? (hh : h ∈ digitValue? high) :
    h.toNat < 16 ∧ digit h.toNat = (Char.ofNat high.toNat).toUpper := by
  -- Stated with `all`, the table is decided by one row for each byte.
  have htable : ∀ byte, (digitValue? byte).all (fun value =>
      value.toNat < 16 ∧ digit value.toNat = (Char.ofNat byte.toNat).toUpper) = true :=
    forall_byte (by decide +kernel)
  have hrow := htable high
  rw [Option.mem_def.mp hh] at hrow
  exact of_decide_eq_true hrow

theorem digitValue?_digit :
    ∀ n < 16, digitValue? (UInt8.ofNat (digit n).toNat) = some (UInt8.ofNat n) := by
  decide

theorem isDigit_digit : ∀ n < 16, IsDigit (digit n) := by
  decide

theorem toNat_lt_of_isDigit (hc : IsDigit c) : c.toNat < 0x80 := by
  simp only [IsDigit, Char.le_def, UInt32.le_iff_toNat_le] at hc
  change c.val.toNat < _
  obtain ⟨-, hc⟩ | ⟨-, hc⟩ | ⟨-, hc⟩ := hc <;> exact Nat.lt_of_le_of_lt hc (by decide)

theorem toNat_pair (hh : h.toNat < 16) (hl : l.toNat < 16) :
    ((h <<< 4) ||| l).toNat = h.toNat * 16 + l.toNat := by
  have hs : (h <<< 4).toNat = h.toNat <<< 4 := by
    rw [UInt8.toNat_shiftLeft]
    apply Nat.mod_eq_of_lt
    change h.toNat <<< 4 < 256
    rw [Nat.shiftLeft_eq]
    omega
  rw [UInt8.toNat_or, hs, ← Nat.shiftLeft_add_eq_or_of_lt hl, Nat.shiftLeft_eq]

theorem encodeByte_pair (hh : h ∈ digitValue? high) (hl : l ∈ digitValue? low) :
    encodeByte ((h <<< 4) ||| l) =
      [(Char.ofNat high.toNat).toUpper, (Char.ofNat low.toNat).toUpper] := by
  obtain ⟨hh₁, hh₂⟩ := digit_of_mem_digitValue? hh
  obtain ⟨hl₁, hl₂⟩ := digit_of_mem_digitValue? hl
  have hdiv : (h.toNat * 16 + l.toNat) / 16 = h.toNat := by omega
  have hmod : (h.toNat * 16 + l.toNat) % 16 = l.toNat := by omega
  rw [encodeByte, toNat_pair hh₁ hl₁, hdiv, hmod, hh₂, hl₂]

theorem byte_div_lt (byte : UInt8) : byte.toNat / 16 < 16 :=
  Nat.div_lt_of_lt_mul byte.toNat_lt

theorem byte_mod_lt (byte : UInt8) : byte.toNat % 16 < 16 :=
  Nat.mod_lt _ (by decide)

theorem isDigit_encodeByte (byte : UInt8) : ∀ c ∈ encodeByte byte, IsDigit c := by
  rw [encodeByte, List.forall_mem_cons, List.forall_mem_singleton]
  exact ⟨isDigit_digit _ (byte_div_lt byte), isDigit_digit _ (byte_mod_lt byte)⟩

theorem pair_digits (byte : UInt8) :
    (UInt8.ofNat (byte.toNat / 16) <<< 4) ||| UInt8.ofNat (byte.toNat % 16) = byte := by
  have hb := byte.toNat_lt
  have hh : (UInt8.ofNat (byte.toNat / 16)).toNat = byte.toNat / 16 :=
    UInt8.toNat_ofNat_of_lt (by change _ < 256; omega)
  have hl : (UInt8.ofNat (byte.toNat % 16)).toNat = byte.toNat % 16 :=
    UInt8.toNat_ofNat_of_lt (by change _ < 256; omega)
  apply UInt8.toNat_inj.mp
  rw [toNat_pair (by omega) (by omega), hh, hl]
  omega

theorem inPairs_of_length {digits : List UInt8} (he : digits.length % 2 = 0) : InPairs digits := by
  match digits with
  | [] => exact .nil
  | [_] => cases he
  | high :: low :: rest =>
    apply InPairs.pair
    apply inPairs_of_length
    simp only [List.length_cons] at he
    omega

theorem decodePairs?_pair (hh : digitValue? high = some h) (hl : digitValue? low = some l)
    (rest : List UInt8) :
    decodePairs? (high :: low :: rest) = (decodePairs? rest).map (((h <<< 4) ||| l) :: ·) := by
  rw [decodePairs?, hh, hl]
  cases decodePairs? rest <;> rfl

theorem of_decodePairs?_pair {rest : List UInt8}
    (hd : decodePairs? (high :: low :: rest) = some bytes) :
    ∃ h l bytes', digitValue? high = some h ∧ digitValue? low = some l ∧
      decodePairs? rest = some bytes' ∧ bytes = ((h <<< 4) ||| l) :: bytes' := by
  rw [decodePairs?] at hd
  obtain ⟨h, hh, hd⟩ := Option.bind_eq_some_iff.mp hd
  obtain ⟨l, hl, hd⟩ := Option.bind_eq_some_iff.mp hd
  obtain ⟨bytes', hr, hd⟩ := Option.bind_eq_some_iff.mp hd
  exact ⟨h, l, bytes', hh, hl, hr, (Option.some.inj hd).symm⟩

theorem exists_decodePairs?_iff (hp : InPairs digits) :
    (∃ bytes, decodePairs? digits = some bytes) ↔
      ∀ byte ∈ digits, (digitValue? byte).isSome = true := by
  induction hp with
  | nil => exact iff_of_true ⟨[], rfl⟩ nofun
  | pair _ ih =>
    rw [List.forall_mem_cons, List.forall_mem_cons, ← ih]
    constructor
    · rintro ⟨bytes, hd⟩
      obtain ⟨h, l, bytes', hh, hl, hr, -⟩ := of_decodePairs?_pair hd
      exact ⟨Option.isSome_of_eq_some hh, Option.isSome_of_eq_some hl, bytes', hr⟩
    · rintro ⟨hh, hl, bytes, hr⟩
      obtain ⟨h, hh⟩ := Option.isSome_iff_exists.mp hh
      obtain ⟨l, hl⟩ := Option.isSome_iff_exists.mp hl
      exact ⟨_, by rw [decodePairs?_pair hh hl, hr, Option.map_some]⟩

/-- What pairs of digits are read as is written with the digits in upper case. -/
theorem flatMap_encodeByte (hp : InPairs digits) (hd : decodePairs? digits = some bytes) :
    bytes.flatMap encodeByte = digits.map fun byte => (Char.ofNat byte.toNat).toUpper := by
  induction hp generalizing bytes with
  | nil =>
    cases hd
    rfl
  | pair _ ih =>
    obtain ⟨h, l, bytes', hh, hl, hr, rfl⟩ := of_decodePairs?_pair hd
    rw [List.flatMap_cons, encodeByte_pair hh hl, ih hr]
    rfl

theorem char_of_ascii (hc : c.toNat < 0x80) : Char.ofNat (UInt8.ofNat c.toNat).toNat = c := by
  have hb : (UInt8.ofNat c.toNat).toNat = c.toNat :=
    UInt8.toNat_ofNat_of_lt (Nat.lt_trans hc (by decide))
  rw [hb, Char.ofNat_toNat]

theorem isDigit_iff_encodeChar :
    IsDigit c ↔ ∀ byte ∈ Utf8.encodeChar c, (digitValue? byte).isSome = true := by
  by_cases hc : c.toNat < 0x80
  · rw [Utf8.encodeChar_of_ascii hc, List.forall_mem_singleton, isSome_digitValue?,
      char_of_ascii hc]
  · apply iff_of_false (mt toNat_lt_of_isDigit hc)
    intro hd
    -- A byte that is a digit is a character of its own.
    obtain ⟨byte, hb, hlt⟩ := (Utf8.spells_encodeChar c).exists_high (Nat.le_of_not_lt hc)
    have hbyte := toNat_lt_of_isDigit ((isSome_digitValue? byte).mp (hd byte hb))
    have hv : (Char.ofNat byte.toNat).toNat = byte.toNat :=
      toNat_ofNat_of_isValidChar (.inl (Nat.lt_trans byte.toNat_lt (by decide)))
    omega

theorem forall_isDigit_iff_encode :
    (∀ c ∈ text, IsDigit c) ↔ ∀ byte ∈ Utf8.encode text, (digitValue? byte).isSome = true := by
  rw [Utf8.encode, List.forall_mem_flatMap]
  exact forall₂_congr fun c _ => isDigit_iff_encodeChar

theorem encode_of_isDigit (h : ∀ c ∈ text, IsDigit c) :
    Utf8.encode text = text.map fun c => UInt8.ofNat c.toNat := by
  induction text with
  | nil => rfl
  | cons c text ih =>
    obtain ⟨hc, ht⟩ := List.forall_mem_cons.mp h
    rw [Utf8.encode, List.flatMap_cons, Utf8.encodeChar_of_ascii (toNat_lt_of_isDigit hc),
      ← Utf8.encode, ih ht]
    rfl

theorem decodePairs?_encode (bytes : List UInt8) :
    decodePairs? (Utf8.encode (bytes.flatMap encodeByte)) = some bytes := by
  induction bytes with
  | nil => rfl
  | cons byte bytes ih =>
    have hh := digitValue?_digit _ (byte_div_lt byte)
    have hl := digitValue?_digit _ (byte_mod_lt byte)
    rw [List.flatMap_cons, Utf8.encode_append, encode_of_isDigit (isDigit_encodeByte byte),
      encodeByte, List.map_cons, List.map_singleton, List.cons_append, List.singleton_append,
      decodePairs?_pair hh hl, ih, Option.map_some, pair_digits]

theorem length_encode_of_isDigit (h : ∀ c ∈ text, IsDigit c) :
    (Utf8.encode text).length = text.length := by
  rw [encode_of_isDigit h, List.length_map]

theorem flatMap_encodeByte_of_isDigit (h : ∀ c ∈ text, IsDigit c) (he : text.length % 2 = 0)
    (hd : decodePairs? (Utf8.encode text) = some bytes) :
    bytes.flatMap encodeByte = text.map Char.toUpper := by
  have hp : InPairs (Utf8.encode text) := inPairs_of_length (by rwa [length_encode_of_isDigit h])
  rw [flatMap_encodeByte hp hd, encode_of_isDigit h, List.map_map]
  apply List.map_congr_left
  intro c hc
  rw [Function.comp_apply, char_of_ascii (toNat_lt_of_isDigit (h c hc))]

end Hex

namespace Bytes

/-- An even number of digits after the header. -/
def IsHex (text : String) (header : Bool) : Prop :=
  ∃ digits, text.toList = Hex.header header ++ digits ∧ digits.length % 2 = 0 ∧
    ∀ c ∈ digits, Hex.IsDigit c

/-- The text is not read, and the error says why. -/
def Refused (text : String) (header : Bool) (reason : String) : Prop :=
  ∃ rejection, ofHex text header = .error (.invalidArgument rejection) ∧ rejection.reason = reason

variable {text : String} {header : Bool} {rest : List Char}

theorem dropHeader?_eq_none {text : List Char} (h : ¬∃ rest, text = Hex.header true ++ rest) :
    dropHeader? text = none := by
  unfold dropHeader?
  split
  · exact absurd ⟨_, rfl⟩ h
  · rfl

theorem ofHex_of_missing (h : ¬∃ rest, text.toList = Hex.header header ++ rest) :
    ofHex text header = .error (.invalidArgument .missingHexHeader) := by
  cases header with
  | false => exact absurd ⟨_, rfl⟩ h
  | true =>
    rw [ofHex, hexDigits, if_pos rfl, dropHeader?_eq_none h]
    rfl

section

variable (ht : text.toList = Hex.header header ++ rest)

include ht

theorem decode_hexDigits :
    (hexDigits text header >>= Hex.decode) = Hex.decode (Utf8.encode rest) := by
  rw [hexDigits, ht]
  cases header <;> rfl

theorem ofHex_of_odd (ho : (Utf8.encode rest).length % 2 = 1) :
    ofHex text header = .error (.invalidArgument .oddHexDigits) := by
  have hd : Hex.decode (Utf8.encode rest) = .error .oddHexDigits := by
    rw [Hex.decode, if_pos (by omega)]
  rw [ofHex, decode_hexDigits ht, hd]

theorem ofHex_of_even (he : (Utf8.encode rest).length % 2 = 0) :
    ofHex text header = ofDecoded (Hex.decodePairs? (Utf8.encode rest)) .invalidHexDigit := by
  rw [ofHex, decode_hexDigits ht, Hex.decode, if_neg (by omega)]
  cases Hex.decodePairs? (Utf8.encode rest) <;> rfl

theorem exists_ofHex_of_even (he : (Utf8.encode rest).length % 2 = 0) :
    (∃ make, ofHex text header = .ok make) ↔ ∀ c ∈ rest, Hex.IsDigit c := by
  rw [ofHex_of_even ht he, exists_ofDecoded_iff,
    Hex.exists_decodePairs?_iff (Hex.inPairs_of_length he), Hex.forall_isDigit_iff_encode]

theorem ofHex_of_invalid (he : (Utf8.encode rest).length % 2 = 0)
    (hi : ¬∀ c ∈ rest, Hex.IsDigit c) :
    ofHex text header = .error (.invalidArgument .invalidHexDigit) := by
  rw [← exists_ofHex_of_even ht he, ofHex_of_even ht he, exists_ofDecoded_iff] at hi
  rw [ofHex_of_even ht he, ofDecoded_eq_error _ hi]

theorem ofHex_eq_ok {make : StoreM Bytes} (hm : ofHex text header = .ok make) :
    rest.length % 2 = 0 ∧ (∀ c ∈ rest, Hex.IsDigit c) ∧
      ∃ bytes, Hex.decodePairs? (Utf8.encode rest) = some bytes ∧ make = ofList bytes := by
  obtain he | ho := Nat.mod_two_eq_zero_or_one (Utf8.encode rest).length
  · have hd := (exists_ofHex_of_even ht he).mp ⟨make, hm⟩
    rw [ofHex_of_even ht he] at hm
    rw [Hex.length_encode_of_isDigit hd] at he
    exact ⟨he, hd, ofDecoded_eq_ok hm⟩
  · rw [ofHex_of_odd ht ho] at hm
    cases hm

end

theorem exists_ofHex_iff : (∃ make, ofHex text header = .ok make) ↔ IsHex text header := by
  constructor
  · rintro ⟨make, hm⟩
    by_cases ht : ∃ rest, text.toList = Hex.header header ++ rest
    · obtain ⟨rest, ht⟩ := ht
      obtain ⟨he, hd, -⟩ := ofHex_eq_ok ht hm
      exact ⟨rest, ht, he, hd⟩
    · rw [ofHex_of_missing ht] at hm
      cases hm
  · rintro ⟨rest, ht, he, hd⟩
    rw [← Hex.length_encode_of_isDigit hd] at he
    exact (exists_ofHex_of_even ht he).mpr hd

theorem ofHex_encode (header : Bool) (bytes : List UInt8) :
    ofHex (Hex.encode header bytes) header = .ok (ofList bytes) := by
  have ht : (Hex.encode header bytes).toList = Hex.header header ++ bytes.flatMap Hex.encodeByte :=
    String.toList_ofList
  have hd : ∀ c ∈ bytes.flatMap Hex.encodeByte, Hex.IsDigit c :=
    List.forall_mem_flatMap.mpr fun byte _ => Hex.isDigit_encodeByte byte
  have he : (Utf8.encode (bytes.flatMap Hex.encodeByte)).length % 2 = 0 := by
    rw [Hex.length_encode_of_isDigit hd]
    simp [List.length_flatMap, Hex.encodeByte]
  rw [ofHex_of_even ht he, Hex.decodePairs?_encode, ofDecoded]

/-- A text is read exactly if it is an even number of digits after its header. It is refused first
for a missing header, then for an odd number of bytes, then for a character that is no digit, and
what is read is written with the digits in upper case. In a run, what is written for a sequence is
read as a sequence equal to it. -/
theorem hex_round_trip :
    (∀ (text : String) (header : Bool),
      ((∃ make, ofHex text header = .ok make) ↔ IsHex text header) ∧
        ((¬∃ rest, text.toList = Hex.header header ++ rest) →
          Refused text header "missing hex header") ∧
        ∀ rest, text.toList = Hex.header header ++ rest →
          ((String.ofList rest).utf8ByteSize % 2 = 1 →
            Refused text header "odd number of hex digits") ∧
          ((String.ofList rest).utf8ByteSize % 2 = 0 → (¬∀ c ∈ rest, Hex.IsDigit c) →
            Refused text header "invalid hex digit") ∧
          ∀ make, ofHex text header = .ok make → ∀ store,
            toHex (make.run store).1 header =
              String.ofList (Hex.header header ++ rest.map Char.toUpper)) ∧
      ∀ {store : Store} {made : List Bytes}, Run (some inferInstance) store made →
        ∀ s ∈ made, ∀ header,
          ∃ make, ofHex (s.toHex header) header = .ok make ∧ MakesEqual make store s := by
  constructor
  · intro text header
    refine ⟨exists_ofHex_iff, fun h => ⟨_, ofHex_of_missing h, rfl⟩, ?_⟩
    intro rest ht
    rw [← Utf8.length_encode]
    refine ⟨?_, ?_, ?_⟩
    · intro ho
      exact ⟨_, ofHex_of_odd ht ho, rfl⟩
    · intro he hi
      exact ⟨_, ofHex_of_invalid ht he hi, rfl⟩
    · intro make hm store
      obtain ⟨he, hd, bytes, hb, rfl⟩ := ofHex_eq_ok ht hm
      rw [← Hex.flatMap_encodeByte_of_isDigit hd he hb]
      exact yields_written (fun _ hw => @toHex_eq none _ hw header) bytes store
  · intro store made h s hs header
    exact ⟨_, by rw [toHex_eq (h.wellFormed hs), ofHex_encode], h.makesEqual_ofList hs⟩

/-- Digits of both cases after a header, and a text that is refused for each reason: one without
the header, one of five bytes, and one of a character of two bytes. -/
theorem hex_round_trip_beads :
    (∃ make, ofHex "0x0B0BADDECA" true = .ok make ∧
      MakesEqual make ⟨#[0, 0, 0, 0]⟩ (reversedLink 0xCA 0xDE 0xAD 0x0B)) ∧
      (∃ make, ofHex "0x0b0BaDdEcA" true = .ok make ∧
        ∀ store, toHex (make.run store).1 true = "0x0B0BADDECA") ∧
      Refused "0B" true "missing hex header" ∧ Refused "0x0b€" true "odd number of hex digits" ∧
      Refused "é" false "invalid hex digit" := by
  obtain ⟨htexts, hruns⟩ := hex_round_trip
  obtain ⟨made, hrun⟩ := run_reversedLink (0xCA : UInt8) 0xDE 0xAD 0x0B
  obtain ⟨hread, -, hafter⟩ := htexts "0x0b0BaDdEcA" true
  have hall : "0b0BaDdEcA".toList.all (fun c => decide (Hex.IsDigit c)) = true := rfl
  have hdigits : ∀ c ∈ "0b0BaDdEcA".toList, Hex.IsDigit c :=
    fun c hc => of_decide_eq_true (List.all_eq_true.mp hall c hc)
  obtain ⟨make, hm⟩ := hread.mpr ⟨"0b0BaDdEcA".toList, by decide, by decide, hdigits⟩
  obtain ⟨-, -, hwritten⟩ := hafter "0b0BaDdEcA".toList (by decide)
  obtain ⟨-, hmissing, -⟩ := htexts "0B" true
  have hnone : ¬∃ rest, "0B".toList = Hex.header true ++ rest := by
    rintro ⟨rest, hr⟩
    cases hr
  obtain ⟨hodd, -⟩ := (htexts "0x0b€" true).2.2 ['0', 'b', '€'] (by decide)
  obtain ⟨-, hinvalid, -⟩ := (htexts "é" false).2.2 ['é'] (by decide)
  exact ⟨hruns hrun _ (.head _) true, ⟨make, hm, hwritten make hm⟩, hmissing hnone,
    hodd (by decide), hinvalid (by decide) fun h => absurd (h 'é' (.head _)) (by decide)⟩

end Bytes

end SharedSequence
