import SharedSequence.Proofs.Encodings

namespace SharedSequence

open Sequence

namespace Utf16

/-- The units of a character: one that is no surrogate, or a pair of surrogates. -/
inductive Spells : List UInt16 → Char → Prop where
  | unit {unit : UInt16} (hh : ¬isHigh unit = true) (hl : ¬isLow unit = true) :
      Spells [unit] (Char.ofNat unit.toNat)
  | pair {high low : UInt16} (hh : isHigh high = true) (hl : isLow low = true) :
      Spells [high, low] (ofPair high low)

def HighAt (units : List UInt16) (i : Nat) : Prop :=
  ∃ unit, units[i]? = some unit ∧ isHigh unit = true

def LowAt (units : List UInt16) (i : Nat) : Prop :=
  ∃ unit, units[i]? = some unit ∧ isLow unit = true

/-- Every high surrogate is followed by a low one, and every low one is preceded by a high one. -/
structure Paired (units : List UInt16) : Prop where
  high (i : Nat) : HighAt units i → LowAt units (i + 1)
  low (i : Nat) : LowAt units i → ∃ j, i = j + 1 ∧ HighAt units j

variable {unit high low : UInt16} {units form rest : List UInt16} {c : Char} {text : List Char}
  {i : Nat}

theorem isHigh_iff : isHigh unit = true ↔ 0xD800 ≤ unit.toNat ∧ unit.toNat ≤ 0xDBFF := by
  simp only [isHigh, Bool.and_eq_true, decide_eq_true_eq, UInt16.le_iff_toNat_le]
  rfl

theorem isLow_iff : isLow unit = true ↔ 0xDC00 ≤ unit.toNat ∧ unit.toNat ≤ 0xDFFF := by
  simp only [isLow, Bool.and_eq_true, decide_eq_true_eq, UInt16.le_iff_toNat_le]
  rfl

theorem not_isHigh_of_isLow (h : isLow unit = true) : ¬isHigh unit = true := by
  rw [isLow_iff] at h
  rw [isHigh_iff]
  omega

theorem Spells.encodeChar_eq (h : Spells form c) : encodeChar c = form := by
  cases h with
  | @unit unit hh hl =>
    rw [isHigh_iff] at hh
    rw [isLow_iff] at hl
    have hu := unit.toNat_lt
    have hn : (Char.ofNat unit.toNat).toNat = unit.toNat :=
      toNat_ofNat_of_isValidChar (by omega)
    rw [encodeChar, hn, if_pos hu, UInt16.ofNat_toNat]
  | @pair high low hh hl =>
    rw [isHigh_iff] at hh
    rw [isLow_iff] at hl
    have hn : (ofPair high low).toNat =
        0x10000 + (high.toNat - 0xD800) * 0x400 + (low.toNat - 0xDC00) :=
      toNat_ofNat_of_isValidChar (by omega)
    have hhigh : 0xD800 + ((ofPair high low).toNat - 0x10000) / 0x400 = high.toNat := by omega
    have hlow : 0xDC00 + ((ofPair high low).toNat - 0x10000) % 0x400 = low.toNat := by omega
    rw [encodeChar, if_neg (by omega), hhigh, hlow, UInt16.ofNat_toNat, UInt16.ofNat_toNat]

theorem spells_encodeChar (c : Char) : Spells (encodeChar c) c := by
  have hc := isValidChar_toNat c
  by_cases hn : c.toNat < 0x10000
  · have hu : (UInt16.ofNat c.toNat).toNat = c.toNat := UInt16.toNat_ofNat_of_lt hn
    have h : Spells [UInt16.ofNat c.toNat] (Char.ofNat (UInt16.ofNat c.toNat).toNat) :=
      .unit (by rw [isHigh_iff]; omega) (by rw [isLow_iff]; omega)
    rw [encodeChar, if_pos hn]
    rwa [hu, Char.ofNat_toNat] at h
  · have hhigh : (UInt16.ofNat (0xD800 + (c.toNat - 0x10000) / 0x400)).toNat =
        0xD800 + (c.toNat - 0x10000) / 0x400 :=
      UInt16.toNat_ofNat_of_lt (by change _ < 65536; omega)
    have hlow : (UInt16.ofNat (0xDC00 + (c.toNat - 0x10000) % 0x400)).toNat =
        0xDC00 + (c.toNat - 0x10000) % 0x400 :=
      UInt16.toNat_ofNat_of_lt (by change _ < 65536; omega)
    have h := Spells.pair (isHigh_iff.mpr (by rw [hhigh]; omega))
      (isLow_iff.mpr (by rw [hlow]; omega))
    have hback : 0x10000 + (0xD800 + (c.toNat - 0x10000) / 0x400 - 0xD800) * 0x400 +
        (0xDC00 + (c.toNat - 0x10000) % 0x400 - 0xDC00) = c.toNat := by omega
    rw [encodeChar, if_neg hn]
    rwa [ofPair, hhigh, hlow, hback, Char.ofNat_toNat] at h

theorem Spells.decode_append (h : Spells form c) (rest : List UInt16) :
    decode (form ++ rest) = (decode rest).map (c :: ·) := by
  cases h with
  | unit hh hl =>
    rw [List.singleton_append, decode.eq_def]
    simp only [if_neg hh, if_neg hl]
  | pair hh hl => rw [List.cons_append, List.singleton_append, decode, if_pos hh, if_pos hl]

theorem decode_encode (text : List Char) : decode (encode text) = some text := by
  induction text with
  | nil => rfl
  | cons c text ih =>
    rw [encode, List.flatMap_cons, (spells_encodeChar c).decode_append, ← encode, ih,
      Option.map_some]

theorem encode_of_decode (h : decode units = some text) : encode text = units := by
  fun_induction decode units generalizing text with
  | case1 =>
    cases h
    rfl
  | case3 high hh low rest hl ih =>
    obtain ⟨text, ht, rfl⟩ := Option.map_eq_some_iff.mp h
    rw [encode, List.flatMap_cons, (Spells.pair hh hl).encodeChar_eq, ← encode, ih ht]
    rfl
  | case6 unit rest hh hl ih =>
    obtain ⟨text, ht, rfl⟩ := Option.map_eq_some_iff.mp h
    rw [encode, List.flatMap_cons, (Spells.unit hh hl).encodeChar_eq, ← encode, ih ht]
    rfl
  | case2 | case4 | case5 => cases h

theorem highAt_zero : HighAt (unit :: rest) 0 ↔ isHigh unit = true := by
  simp [HighAt]

theorem highAt_succ : HighAt (unit :: rest) (i + 1) ↔ HighAt rest i :=
  Iff.rfl

theorem lowAt_zero : LowAt (unit :: rest) 0 ↔ isLow unit = true := by
  simp [LowAt]

theorem lowAt_succ : LowAt (unit :: rest) (i + 1) ↔ LowAt rest i :=
  Iff.rfl

theorem paired_nil : Paired [] where
  high _ h := nomatch h
  low _ h := nomatch h

/-- Nothing in front of the rest pairs with it. -/
theorem Spells.paired_append (h : Spells form c) : Paired (form ++ rest) ↔ Paired rest := by
  cases h with
  | @unit unit hh hl =>
    constructor
    · intro h
      refine ⟨fun i hi => h.high (i + 1) hi, fun i hi => ?_⟩
      obtain ⟨j, hj, hu⟩ := h.low (i + 1) hi
      cases j with
      | zero => exact absurd (highAt_zero.mp hu) hh
      | succ j => exact ⟨j, Nat.succ.inj hj, hu⟩
    · intro h
      constructor
      · intro i hi
        cases i with
        | zero => exact absurd (highAt_zero.mp hi) hh
        | succ i => exact h.high i hi
      · intro i hi
        cases i with
        | zero => exact absurd (lowAt_zero.mp hi) hl
        | succ i =>
          obtain ⟨j, rfl, hu⟩ := h.low i hi
          exact ⟨j + 1, rfl, hu⟩
  | @pair high low hh hl =>
    have hlow := not_isHigh_of_isLow hl
    constructor
    · intro h
      refine ⟨fun i hi => h.high (i + 2) hi, fun i hi => ?_⟩
      obtain ⟨j, hj, hu⟩ := h.low (i + 2) hi
      obtain rfl : i + 1 = j := Nat.succ.inj hj
      cases i with
      | zero => exact absurd (highAt_zero.mp (highAt_succ.mp hu)) hlow
      | succ i => exact ⟨i, rfl, hu⟩
    · intro h
      constructor
      · intro i hi
        cases i with
        | zero => exact lowAt_succ.mpr (lowAt_zero.mpr hl)
        | succ i =>
          cases i with
          | zero => exact absurd (highAt_zero.mp (highAt_succ.mp hi)) hlow
          | succ i => exact h.high i hi
      · intro i hi
        cases i with
        | zero => exact absurd hh (not_isHigh_of_isLow (lowAt_zero.mp hi))
        | succ i =>
          cases i with
          | zero => exact ⟨0, rfl, highAt_zero.mpr hh⟩
          | succ i =>
            obtain ⟨j, rfl, hu⟩ := h.low i hi
            exact ⟨j + 2, rfl, hu⟩

theorem exists_decode_iff : (∃ text, decode units = some text) ↔ Paired units := by
  fun_induction decode units with
  | case1 => exact iff_of_true ⟨_, rfl⟩ paired_nil
  | case2 high hh =>
    apply iff_of_false nofun
    intro h
    obtain ⟨low, hl, -⟩ := h.high 0 (highAt_zero.mpr hh)
    cases hl
  | case3 high hh low rest hl ih =>
    have hp : Paired (high :: low :: rest) ↔ Paired rest := (Spells.pair hh hl).paired_append
    rw [hp, ← ih]
    simp
  | case4 high hh unit rest hl =>
    apply iff_of_false nofun
    intro h
    exact hl (lowAt_zero.mp (lowAt_succ.mp (h.high 0 (highAt_zero.mpr hh))))
  | case5 unit rest hh hl =>
    apply iff_of_false nofun
    intro h
    obtain ⟨j, hj, -⟩ := h.low 0 (lowAt_zero.mpr hl)
    cases hj
  | case6 unit rest hh hl ih =>
    have hp : Paired (unit :: rest) ↔ Paired rest := (Spells.unit hh hl).paired_append
    rw [hp, ← ih]
    simp

end Utf16

namespace CodePoints

theorem ofUtf16_eq (units : List UInt16) :
    ofUtf16 units = ofDecoded (Utf16.decode units) .unpairedSurrogate := by
  rw [ofUtf16]
  cases Utf16.decode units <;> rfl

theorem ofUtf16_encode (text : List Char) : ofUtf16 (Utf16.encode text) = .ok (ofList text) := by
  rw [ofUtf16, Utf16.decode_encode]

/-- Units are read exactly if all surrogates stand in pairs, other units are refused, and what is
read is written as these units. In a run, what is written for a sequence is read as a sequence equal
to it, and what is written for a concatenation is what is written for its operands. -/
theorem utf16_round_trip :
    (∀ units : List UInt16,
      ((∃ make, ofUtf16 units = .ok make) ↔ Utf16.Paired units) ∧
        (¬Utf16.Paired units → ofUtf16 units = .error (.invalidArgument .unpairedSurrogate)) ∧
        ∀ make, ofUtf16 units = .ok make → ∀ store, toUtf16 (make.run store).1 = units) ∧
      ∀ {store : Store} {made : List CodePoints}, Run (some inferInstance) store made →
        (∀ s ∈ made, ∃ make, ofUtf16 s.toUtf16 = .ok make ∧ MakesEqual make store s) ∧
        ∀ a ∈ made, ∀ b ∈ made,
          toUtf16 ((a.concat b).run store).1 = a.toUtf16 ++ b.toUtf16 := by
  constructor
  · intro units
    rw [ofUtf16_eq, exists_ofDecoded_iff, ← Utf16.exists_decode_iff]
    refine ⟨Iff.rfl, ofDecoded_eq_error _, ?_⟩
    intro make hm store
    obtain ⟨text, ht, rfl⟩ := ofDecoded_eq_ok hm
    exact (yields_written (fun _ => @toUtf16_eq none _) text store).trans
      (Utf16.encode_of_decode ht)
  · intro store made h
    constructor
    · intro s hs
      exact ⟨_, by rw [toUtf16_eq (h.wellFormed hs), ofUtf16_encode], h.makesEqual_ofList hs⟩
    · intro a ha b hb
      exact yields_written_concat (fun _ => toUtf16_eq) (h.wellFormed ha) (h.wellFormed hb) store

theorem utf16_round_trip_clefs :
    (∃ make, ofUtf16 [0xD834, 0xDD1E, 0xD834, 0xDD1E, 0x20AC, 0xE9, 0x61] = .ok make ∧
      MakesEqual make ⟨#[0, 0, 0, 0]⟩ clefs) ∧
      ofUtf16 [0xD834, 0x61] = .error (.invalidArgument .unpairedSurrogate) := by
  obtain ⟨hunits, hruns⟩ := utf16_round_trip
  obtain ⟨made, hrun⟩ := run_reversedLink 'a' 'é' '€' '𝄞'
  have hcut : ¬Utf16.Paired [0xD834, 0x61] := by
    rw [← Utf16.exists_decode_iff]
    exact nofun
  exact ⟨(hruns hrun).1 clefs (.head _), (hunits _).2.1 hcut⟩

end CodePoints

end SharedSequence
