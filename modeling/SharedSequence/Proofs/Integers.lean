import Mathlib.Algebra.BigOperators.Intervals
import Mathlib.Algebra.BigOperators.Ring.Finset
import Mathlib.Data.Nat.Digits.Defs
import Mathlib.Tactic.Ring
import SharedSequence.Proofs.Encodings

namespace SharedSequence

open Sequence

namespace Endian

/-- Lists bytes with the least significant one first, or lists them back in the order. -/
def orient : Endian → List UInt8 → List UInt8
  | .big, items => items.reverse
  | .little, items => items

/-- The power of the base that a position counts, of so many positions. -/
def exponent (length : Nat) : Endian → Nat → Nat
  | .big, i => length - 1 - i
  | .little, i => i

variable (endian : Endian) (items : List UInt8)

theorem length_orient : (endian.orient items).length = items.length := by
  cases endian with
  | big => exact List.length_reverse
  | little => rfl

theorem orient_orient : endian.orient (endian.orient items) = items := by
  cases endian with
  | big => exact List.reverse_reverse items
  | little => rfl

end Endian

namespace Bytes

/-- The number at a position, and zero past the end. -/
def digit (s : Bytes) (i : Nat) : Nat :=
  (s.get? i).elim 0 UInt8.toNat

/-- The sum of the bytes, each times the power of 256 that its position counts. -/
def positional (s : Bytes) (endian : Endian) : Nat :=
  ∑ i ∈ Finset.range s.length, s.digit i * 256 ^ endian.exponent s.length i

/-- The number of bytes that are listed with the least significant one first. -/
def number (items : List UInt8) : Nat :=
  Nat.ofDigits 256 (items.map UInt8.toNat)

def word (items : List UInt8) : UInt64 :=
  items.foldr (fun byte value => shiftIn value byte) 0

variable {items : List UInt8} {value : UInt64} {byte : UInt8} {length : Nat} {endian : Endian}
  {hashing : Option (ElementHash UInt8)} {s : Bytes}

theorem number_cons (byte : UInt8) (items : List UInt8) :
    number (byte :: items) = byte.toNat + 256 * number items :=
  Nat.ofDigits_cons

theorem toNat_lt_of_mem_map {n : Nat} (h : n ∈ items.map UInt8.toNat) : n < 256 := by
  obtain ⟨byte, -, rfl⟩ := List.mem_map.mp h
  exact byte.toNat_lt

theorem number_lt (items : List UInt8) : number items < 256 ^ items.length := by
  have h := Nat.ofDigits_lt_base_pow_length (by decide)
    fun n (hn : n ∈ items.map UInt8.toNat) => toNat_lt_of_mem_map hn
  rwa [List.length_map] at h

theorem number_injective {items' : List UInt8} (hl : items.length = items'.length)
    (h : number items = number items') : items = items' := by
  have hmap : items.map UInt8.toNat = items'.map UInt8.toNat :=
    Nat.ofDigits_inj_of_len_eq (by decide) (by rw [List.length_map, List.length_map, hl])
      (fun _ => toNat_lt_of_mem_map) (fun _ => toNat_lt_of_mem_map) h
  exact List.map_injective_iff.mpr (fun _ _ => UInt8.toNat_inj.mp) hmap

theorem number_eq_sum (items : List UInt8) :
    number items = ∑ i ∈ Finset.range items.length, items[i]?.elim 0 UInt8.toNat * 256 ^ i := by
  induction items with
  | nil => rfl
  | cons byte items ih =>
    rw [number_cons, ih, List.length_cons, Finset.sum_range_succ', Finset.mul_sum, Nat.add_comm]
    congr 1
    · apply Finset.sum_congr rfl
      intro i _
      rw [List.getElem?_cons_succ, Nat.pow_succ]
      ring
    · rw [List.getElem?_cons_zero, Nat.pow_zero, Nat.mul_one]
      rfl

/-- The positions of a sequence count for the places of its list, from the one end or the other. -/
theorem positional_eq (h : s.WellFormed hashing) (endian : Endian) :
    s.positional endian = number (endian.orient s.toList) := by
  rw [number_eq_sum, Endian.length_orient, h.length_toList]
  cases endian with
  | little =>
    apply Finset.sum_congr rfl
    intro i _
    rw [digit, h.get?_eq]
    rfl
  | big =>
    rw [positional, ← Finset.sum_range_reflect]
    apply Finset.sum_congr rfl
    intro i hi
    have hi : i < s.length := Finset.mem_range.mp hi
    have hl : i < s.toList.length := by rwa [h.length_toList]
    have he : s.length - 1 - (s.length - 1 - i) = i := by omega
    rw [digit, h.get?_eq, Endian.orient, List.getElem?_reverse hl, h.length_toList, Endian.exponent,
      he]

theorem toNat_shiftIn (h : value.toNat < 2 ^ 56) (byte : UInt8) :
    (shiftIn value byte).toNat = byte.toNat + 256 * value.toNat := by
  have hs : (value <<< 8).toNat = value.toNat <<< 8 := by
    rw [UInt64.toNat_shiftLeft]
    apply Nat.mod_eq_of_lt
    change value.toNat <<< 8 < 2 ^ 64
    rw [Nat.shiftLeft_eq]
    omega
  rw [shiftIn, UInt64.toNat_or, hs, UInt8.toNat_toUInt64,
    ← Nat.shiftLeft_add_eq_or_of_lt byte.toNat_lt, Nat.shiftLeft_eq]
  omega

theorem toNat_word (h : items.length ≤ 8) : (word items).toNat = number items := by
  induction items with
  | nil => rfl
  | cons byte items ih =>
    have hl : items.length ≤ 7 := Nat.le_of_succ_le_succ h
    have ih := ih (Nat.le_succ_of_le hl)
    have hlt : (word items).toNat < 2 ^ 56 := by
      rw [ih]
      exact (number_lt items).trans_le (Nat.pow_le_pow_right (by decide) hl)
    rw [number_cons, ← ih]
    exact toNat_shiftIn hlt byte

theorem length_lowBytes (value : UInt64) (count : Nat) : (lowBytes value count).length = count := by
  induction count generalizing value with
  | zero => rfl
  | succ count ih => rw [lowBytes, List.length_cons, ih]

theorem number_lowBytes (value : UInt64) (count : Nat) :
    number (lowBytes value count) = value.toNat % 256 ^ count := by
  induction count generalizing value with
  | zero => exact (Nat.mod_one _).symm
  | succ count ih =>
    have hshift : (value >>> 8).toNat = value.toNat / 256 := by
      rw [UInt64.toNat_shiftRight]
      exact Nat.shiftRight_eq_div_pow ..
    have hlow : value.toUInt8.toNat = value.toNat % 256 := UInt64.toNat_toUInt8 value
    rw [lowBytes, number_cons, ih, hshift, hlow, Nat.pow_succ', Nat.mod_mul]

theorem lowBytes_eq (h : value.toNat = number items) : lowBytes value items.length = items := by
  apply number_injective (length_lowBytes value items.length)
  rw [number_lowBytes, h, Nat.mod_eq_of_lt (number_lt items)]

theorem toInteger_eq_error (h : 8 < s.length) (endian : Endian) :
    s.toInteger endian = .error (.invalidArgument .integerTooLong) :=
  if_pos h

theorem toInteger_eq_ok (h : s.WellFormed hashing) (hl : s.length ≤ 8) (endian : Endian) :
    s.toInteger endian = .ok (word (endian.orient s.toList)) := by
  have hn := Nat.not_lt_of_le hl
  cases endian with
  | big => rw [toInteger, if_neg hn, h.fold_eq, Endian.orient, word, List.foldr_reverse]
  | little => rw [toInteger, if_neg hn, h.foldBack_eq, Endian.orient, word, List.foldl_reverse]

theorem toNat_word_orient (h : s.WellFormed hashing) (hl : s.length ≤ 8) (endian : Endian) :
    (word (endian.orient s.toList)).toNat = number (endian.orient s.toList) := by
  apply toNat_word
  rwa [Endian.length_orient, h.length_toList]

theorem toInteger_reverse (h : s.WellFormed hashing) :
    Yields s.reverse fun t => toInteger s .little = toInteger t .big := by
  refine (h.reverse.and h.toList_reverse).mono ?_
  rintro t ⟨ht, he⟩
  have hl : t.length = s.length := by
    rw [← ht.length_toList, he, List.length_reverse, h.length_toList]
  obtain hlong | hshort := Nat.lt_or_ge 8 s.length
  · rw [toInteger_eq_error hlong, toInteger_eq_error (hl ▸ hlong)]
  · rw [toInteger_eq_ok h hshort, toInteger_eq_ok ht (hl ▸ hshort), he, Endian.orient,
      Endian.orient, List.reverse_reverse]

theorem ofInteger_eq_error (h : 8 < length) (value : UInt64) (endian : Endian) :
    ofInteger value length endian = .error (.invalidArgument .integerTooLong) :=
  if_pos h

theorem ofInteger_eq_ok (h : length ≤ 8) (value : UInt64) (endian : Endian) :
    ofInteger value length endian = .ok (ofList (endian.orient (lowBytes value length))) := by
  have hn := Nat.not_lt_of_le h
  cases endian with
  | big => rw [ofInteger, if_neg hn, Endian.orient]
  | little => rw [ofInteger, if_neg hn, Endian.orient]

theorem yields_ofInteger (h : length ≤ 8) (value : UInt64) (endian : Endian) :
    Yields (ofList (endian.orient (lowBytes value length))) fun s =>
      s.length = length ∧ ∃ w, toInteger s endian = .ok w ∧
        w.toNat = value.toNat % 2 ^ (8 * length) := by
  have hm : Yields (ofList (endian.orient (lowBytes value length))) fun s =>
      s.WellFormed none ∧ s.toList = endian.orient (lowBytes value length) :=
    yields_of_makes fun _ => makes_ofList _
  refine hm.mono ?_
  rintro s ⟨hs, he⟩
  have hl : s.length = length := by
    rw [← hs.length_toList, he, Endian.length_orient, length_lowBytes]
  have hs8 : s.length ≤ 8 := hl ▸ h
  refine ⟨hl, _, toInteger_eq_ok hs hs8 endian, ?_⟩
  rw [toNat_word_orient hs hs8, he, Endian.orient_orient, number_lowBytes, Nat.pow_mul]

theorem ofInteger_toInteger (h : s.WellFormed hashing) (hl : s.length ≤ 8) (endian : Endian) :
    ofInteger (word (endian.orient s.toList)) s.length endian = .ok (ofList s.toList) := by
  have hbytes : lowBytes (word (endian.orient s.toList)) s.length = endian.orient s.toList := by
    rw [← h.length_toList, ← Endian.length_orient endian]
    exact lowBytes_eq (toNat_word_orient h hl endian)
  rw [ofInteger_eq_ok hl, hbytes, Endian.orient_orient]

/-- A reachable sequence has an integer exactly if it has at most eight bytes, and then that is the
sum of its positions in the order; read from the other end, it is the integer of the reversal. A
word has at most eight bytes, and the integer of as many as asked for is its remainder. In a run,
the bytes of the integer of a sequence make a sequence equal to it. -/
theorem integer_positional :
    (∀ {hashing : Option (ElementHash UInt8)} {s : Bytes}, Reachable hashing s →
      (∀ endian,
        (8 < s.length → s.toInteger endian = .error (.invalidArgument .integerTooLong)) ∧
          (s.length ≤ 8 →
            ∃ w, s.toInteger endian = .ok w ∧ w.toNat = s.positional endian)) ∧
        Yields s.reverse fun t => toInteger s .little = toInteger t .big) ∧
      (∀ (value : UInt64) (length : Nat) (endian : Endian),
        (8 < length →
          ofInteger value length endian = .error (.invalidArgument .integerTooLong)) ∧
          (length ≤ 8 → ∃ make, ofInteger value length endian = .ok make ∧
            Yields make fun s => s.length = length ∧
              ∃ w, toInteger s endian = .ok w ∧ w.toNat = value.toNat % 2 ^ (8 * length))) ∧
      ∀ {store : Store} {made : List Bytes}, Run (some inferInstance) store made →
        ∀ s ∈ made, s.length ≤ 8 → ∀ endian,
          ∃ w make, s.toInteger endian = .ok w ∧ ofInteger w s.length endian = .ok make ∧
            MakesEqual make store s := by
  refine ⟨?_, ?_, ?_⟩
  · intro hashing s hr
    have h := hr.wellFormed
    refine ⟨fun endian => ⟨fun hl => toInteger_eq_error hl endian, fun hl => ?_⟩,
      toInteger_reverse h⟩
    refine ⟨_, toInteger_eq_ok h hl endian, ?_⟩
    rw [toNat_word_orient h hl, positional_eq h]
  · intro value length endian
    exact ⟨fun hl => ofInteger_eq_error hl value endian,
      fun hl => ⟨_, ofInteger_eq_ok hl value endian, yields_ofInteger hl value endian⟩⟩
  · intro store made hr s hs hl endian
    have h := hr.wellFormed hs
    exact ⟨_, _, toInteger_eq_ok h hl endian, ofInteger_toInteger h hl endian,
      hr.makesEqual_ofList hs⟩

/-- A link below a reversal in both orders, a word without a zero bit, one byte too many, and the
low bytes of a word, of which the upper one is zero. -/
theorem integer_positional_beads :
    (∃ w, toInteger (reversedLink 0xCA 0xDE 0xAD 0x0B) .big = .ok w ∧ w.toNat = 0x0B0BADDECA) ∧
      (∃ w make, toInteger (reversedLink 0xCA 0xDE 0xAD 0x0B) .little = .ok w ∧
        ofInteger w 5 .little = .ok make ∧
        MakesEqual make ⟨#[0, 0, 0, 0]⟩ (reversedLink 0xCA 0xDE 0xAD 0x0B)) ∧
      (∃ w, toInteger (.run 0 0xFF 8) .little = .ok w ∧ w.toNat = 0xFFFFFFFFFFFFFFFF) ∧
      toInteger (.run 0 0 9) .big = .error (.invalidArgument .integerTooLong) ∧
      ofInteger 0 9 .little = .error (.invalidArgument .integerTooLong) ∧
      ∃ make, ofInteger 0xFF00ABCD 3 .big = .ok make ∧ Yields make fun s => s.length = 3 ∧
        ∃ w, toInteger s .big = .ok w ∧ w.toNat = 0xABCD := by
  obtain ⟨hread, hwrite, hruns⟩ := integer_positional
  obtain ⟨made, hrun⟩ := run_reversedLink (0xCA : UInt8) 0xDE 0xAD 0x0B
  have hlink : Reachable (some inferInstance) (reversedLink (0xCA : UInt8) 0xDE 0xAD 0x0B) :=
    ⟨_, _, hrun, .head _⟩
  have hones : Reachable none (.run 0 (0xFF : UInt8) 8) :=
    ⟨_, _, Run.start.step (.replicate 8 0xFF) rfl, .head _⟩
  have hzeros : Reachable none (.run 0 (0 : UInt8) 9) :=
    ⟨_, _, Run.start.step (.replicate 9 0) rfl, .head _⟩
  exact ⟨((hread hlink).1 .big).2 (by decide), hruns hrun _ (.head _) (by decide) .little,
    ((hread hones).1 .little).2 (by decide), ((hread hzeros).1 .big).1 (by decide),
    (hwrite 0 9 .little).1 (by decide), (hwrite 0xFF00ABCD 3 .big).2 (by decide)⟩

end Bytes

end SharedSequence
