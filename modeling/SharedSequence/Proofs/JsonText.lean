import Mathlib.Data.List.Basic
import SharedSequence.Json.Format
import SharedSequence.Json.Parser
import SharedSequence.Json.Printer

namespace SharedSequence.Json

theorem hexValue?_hexDigit : ∀ n : Fin 16, hexValue? (hexDigit n) = some n.val := by
  decide

theorem readUnit_control : ∀ n : Fin 32, ∀ rest,
    readUnit ('0' :: '0' :: hexDigit (n / 16) :: hexDigit (n % 16) :: rest) =
      some (n.val, rest) := by
  intro n rest
  have hhigh := hexValue?_hexDigit ⟨n / 16, by omega⟩
  have hlow := hexValue?_hexDigit ⟨n % 16, by omega⟩
  have hzero : hexValue? '0' = some 0 := by decide
  simp only [readUnit, hhigh, hlow, hzero, Option.bind_eq_bind, Option.bind_some]
  simp
  omega

theorem readNumbered_control {c : Char} (h : c < ' ') (rest : List Char) :
    readNumbered ('0' :: '0' :: hexDigit (c.toNat / 16) :: hexDigit (c.toNat % 16) :: rest) =
      some (c, rest) := by
  have hn : c.toNat < 32 := h
  have hu := readUnit_control ⟨c.toNat, hn⟩ rest
  dsimp only at hu
  rw [readNumbered, hu]
  dsimp only [Option.bind_eq_bind, Option.bind_some]
  rw [if_neg (by omega), if_neg (by omega), Char.ofNat_toNat]
  rfl

theorem readChars_backslash (fuel : Nat) (text : List Char) :
    readChars (fuel + 1) ('\\' :: text) = (readEscape text).bind fun escaped =>
      (readChars fuel escaped.2).map fun result => (escaped.1 :: result.1, result.2) := by
  rw [readChars]
  cases readEscape text with
  | none => rfl
  | some escaped =>
    dsimp only [Option.bind_eq_bind, Option.bind_some]
    cases readChars fuel escaped.2 with
    | none => rfl
    | some result => rfl

theorem readChars_plain {c : Char} (hq : c ≠ '"') (hb : c ≠ '\\') (hc : ¬c < ' ') (fuel : Nat)
    (text : List Char) : readChars (fuel + 1) (c :: text) =
      (readChars fuel text).map fun result => (c :: result.1, result.2) := by
  rw [readChars]
  · rw [if_neg hc]
    cases readChars fuel text with
    | none => rfl
    | some result => rfl
  · exact hq
  · exact hb

theorem readChars_escape (c : Char) (fuel : Nat) (rest : List Char) :
    readChars (fuel + 1) (escape c ++ rest) =
      (readChars fuel rest).map fun result => (c :: result.1, result.2) := by
  unfold escape
  split
  iterate 7 exact readChars_backslash fuel _
  rename_i hq hb _ _ _ _ _
  split
  · rename_i hc
    have he : readEscape ('u' :: '0' :: '0' :: hexDigit (c.toNat / 16) ::
        hexDigit (c.toNat % 16) :: rest) = some (c, rest) := readNumbered_control hc rest
    have hr := readChars_backslash fuel ('u' :: '0' :: '0' :: hexDigit (c.toNat / 16) ::
      hexDigit (c.toNat % 16) :: rest)
    rw [he] at hr
    exact hr
  · rename_i hc
    exact readChars_plain hq hb hc fuel rest

theorem readChars_escaped {chars : List Char} {fuel : Nat} (h : chars.length < fuel)
    (rest : List Char) :
    readChars fuel (chars.flatMap escape ++ '"' :: rest) = some (chars, rest) := by
  induction chars generalizing fuel with
  | nil =>
    obtain ⟨fuel, rfl⟩ := Nat.exists_eq_add_one.mpr h
    rfl
  | cons c chars ih =>
    obtain ⟨fuel, rfl⟩ := Nat.exists_eq_add_one.mpr (Nat.zero_lt_of_lt h)
    rw [List.flatMap_cons, List.append_assoc, readChars_escape, ih (Nat.lt_of_succ_lt_succ h)]
    rfl

/-- The text goes on with no part of a number. -/
def Stops (rest : List Char) : Prop :=
  ∀ c ∈ rest.head?, c.isDigit = false ∧ c ≠ '.' ∧ c ≠ 'e' ∧ c ≠ 'E'

theorem stops_cons {c : Char} (h : c.isDigit = false ∧ c ≠ '.' ∧ c ≠ 'e' ∧ c ≠ 'E')
    (rest : List Char) : Stops (c :: rest) := by
  rintro d ⟨⟩
  exact h

theorem ofDigits_toDigits (n : Nat) : ofDigits (Nat.toDigits 10 n) = n := by
  have h := Nat.ofDigitChars_ten_toDigits (n := n)
  rw [Nat.ofDigitChars_eq_foldl] at h
  simp only [Nat.mul_comm 10] at h
  exact h

theorem exists_digit_cons (n : Nat) :
    ∃ c digits, Nat.toDigits 10 n = c :: digits ∧ c.isDigit = true := by
  obtain ⟨c, digits, hd⟩ := List.exists_cons_of_ne_nil (Nat.toDigits_ne_nil (n := n) (b := 10))
  have hc : c ∈ Nat.toDigits 10 n := hd ▸ List.mem_cons_self
  exact ⟨c, digits, hd, Nat.isDigit_of_mem_toDigits (by decide) (by decide) hc⟩

theorem head_toDigits {n : Nat} (h : 0 < n) : (Nat.toDigits 10 n).head? ≠ some '0' := by
  induction n using Nat.strongRecOn with
  | ind n ih =>
    by_cases hn : n < 10
    · rw [Nat.toDigits_of_lt_base hn]
      simp
      omega
    · have hd : n / 10 < n := by omega
      have hl : (Nat.toDigits 10 (n / 10)) ≠ [] := Nat.toDigits_ne_nil
      rw [Nat.toDigits_of_base_le (by decide) (by omega), List.head?_append_of_ne_nil _ hl]
      exact ih _ hd (by omega)

theorem takeWhile_digits {digits rest : List Char} (hd : ∀ c ∈ digits, c.isDigit = true)
    (hr : ∀ c ∈ rest.head?, c.isDigit = false) :
    (digits ++ rest).takeWhile Char.isDigit = digits ∧
      (digits ++ rest).dropWhile Char.isDigit = rest := by
  rw [List.takeWhile_append_of_pos hd, List.dropWhile_append_of_pos hd]
  cases rest with
  | nil => simp
  | cons c rest =>
    have hc := hr c rfl
    simp [hc]

theorem readWhole_toDigits (n : Nat) {rest : List Char} (h : Stops rest) :
    readWhole (Nat.toDigits 10 n ++ rest) = some (Nat.toDigits 10 n, rest) := by
  have hd : ∀ c ∈ Nat.toDigits 10 n, c.isDigit = true :=
    fun c hc => Nat.isDigit_of_mem_toDigits (by decide) (by decide) hc
  obtain ⟨ht, hr⟩ := takeWhile_digits hd fun c hc => (h c hc).1
  have hr : readDigits (Nat.toDigits 10 n ++ rest) = some (Nat.toDigits 10 n, rest) := by
    rw [readDigits, ht, hr]
    split
    · rename_i hn
      exact absurd hn Nat.toDigits_ne_nil
    · rfl
  rw [readWhole, hr]
  dsimp only [Option.bind_eq_bind, Option.bind_some]
  split
  · rename_i hz
    by_cases hn : n = 0
    · rw [hn] at hz
      cases hz
    · exact absurd (congrArg List.head? hz) (head_toDigits (Nat.pos_of_ne_zero hn))
  · rfl

theorem readFraction_stops {rest : List Char} (h : Stops rest) :
    readFraction rest = some ([], rest) := by
  unfold readFraction
  split
  · rename_i rest
    exact absurd rfl (h '.' rfl).2.1
  · rfl

theorem readExponent_stops {rest : List Char} (h : Stops rest) :
    readExponent rest = some (none, rest) := by
  unfold readExponent
  split
  · rename_i mark rest
    obtain ⟨-, -, he, hE⟩ := h mark rfl
    rw [if_neg (by simp [he, hE])]
  · rfl

theorem readMagnitude_toDigits (negative : Bool) (n : Nat) {rest : List Char} (h : Stops rest) :
    readMagnitude negative (Nat.toDigits 10 n ++ rest) =
      (ofWhole? negative (Nat.toDigits 10 n)).map fun json => (json, rest) := by
  rw [readMagnitude, readWhole_toDigits n h]
  dsimp only [Option.bind_eq_bind, Option.bind_some]
  rw [readFraction_stops h]
  dsimp only [Option.bind_some]
  rw [readExponent_stops h]
  dsimp only [Option.bind_some]
  cases ofWhole? negative (Nat.toDigits 10 n) with
  | none => rfl
  | some json => rfl

theorem readNumber_digits (n : Nat) (rest : List Char) :
    readNumber (Nat.toDigits 10 n ++ rest) = readMagnitude false (Nat.toDigits 10 n ++ rest) := by
  obtain ⟨c, digits, hd, hc⟩ := exists_digit_cons n
  rw [hd, List.cons_append, readNumber]
  rintro rest' he
  obtain ⟨rfl, -⟩ := List.cons.inj he
  exact absurd hc (by decide)

theorem readNumber_integer {value : Int}
    (hv : -0x8000000000000000 ≤ value ∧ value < 0x10000000000000000) {rest : List Char}
    (h : Stops rest) :
    readNumber ((toString value).toList ++ rest) = some (integer value, rest) := by
  obtain ⟨hlo, hhi⟩ := hv
  rw [Int.toString_eq_repr, Int.repr_eq_if]
  split
  · rename_i hn
    have hm : value.toNat < 0x10000000000000000 := by omega
    rw [Nat.toList_repr, readNumber_digits, readMagnitude_toDigits _ _ h, ofWhole?]
    simp only [Bool.false_eq_true, if_false, ofDigits_toDigits, if_pos hm]
    rw [Int.toNat_of_nonneg hn]
    rfl
  · rename_i hn
    have hm : 0 < (-value).toNat ∧ (-value).toNat ≤ 0x8000000000000000 := by omega
    have ht : ("-" ++ (-value).toNat.repr).toList ++ rest =
        '-' :: (Nat.toDigits 10 (-value).toNat ++ rest) := by
      rw [String.toList_append, Nat.toList_repr]
      rfl
    rw [ht, readNumber, readMagnitude_toDigits _ _ h, ofWhole?]
    simp only [if_true, ofDigits_toDigits, if_pos hm]
    rw [Int.toNat_of_nonneg (by omega), Int.neg_neg]
    rfl

/-- The text is read as the value by a parser that goes so deep, with fuel for each character. -/
def ReadsBack (depth : Nat) (json : Json) : Prop :=
  ∀ (fuel : Nat) (rest : List Char), (print json).length ≤ fuel → Stops rest →
    readValue depth fuel (print json ++ rest) = some (json, rest)

/-- The text starts with a character that is neither a space nor a closing bracket. -/
def Opens (text : List Char) : Prop :=
  ∃ c rest, text = c :: rest ∧ isSpace c = false ∧ c ≠ ']'

theorem skipSpace_cons {c : Char} (h : isSpace c = false) (rest : List Char) :
    skipSpace (c :: rest) = c :: rest := by
  rw [skipSpace, List.dropWhile_cons_of_neg (by rw [h]; exact Bool.false_ne_true)]

theorem skipSpace_of_opens {text : List Char} (h : Opens text) : skipSpace text = text := by
  obtain ⟨c, rest, rfl, hc, -⟩ := h
  exact skipSpace_cons hc rest

theorem Opens.append {text : List Char} (h : Opens text) (rest : List Char) :
    Opens (text ++ rest) := by
  obtain ⟨c, tail, rfl, hc⟩ := h
  exact ⟨c, tail ++ rest, rfl, hc⟩

theorem integer_head (value : Int) :
    ∃ c rest, (toString value).toList = c :: rest ∧ (c.isDigit = true ∨ c = '-') := by
  rw [Int.toString_eq_repr, Int.repr_eq_if]
  split
  · rw [Nat.toList_repr]
    obtain ⟨c, digits, hd, hc⟩ := exists_digit_cons value.toNat
    exact ⟨c, digits, hd, .inl hc⟩
  · rw [String.toList_append]
    exact ⟨'-', _, rfl, .inr rfl⟩

theorem ne_of_number {c d : Char} (h : c.isDigit = true ∨ c = '-')
    (hd : d.isDigit = false ∧ d ≠ '-') : c ≠ d := by
  rintro rfl
  rcases h with h | h
  · rw [hd.1] at h
    cases h
  · exact hd.2 h

theorem not_space_of_number {c : Char} (h : c.isDigit = true ∨ c = '-') :
    isSpace c = false ∧ c ≠ ']' := by
  refine ⟨?_, ne_of_number h (by decide)⟩
  simp only [isSpace, Bool.or_eq_false_iff, beq_eq_false_iff_ne]
  exact ⟨⟨⟨ne_of_number h (by decide), ne_of_number h (by decide)⟩,
    ne_of_number h (by decide)⟩, ne_of_number h (by decide)⟩

theorem Scalar.opens {json : Json} (h : Scalar json) : Opens (print json) := by
  cases h with
  | null => exact ⟨'n', _, print_null, by decide, by decide⟩
  | bool value =>
    cases value with
    | false => exact ⟨'f', _, print_bool false, by decide, by decide⟩
    | true => exact ⟨'t', _, print_bool true, by decide, by decide⟩
  | @integer value _ =>
    obtain ⟨c, rest, he, hc⟩ := integer_head value
    rw [print_integer]
    exact ⟨c, rest, he, not_space_of_number hc⟩
  | string text =>
    rw [print_string]
    exact ⟨'"', _, rfl, by decide, by decide⟩

theorem Nests.opens {depth : Nat} {json : Json} (h : Nests depth json) : Opens (print json) := by
  cases h with
  | scalar h => exact h.opens
  | array =>
    rw [print_array]
    exact ⟨'[', _, rfl, by decide, by decide⟩

variable {depth : Nat}

theorem readValue_number {c : Char} (h : c.isDigit = true ∨ c = '-') (fuel : Nat)
    (rest : List Char) : readValue depth (fuel + 1) (c :: rest) = readNumber (c :: rest) := by
  have hs : skipSpace (c :: rest) = c :: rest :=
    skipSpace_of_opens ⟨c, rest, rfl, not_space_of_number h⟩
  rw [readValue, hs]
  split
  iterate 6
    rename_i he
    exact absurd (List.cons.inj he).1 (ne_of_number h (by decide))
  rfl

theorem readsBack_integer {value : Int}
    (h : -0x8000000000000000 ≤ value ∧ value < 0x10000000000000000) :
    ReadsBack depth (integer value) := by
  intro fuel rest hf hr
  obtain ⟨c, tail, he, hc⟩ := integer_head value
  have hn := readNumber_integer h hr
  rw [print_integer, he] at hf ⊢
  rw [he] at hn
  obtain ⟨fuel, rfl⟩ := Nat.exists_eq_add_one.mpr (Nat.zero_lt_of_lt hf)
  exact (readValue_number hc fuel _).trans hn

theorem escape_length_pos (c : Char) : 0 < (escape c).length := by
  unfold escape
  split
  iterate 7 exact Nat.succ_pos _
  split
  · exact Nat.succ_pos _
  · exact Nat.succ_pos _

theorem length_le_flatMap_escape (chars : List Char) :
    chars.length ≤ (chars.flatMap escape).length := by
  induction chars with
  | nil => exact Nat.le_refl 0
  | cons c chars ih =>
    have hc := escape_length_pos c
    rw [List.flatMap_cons, List.length_append, List.length_cons]
    omega

theorem readValue_quote (fuel : Nat) (text : List Char) :
    readValue depth (fuel + 1) ('"' :: text) =
      (readString fuel text).map fun result => (string result.1, result.2) :=
  rfl

theorem readsBack_string (text : String) : ReadsBack depth (string text) := by
  intro fuel rest hf hr
  have hl := length_le_flatMap_escape text.toList
  have ht : print (string text) ++ rest =
      '"' :: (text.toList.flatMap escape ++ '"' :: rest) := by
    rw [print_string, quote, List.append_assoc, List.cons_append, List.singleton_append]
  have hlen : (print (string text)).length = (text.toList.flatMap escape).length + 2 := by
    rw [print_string, quote, List.length_append, List.length_cons, List.length_singleton]
  obtain ⟨fuel, rfl⟩ := Nat.exists_eq_add_of_le' (by omega : 1 ≤ fuel)
  have hc := readChars_escaped (show text.toList.length < fuel by omega) rest
  rw [ht, readValue_quote, readString, hc]
  dsimp only [Option.bind_eq_bind, Option.bind_some]
  rw [String.ofList_toList]
  rfl

/-- The text of an item, up to the comma or the bracket behind it. -/
theorem readItems_print {items : List Json} (hne : items ≠ [])
    (h : ∀ item ∈ items, ReadsBack depth item) {fuel : Nat} (hf : (printItems items).length ≤ fuel)
    (rest : List Char) :
    readItems depth fuel (printItems items ++ rest) = some (items, rest) := by
  induction items generalizing fuel with
  | nil => exact absurd rfl hne
  | cons item items ih =>
    obtain ⟨hi, his⟩ := List.forall_mem_cons.mp h
    cases items with
    | nil =>
      rw [printItems, List.length_append, List.length_singleton] at hf
      obtain ⟨fuel, rfl⟩ := Nat.exists_eq_add_of_le' (by omega : 1 ≤ fuel)
      have hs : Stops (']' :: rest) := stops_cons (by decide) rest
      rw [printItems, List.append_assoc, List.singleton_append, readItems,
        hi fuel (']' :: rest) (by omega) hs]
      dsimp only [Option.bind_eq_bind, Option.bind_some]
      rw [skipSpace_cons (by decide)]
      rfl
    | cons next items =>
      rw [printItems, List.length_append, List.length_cons] at hf
      · obtain ⟨fuel, rfl⟩ := Nat.exists_eq_add_of_le' (by omega : 1 ≤ fuel)
        have hs : Stops (',' :: (printItems (next :: items) ++ rest)) :=
          stops_cons (by decide) _
        have hn : readItems depth fuel (printItems (next :: items) ++ rest) =
            some (next :: items, rest) :=
          ih (List.cons_ne_nil _ _) his (by omega)
        rw [printItems, List.append_assoc, List.cons_append, readItems,
          hi fuel _ (by omega) hs]
        · dsimp only [Option.bind_eq_bind, Option.bind_some]
          rw [skipSpace_cons (by decide)]
          change (readItems depth fuel (printItems (next :: items) ++ rest)).bind _ = _
          rw [hn]
          rfl
        · nofun
      · nofun

theorem readValue_bracket {text : List Char} (h : Opens text) (fuel : Nat) :
    readValue (depth + 1) (fuel + 1) ('[' :: text) =
      (readItems depth fuel text).map fun result => (array result.1, result.2) := by
  have hs := skipSpace_of_opens h
  obtain ⟨c, tail, rfl, -, hc⟩ := h
  rw [readValue, skipSpace_cons (by decide)]
  simp only [hs]
  split
  · rename_i he
    exact absurd (List.cons.inj he).1 hc
  · rfl

theorem readsBack_array {items : List Json}
    (h : ∀ item ∈ items, Nests depth item ∧ ReadsBack depth item) :
    ReadsBack (depth + 1) (array items) := by
  intro fuel rest hf _
  rw [print_array, List.length_cons] at hf
  obtain ⟨fuel, rfl⟩ := Nat.exists_eq_add_of_le' (by omega : 1 ≤ fuel)
  rw [print_array, List.cons_append]
  cases items with
  | nil =>
    rw [printItems, List.singleton_append]
    rfl
  | cons item items =>
    have ho : Opens (printItems (item :: items) ++ rest) := by
      have hi := (h item List.mem_cons_self).1.opens
      apply Opens.append
      cases items with
      | nil =>
        rw [printItems]
        exact hi.append _
      | cons =>
        rw [printItems]
        · exact hi.append _
        · nofun
    have hi := readItems_print (List.cons_ne_nil item items) (fun item hm => (h item hm).2)
      (Nat.le_of_succ_le_succ hf) rest
    rw [readValue_bracket ho, hi]
    rfl

theorem Scalar.readsBack {json : Json} (h : Scalar json) : ReadsBack depth json := by
  cases h with
  | null =>
    intro fuel rest hf _
    rw [print_null] at hf ⊢
    obtain ⟨fuel, rfl⟩ := Nat.exists_eq_add_one.mpr (Nat.zero_lt_of_lt hf)
    rfl
  | bool value =>
    intro fuel rest hf _
    rw [print_bool] at hf ⊢
    cases value with
    | false =>
      obtain ⟨fuel, rfl⟩ := Nat.exists_eq_add_one.mpr (Nat.zero_lt_of_lt hf)
      rfl
    | true =>
      obtain ⟨fuel, rfl⟩ := Nat.exists_eq_add_one.mpr (Nat.zero_lt_of_lt hf)
      rfl
  | integer h => exact readsBack_integer h
  | string text => exact readsBack_string text

/-- Values are read back in front of anything that does not go on with a number. -/
theorem Nests.readsBack {json : Json} (h : Nests depth json) : ReadsBack depth json := by
  induction h with
  | scalar h => exact h.readsBack
  | array h ih => exact readsBack_array fun item hi => ⟨h item hi, ih item hi⟩

theorem Nests.parse_render {json : Json} (h : Nests deepest json) :
    parse (render json) = some json := by
  have hr := h.readsBack (2 * (print json).length + 2) [] (by omega) nofun
  rw [List.append_nil] at hr
  rw [parse, render, String.toList_ofList, hr]
  rfl

theorem printItems_eq (items : List Json) :
    printItems items = [','].intercalate (items.map print) ++ [']'] := by
  induction items with
  | nil => rfl
  | cons item items ih =>
    cases items with
    | nil => rw [printItems, List.map_singleton, List.intercalate_singleton]
    | cons next items =>
      rw [printItems, ih]
      · simp only [List.map_cons, List.intercalate_cons_cons, List.append_assoc,
          List.cons_append, List.nil_append]
      · nofun

theorem render_array (items : List Json) :
    render (array items) = "[" ++ ",".intercalate (items.map render) ++ "]" := by
  apply String.toList_inj.mp
  have hm : (items.map render).map String.toList = items.map print := by
    rw [List.map_map]
    exact List.map_congr_left fun item _ => String.toList_ofList
  rw [String.toList_append, String.toList_append, String.toList_intercalate, hm, render,
    String.toList_ofList, print_array, printItems_eq]
  rfl

/-- Text without spaces. -/
def compact : JsonFormat where
  print := render
  parse := parse

/-- Scalars and arrays up to the greatest depth are read back. -/
theorem compact_faithful {depth : Nat} (h : depth ≤ deepest) : compact.Faithful depth where
  parse_scalar hs := Nests.parse_render (.scalar hs)
  print_array := render_array
  parse_array {items} hn _ := by
    change parse ("[" ++ ",".intercalate (items.map render) ++ "]") = some (array items)
    rw [← render_array]
    exact (hn.mono h).parse_render

end SharedSequence.Json
