namespace SharedSequence

variable {α : Type}

/-- The elements of a list at `length` places from `offset` on. -/
def slots (items : List α) (offset length : Nat) : List α :=
  (items.drop offset).take length

theorem length_slots {items : List α} {offset length : Nat} (h : offset + length ≤ items.length) :
    (slots items offset length).length = length := by
  rw [slots, List.length_take, List.length_drop]
  omega

theorem slots_all (items : List α) : slots items 0 items.length = items := by
  rw [slots, List.drop_zero, List.take_length]

theorem slots_succ {items : List α} {offset : Nat} (length : Nat) (h : offset < items.length) :
    slots items offset (length + 1) = items[offset] :: slots items (offset + 1) length := by
  rw [slots, slots, List.drop_eq_getElem_cons h, List.take_succ_cons]

theorem slots_slots {items : List α} {start count offset length : Nat}
    (h : offset + length ≤ count) :
    slots (slots items start count) offset length = slots items (start + offset) length := by
  rw [slots, slots, slots, List.drop_take, List.take_take, List.drop_drop,
    Nat.min_eq_left (by omega)]

theorem slots_reverse {items : List α} {offset length : Nat}
    (h : offset + length ≤ items.length) :
    slots items.reverse offset length =
      (slots items (items.length - offset - length) length).reverse := by
  rw [slots, slots, List.drop_reverse, List.take_reverse, List.reverse_inj, List.drop_take,
    List.length_take]
  congr 2 <;> omega

theorem slots_append_right {low high : List α} {offset length : Nat} (h : low.length ≤ offset) :
    slots (low ++ high) offset length = slots high (offset - low.length) length := by
  rw [slots, slots, List.drop_append, List.drop_eq_nil_of_le h, List.nil_append]

theorem slots_append_left {low high : List α} {offset length : Nat}
    (h : offset + length ≤ low.length) :
    slots (low ++ high) offset length = slots low offset length := by
  rw [slots, slots, List.drop_append_of_le_length (by omega), List.take_append_of_le_length]
  rw [List.length_drop]
  omega

theorem slots_append_across {low high : List α} {offset length : Nat} (ho : offset ≤ low.length)
    (hl : low.length ≤ offset + length) :
    slots (low ++ high) offset length =
      slots low offset (low.length - offset) ++ slots high 0 (offset + length - low.length) := by
  rw [slots, List.drop_append_of_le_length ho, List.take_append, List.length_drop]
  congr 1
  · rw [slots, List.take_of_length_le (by rw [List.length_drop]; omega),
      List.take_of_length_le (Nat.le_of_eq List.length_drop)]
  · rw [slots, List.drop_zero]
    congr 1
    omega

theorem getElem?_slots {items : List α} {offset length i : Nat} (h : i < length) :
    (slots items offset length)[i]? = items[offset + i]? := by
  rw [slots, List.getElem?_take_of_lt h, List.getElem?_drop]

variable {items : List α} {x : α} {offset length i : Nat}

theorem slots_set_after (h : offset + length ≤ i) :
    slots (items.set i x) offset length = slots items offset length := by
  rw [slots, slots, List.take_drop, List.take_drop, List.take_set_of_le h]

theorem slots_set_before (h : i < offset) :
    slots (items.set i x) offset length = slots items offset length := by
  rw [slots, slots, List.drop_set_of_lt h]

theorem slots_set_end (h : offset + length < items.length) :
    slots (items.set (offset + length) x) offset (length + 1) =
      slots items offset length ++ [x] := by
  have hd : length < ((items.set (offset + length) x).drop offset).length := by
    rw [List.length_drop, List.length_set]
    omega
  rw [slots, List.take_succ_eq_append_getElem hd, ← slots, slots_set_after (Nat.le_refl _)]
  simp

end SharedSequence
