import SharedSequence.Proofs.Slots
import SharedSequence.Proofs.WellFormed

namespace SharedSequence

namespace Sequence

variable {α : Type} [BEq α] {hashing : Option (ElementHash α)}

theorem WellFormed.length_toList {s : Sequence α} (h : s.WellFormed hashing) :
    s.toList.length = s.length := by
  induction s with
  | nil => rfl
  | run => simp [toList, length]
  | flat cell items start count =>
    have hc := (wellFormed_flat.mp h).2
    exact length_slots (by simpa using hc)
  | indexed => simp [toList, length]
  | window cell base start count ih =>
    obtain ⟨⟨-, -, -, hc⟩, hb⟩ := wellFormed_window.mp h
    exact length_slots (by rw [ih hb]; exact hc)
  | reversed cell base ih =>
    simp only [toList, List.length_reverse, length]
    exact ih (wellFormed_reversed.mp h).2
  | link cell left right bias count ihl ihr =>
    obtain ⟨⟨-, -, -, hc⟩, hl, hr⟩ := wellFormed_link.mp h
    simp only [toList, List.length_append, length, ihl hl, ihr hr, hc]

theorem WellFormed.get?_eq {s : Sequence α} (h : s.WellFormed hashing) (i : Nat) :
    s.get? i = s.toList[i]? := by
  fun_induction get? s i with
  | case1 => rfl
  | case2 cell value count i hi => simp [toList, hi]
  | case3 cell value count i hi => simp [toList, hi]
  | case4 cell items start count i hi =>
    exact ((getElem?_slots hi).trans Array.getElem?_toList).symm
  | case6 => exact Array.getElem?_toList.symm
  | case7 cell base start count i hi ih =>
    rw [ih (wellFormed_window.mp h).2]
    exact (getElem?_slots hi).symm
  | case9 cell base i hi ih =>
    have hb := (wellFormed_reversed.mp h).2
    rw [ih hb, toList, List.getElem?_reverse (by rw [hb.length_toList]; exact hi),
      hb.length_toList]
    congr 1
    omega
  | case11 cell left right bias count i _ hi ih =>
    obtain ⟨-, hl, -⟩ := wellFormed_link.mp h
    rw [ih hl, toList, List.getElem?_append_left (by rw [hl.length_toList]; exact hi)]
  | case12 cell left right bias count i _ hi ih =>
    obtain ⟨-, hl, hr⟩ := wellFormed_link.mp h
    rw [ih hr, toList, List.getElem?_append_right (by rw [hl.length_toList]; omega),
      hl.length_toList]
  | case5 | case8 | case10 | case13 =>
    exact (List.getElem?_eq_none (by rw [h.length_toList]; simp only [length]; omega)).symm

theorem WellFormed.exists_get? {s : Sequence α} (h : s.WellFormed hashing) {i : Nat}
    (hi : i < s.length) : ∃ x, s.get? i = some x := by
  rw [← h.length_toList] at hi
  exact ⟨_, (h.get?_eq i).trans (List.getElem?_eq_getElem hi)⟩

end Sequence

end SharedSequence
