import SharedSequence.Proofs.Elements
import SharedSequence.Sequence.Traversal

namespace SharedSequence

variable {α σ : Type}

namespace Collector

variable {push : Collector σ α}

theorem pushList_append (low high : List α) (state : σ) :
    pushList push (low ++ high) state =
      andThen (pushList push low state) (pushList push high) := by
  induction low generalizing state with
  | nil => rfl
  | cons value low ih =>
    simp only [List.cons_append, pushList]
    cases push state value with
    | done => rfl
    | yield state => exact ih state

theorem pushRun_eq (value : α) (count : Nat) (state : σ) :
    pushRun push value count state = pushList push (List.replicate count value) state := by
  induction count generalizing state with
  | zero => rfl
  | succ count ih =>
    simp only [pushRun, List.replicate_succ, pushList]
    cases push state value with
    | done => rfl
    | yield state => exact ih state

theorem pushUp_eq {items : Array α} {start count : Nat} (h : start + count ≤ items.size)
    (state : σ) : pushUp push items start count state =
      pushList push (slots items.toList start count) state := by
  induction count generalizing start state with
  | zero => simp [pushUp, slots, pushList]
  | succ count ih =>
    have hs : start < items.size := by omega
    have hs' : start < items.toList.length := hs
    simp only [pushUp, Array.getElem?_eq_getElem hs, slots_succ count hs', pushList,
      Array.getElem_toList]
    cases push state items[start] with
    | done => rfl
    | yield state => exact ih (by omega) state

theorem pushDown_eq {items : Array α} {start count : Nat} (h : start + count ≤ items.size)
    (state : σ) : pushDown push items start count state =
      pushList push (slots items.toList start count).reverse state := by
  induction count generalizing state with
  | zero => simp [pushDown, slots, pushList]
  | succ count ih =>
    have hs : start + count < items.size := by omega
    have he : slots items.toList start (count + 1) =
        slots items.toList start count ++ [items[start + count]] := by
      rw [slots, slots, List.take_succ_eq_append_getElem (by simp; omega), List.getElem_drop,
        Array.getElem_toList]
    simp only [pushDown, Array.getElem?_eq_getElem hs, he, List.reverse_append,
      List.reverse_singleton, List.singleton_append, pushList]
    cases push state items[start + count] with
    | done => rfl
    | yield state => exact ih (by omega) state

theorem pushSlice_eq {items : Array α} {start count : Nat} (h : start + count ≤ items.size)
    (direction : Direction) (state : σ) :
    pushSlice push items start count direction state =
      pushList push (direction.orient (slots items.toList start count)) state := by
  cases direction with
  | forward => exact pushUp_eq h state
  | backward => exact pushDown_eq h state

theorem pushList_buffer (items : List α) (seen : Array α) :
    pushList buffer items seen = .yield (seen ++ items.toArray) := by
  induction items generalizing seen with
  | nil => simp [pushList]
  | cons value items ih => simp [pushList, buffer, andThen, ih]

theorem completed_uniformCheck [BEq α] (value : α) (items : List α) :
    completed (pushList (uniformCheck value) items ()) = items.all (value == ·) := by
  induction items with
  | nil => rfl
  | cons item items ih =>
    simp only [pushList, uniformCheck, List.all_cons]
    cases value == item with
    | false => rfl
    | true => exact ih

end Collector

namespace Sequence

variable [BEq α] {hashing : Option (ElementHash α)} {push : Collector σ α}

open Collector

theorem WellFormed.extractWindow_eq_of_pos {s : Sequence α} {offset length : Nat}
    (h : s.WellFormed hashing) (hw : offset + length ≤ s.length) (hl : 0 < length)
    (direction : Direction) (state : σ) : s.extractWindow push offset length direction state =
      pushList push (direction.orient (slots s.toList offset length)) state := by
  induction s generalizing offset length direction state with
  | nil => simp only [Sequence.length] at hw; omega
  | run cell value count =>
    simp only [Sequence.length] at hw
    have he : slots (List.replicate count value) offset length = List.replicate length value := by
      rw [slots, List.drop_replicate, List.take_replicate, Nat.min_eq_left (by omega)]
    rw [extractWindow, if_neg (by omega), toList, he, direction.orient_replicate, pushRun_eq]
  | flat cell items start count =>
    obtain ⟨-, hi⟩ := wellFormed_flat.mp h
    simp only [Sequence.length] at hw
    rw [extractWindow, if_neg (by omega), pushSlice_eq (by omega)]
    exact congrArg (fun items => pushList push (direction.orient items) state)
      (slots_slots hw).symm
  | indexed cell items index hasher =>
    simp only [Sequence.length] at hw
    rw [extractWindow, if_neg (by omega), pushSlice_eq hw, toList]
  | window cell base start count ih =>
    obtain ⟨⟨-, -, -, hi⟩, hb⟩ := wellFormed_window.mp h
    simp only [Sequence.length] at hw
    rw [extractWindow, if_neg (by omega), ih hb (by omega) hl]
    exact congrArg (fun items => pushList push (direction.orient items) state)
      (slots_slots hw).symm
  | reversed cell base ih =>
    obtain ⟨-, hb⟩ := wellFormed_reversed.mp h
    simp only [Sequence.length] at hw
    rw [extractWindow, if_neg (by omega), ih hb (by omega) hl, direction.orient_flip, toList,
      slots_reverse (by rw [hb.length_toList]; exact hw), hb.length_toList]
  | link cell left right bias count ihl ihr =>
    obtain ⟨⟨-, -, -, hc⟩, hwl, hwr⟩ := wellFormed_link.mp h
    simp only [Sequence.length] at hw
    unfold extractWindow
    rw [if_neg (by omega), toList]
    dsimp only
    split
    · rw [ihr hwr (by omega) hl, slots_append_right (by rw [hwl.length_toList]; assumption),
        hwl.length_toList]
    · split
      · rw [ihl hwl (by omega) hl, slots_append_left (by rw [hwl.length_toList]; assumption)]
      · have hlow (state : σ) : left.extractWindow push offset (left.length - offset) direction
            state = _ := ihl hwl (by omega) (by omega) direction state
        have hhigh (state : σ) : right.extractWindow push 0 (offset + length - left.length)
            direction state = _ := ihr hwr (by omega) (by omega) direction state
        rw [slots_append_across (by rw [hwl.length_toList]; omega)
          (by rw [hwl.length_toList]; omega), hwl.length_toList]
        cases direction with
        | forward =>
          simp only [funext hhigh, hlow, Direction.orient, pushList_append]
        | backward =>
          simp only [hhigh, funext hlow, Direction.orient, List.reverse_append, pushList_append]

/-- A window of a well-formed sequence is pushed element by element. -/
theorem WellFormed.extractWindow_eq {s : Sequence α} {offset length : Nat}
    (h : s.WellFormed hashing) (hw : offset + length ≤ s.length) (direction : Direction)
    (state : σ) : s.extractWindow push offset length direction state =
      pushList push (direction.orient (slots s.toList offset length)) state := by
  rcases Nat.eq_zero_or_pos length with rfl | hl
  · unfold extractWindow
    rw [if_pos rfl, slots, List.take_zero, direction.orient_nil, pushList]
  · exact h.extractWindow_eq_of_pos hw hl direction state

theorem WellFormed.extract_eq {s : Sequence α} (h : s.WellFormed hashing) (state : σ) :
    s.extract push state = pushList push s.toList state := by
  rw [extract, h.extractWindow_eq (by omega), Direction.orient, ← h.length_toList, slots_all]

theorem WellFormed.toArray_eq {s : Sequence α} (h : s.WellFormed hashing) :
    s.toArray = s.toList.toArray := by
  rw [toArray, h.extract_eq, pushList_buffer, Collector.state, Array.empty_append]

end Sequence

end SharedSequence
