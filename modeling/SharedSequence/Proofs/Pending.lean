import SharedSequence.CursorScript
import SharedSequence.Proofs.Elements

namespace SharedSequence

variable {α : Type}

/-- The answer that a list gives to a move, and what the move leaves of it. -/
def CursorMove.pop : CursorMove → List α → CursorAnswer α × List α
  | .next, items => (.element items.head?, items.tail)
  | .back, items => (.element items.getLast?, items.dropLast)
  | .nth count, items => (.element items[count]?, items.drop (count + 1))
  | .nthBack count, items =>
    (.element items.reverse[count]?, (items.reverse.drop (count + 1)).reverse)
  | .remaining, items => (.count items.length, items)
  | .sizeHint, items => (.bounds items.length items.length, items)
  | .rest, items => (.elements items, items)
  | .drain, items => (.elements items, [])
  | .drainBack, items => (.elements items.reverse, [])

def CursorMove.popAll : List CursorMove → List α → List (CursorAnswer α)
  | [], _ => []
  | move :: script, items => (move.pop items).1 :: popAll script (move.pop items).2

namespace Cursor

/-- The elements between the two ends of a cursor. -/
def Pending (cursor : Cursor α) (items : List α) : Prop :=
  items.length = cursor.back - cursor.front ∧
    ∀ i, i < items.length → cursor.sequence.get? (cursor.front + i) = items[i]?

def step : Direction → Cursor α → Option α × Cursor α
  | .forward => next
  | .backward => nextBack

variable {cursor : Cursor α} {items : List α} {direction : Direction}

theorem Pending.remaining_eq (h : cursor.Pending items) : cursor.remaining = items.length :=
  h.1.symm

theorem Pending.forward (h : cursor.Pending items) :
    cursor.Pending (Direction.forward.orient items) :=
  h

theorem Pending.backward (h : cursor.Pending items) :
    cursor.Pending (Direction.backward.orient items.reverse) := by
  rw [Direction.orient, List.reverse_reverse]
  exact h

theorem Pending.step_nil (h : cursor.Pending []) : cursor.step direction = (none, cursor) := by
  have hl := h.1
  rw [List.length_nil] at hl
  cases direction with
  | forward => exact if_pos (by omega)
  | backward => exact if_pos (by omega)

theorem Pending.next_nil (h : cursor.Pending []) : cursor.next = (none, cursor) := by
  have hs : cursor.step .forward = (none, cursor) := h.step_nil
  exact hs

theorem Pending.next_cons (h : cursor.Pending (x :: items)) :
    ∃ later, cursor.next = (some x, later) ∧ later.Pending items := by
  obtain ⟨hl, hg⟩ := h
  rw [List.length_cons] at hl
  have hx : cursor.sequence.get? cursor.front = some x := hg 0 (Nat.succ_pos _)
  refine ⟨{ cursor with front := cursor.front + 1 }, ?_, ?_, ?_⟩
  · rw [next, if_neg (by omega), hx]
  · simp only
    omega
  · intro i hi
    have hi' := hg (i + 1) (Nat.succ_lt_succ hi)
    rw [List.getElem?_cons_succ] at hi'
    rw [← hi']
    congr 1
    simp only
    omega

theorem Pending.nextBack_concat (h : cursor.Pending (items ++ [x])) :
    ∃ later, cursor.nextBack = (some x, later) ∧ later.Pending items := by
  obtain ⟨hl, hg⟩ := h
  rw [List.length_append, List.length_singleton] at hl
  have hx := hg items.length (by simp)
  rw [List.getElem?_concat_length] at hx
  refine ⟨{ cursor with back := cursor.back - 1 }, ?_, ?_, ?_⟩
  · rw [nextBack, if_neg (by omega), ← hx]
    congr 2
    omega
  · simp only
    omega
  · intro i hi
    rw [← List.getElem?_append_left hi]
    exact hg i (by rw [List.length_append]; omega)

theorem Pending.step_cons (h : cursor.Pending (direction.orient (x :: items))) :
    ∃ later, cursor.step direction = (some x, later) ∧
      later.Pending (direction.orient items) := by
  cases direction with
  | forward => exact h.next_cons
  | backward =>
    simp only [Direction.orient, List.reverse_cons] at h
    exact h.nextBack_concat

theorem Pending.drop (h : cursor.Pending items) (count : Nat) :
    { cursor with front := min (cursor.front + count) cursor.back : Cursor α }.Pending
      (items.drop count) := by
  obtain ⟨hl, hg⟩ := h
  constructor
  · rw [List.length_drop, hl]
    simp only
    omega
  · intro i hi
    rw [List.length_drop] at hi
    rw [List.getElem?_drop, ← hg _ (by omega)]
    congr 1
    simp only
    omega

theorem Pending.step_eq (h : cursor.Pending (direction.orient items)) :
    ∃ later, cursor.step direction = (items.head?, later) ∧
      later.Pending (direction.orient items.tail) := by
  cases items with
  | nil =>
    rw [direction.orient_nil] at h
    exact ⟨cursor, h.step_nil, by rw [List.tail_nil, direction.orient_nil]; exact h⟩
  | cons x items => exact h.step_cons

theorem Pending.nth_eq (h : cursor.Pending items) (count : Nat) :
    ∃ later, cursor.nth count = (items[count]?, later) ∧
      later.Pending (items.drop (count + 1)) := by
  obtain ⟨later, hs, hp⟩ := (h.drop count).forward.step_eq
  refine ⟨later, ?_, ?_⟩
  · rw [List.head?_drop] at hs
    exact hs
  · rw [List.tail_drop] at hp
    exact hp

theorem Pending.advance_eq (h : cursor.Pending (direction.orient items)) (count : Nat) :
    ∃ later, advance (step direction) count cursor = (decide (count ≤ items.length), later) ∧
      later.Pending (direction.orient (items.drop count)) := by
  induction count generalizing cursor items with
  | zero => exact ⟨cursor, by simp [advance], h⟩
  | succ count ih =>
    cases items with
    | nil =>
      rw [direction.orient_nil] at h
      refine ⟨cursor, ?_, by rw [List.drop_nil, direction.orient_nil]; exact h⟩
      simp [advance, h.step_nil]
    | cons x items =>
      obtain ⟨later, hs, hp⟩ := h.step_cons
      obtain ⟨last, ha, hp'⟩ := ih hp
      refine ⟨last, ?_, hp'⟩
      simp only [advance, hs, ha, List.length_cons, Nat.add_le_add_iff_right]

/-- Single moves skip as a jump does. -/
theorem Pending.nthBy_eq (h : cursor.Pending (direction.orient items)) (count : Nat) :
    ∃ later, cursor.nthBy (step direction) count = (items[count]?, later) ∧
      later.Pending (direction.orient (items.drop (count + 1))) := by
  obtain ⟨skipped, ha, hp⟩ := h.advance_eq count
  by_cases hc : count ≤ items.length
  · obtain ⟨later, hs, hp'⟩ := hp.step_eq
    refine ⟨later, ?_, ?_⟩
    · simp only [nthBy, ha, decide_eq_true hc, hs, List.head?_drop]
    · rw [List.tail_drop] at hp'
      exact hp'
  · have hd {n : Nat} (hn : items.length ≤ n) : items.drop n = [] := List.drop_eq_nil_of_le hn
    refine ⟨skipped, ?_, ?_⟩
    · simp only [nthBy, ha, decide_eq_false hc]
      rw [List.getElem?_eq_none (by omega)]
    · rw [hd (by omega)] at hp ⊢
      exact hp

theorem Pending.collect_eq (h : cursor.Pending (direction.orient items)) (count : Nat) :
    ∃ later, collect (step direction) count cursor = (items.take count, later) ∧
      later.Pending (direction.orient (items.drop count)) := by
  induction count generalizing cursor items with
  | zero => exact ⟨cursor, rfl, h⟩
  | succ count ih =>
    cases items with
    | nil =>
      rw [direction.orient_nil] at h
      refine ⟨cursor, ?_, by rw [List.drop_nil, direction.orient_nil]; exact h⟩
      simp [collect, h.step_nil]
    | cons x items =>
      obtain ⟨later, hs, hp⟩ := h.step_cons
      obtain ⟨last, hc, hp'⟩ := ih hp
      refine ⟨last, ?_, hp'⟩
      simp only [collect, hs, hc, List.take_succ_cons]

theorem Pending.drain_eq (h : cursor.Pending items) :
    ∃ later, cursor.drain = (items, later) ∧ later.Pending [] := by
  obtain ⟨later, hc, hp⟩ := h.forward.collect_eq (cursor.remaining + 1)
  rw [h.remaining_eq] at hc hp
  refine ⟨later, ?_, ?_⟩
  · rw [drain, h.remaining_eq]
    rw [List.take_of_length_le (Nat.le_succ _)] at hc
    exact hc
  · rw [List.drop_eq_nil_of_le (Nat.le_succ _)] at hp
    exact hp

theorem Pending.rest_eq (h : cursor.Pending items) : cursor.rest = items := by
  obtain ⟨later, hd, -⟩ := h.drain_eq
  rw [rest, hd]

theorem Pending.drainBack_eq (h : cursor.Pending items) :
    ∃ later, cursor.drainBack = (items.reverse, later) ∧ later.Pending [] := by
  obtain ⟨later, hc, hp⟩ := h.backward.collect_eq (cursor.remaining + 1)
  have hl : items.reverse.length ≤ cursor.remaining + 1 := by
    rw [List.length_reverse, h.remaining_eq]
    exact Nat.le_succ _
  refine ⟨later, ?_, ?_⟩
  · rw [List.take_of_length_le hl] at hc
    exact hc
  · rw [List.drop_eq_nil_of_le hl] at hp
    exact hp

/-- A move answers as the pending elements do and leaves what they leave. -/
theorem Pending.perform_eq (h : cursor.Pending items) (skipping : Skipping) (move : CursorMove) :
    ∃ later, cursor.perform skipping move = ((move.pop items).1, later) ∧
      later.Pending (move.pop items).2 := by
  cases move with
  | next =>
    obtain ⟨later, hs, hp⟩ := h.forward.step_eq
    refine ⟨later, ?_, hp⟩
    simp only [perform, elementOf, CursorMove.pop]
    rw [show cursor.next = _ from hs]
  | back =>
    obtain ⟨later, hs, hp⟩ := h.backward.step_eq
    refine ⟨later, ?_, ?_⟩
    · simp only [perform, elementOf, CursorMove.pop]
      rw [show cursor.nextBack = _ from hs, List.head?_reverse]
    · rw [List.tail_reverse, Direction.orient, List.reverse_reverse] at hp
      exact hp
  | nth count =>
    cases skipping with
    | jump =>
      obtain ⟨later, hs, hp⟩ := h.nth_eq count
      refine ⟨later, ?_, hp⟩
      simp only [perform, elementOf, skip, CursorMove.pop, hs]
    | stepwise =>
      obtain ⟨later, hs, hp⟩ := h.forward.nthBy_eq count
      refine ⟨later, ?_, hp⟩
      simp only [perform, elementOf, skip, CursorMove.pop]
      rw [show cursor.nthStepwise count = _ from hs]
  | nthBack count =>
    obtain ⟨later, hs, hp⟩ := h.backward.nthBy_eq count
    refine ⟨later, ?_, hp⟩
    simp only [perform, elementOf, CursorMove.pop]
    rw [show cursor.nthBack count = _ from hs]
  | remaining =>
    refine ⟨cursor, ?_, h⟩
    simp only [perform, CursorMove.pop, h.remaining_eq]
  | sizeHint =>
    refine ⟨cursor, ?_, h⟩
    simp only [perform, CursorMove.pop, sizeHint, h.remaining_eq]
  | rest =>
    refine ⟨cursor, ?_, h⟩
    simp only [perform, CursorMove.pop, h.rest_eq]
  | drain =>
    obtain ⟨later, hs, hp⟩ := h.drain_eq
    refine ⟨later, ?_, hp⟩
    simp only [perform, elementsOf, CursorMove.pop, hs]
  | drainBack =>
    obtain ⟨later, hs, hp⟩ := h.drainBack_eq
    refine ⟨later, ?_, hp⟩
    simp only [perform, elementsOf, CursorMove.pop, hs]

theorem Pending.performAll_eq (h : cursor.Pending items) (skipping : Skipping)
    (script : List CursorMove) :
    cursor.performAll skipping script = CursorMove.popAll script items := by
  induction script generalizing cursor items with
  | nil => rfl
  | cons move script ih =>
    obtain ⟨later, hs, hp⟩ := h.perform_eq skipping move
    simp only [performAll, CursorMove.popAll, hs, ih hp]

end Cursor

namespace Sequence

variable [BEq α] {hashing : Option (ElementHash α)}

theorem WellFormed.pending_cursor {s : Sequence α} (h : s.WellFormed hashing) :
    s.cursor.Pending s.toList := by
  constructor
  · rw [h.length_toList]
    rfl
  · intro i _
    rw [← h.get?_eq]
    exact congrArg s.get? (Nat.zero_add i)

theorem WellFormed.fold_eq {β : Type} {s : Sequence α} (h : s.WellFormed hashing)
    (step : β → α → β) (initial : β) : s.fold step initial = s.toList.foldl step initial := by
  rw [fold, h.pending_cursor.rest_eq]

theorem WellFormed.foldBack_eq {β : Type} {s : Sequence α} (h : s.WellFormed hashing)
    (step : β → α → β) (initial : β) :
    s.foldBack step initial = s.toList.reverse.foldl step initial := by
  obtain ⟨later, hd, -⟩ := h.pending_cursor.drainBack_eq
  rw [foldBack, hd]

end Sequence

end SharedSequence
