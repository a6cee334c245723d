import SharedSequence.CursorScript
import SharedSequence.Proofs.GuardedAccess

namespace SharedSequence

open Guarded

variable {α : Type}

namespace Cursor

def guardedRemaining (cursor : Cursor α) : Guarded Nat :=
  sub cursor.back cursor.front

def guardedNext (cursor : Cursor α) : Guarded (Option α × Cursor α) :=
  if cursor.back ≤ cursor.front then return (none, cursor)
  else do
    let element ← cursor.sequence.guardedGet cursor.front
    let front ← add cursor.front 1
    return (element, { cursor with front })

def guardedNextBack (cursor : Cursor α) : Guarded (Option α × Cursor α) :=
  if cursor.back ≤ cursor.front then return (none, cursor)
  else do
    let back ← sub cursor.back 1
    let element ← cursor.sequence.guardedGet back
    return (element, { cursor with back })

/-- The sum, or the largest word. -/
def saturatingAdd (x y : Nat) : Nat :=
  min (x + y) (wordSize - 1)

def guardedNth (cursor : Cursor α) (count : Nat) : Guarded (Option α × Cursor α) :=
  { cursor with front := min (saturatingAdd cursor.front count) cursor.back }.guardedNext

def guardedAdvance (move : Cursor α → Guarded (Option α × Cursor α)) :
    Nat → Cursor α → Guarded (Bool × Cursor α)
  | 0, cursor => return (true, cursor)
  | count + 1, cursor => do
    match ← move cursor with
    | (none, cursor) => return (false, cursor)
    | (some _, cursor) => guardedAdvance move count cursor

def guardedNthBy (move : Cursor α → Guarded (Option α × Cursor α)) (cursor : Cursor α)
    (count : Nat) : Guarded (Option α × Cursor α) := do
  match ← guardedAdvance move count cursor with
  | (true, cursor) => move cursor
  | (false, cursor) => return (none, cursor)

def guardedCollect (move : Cursor α → Guarded (Option α × Cursor α)) :
    Nat → Cursor α → Guarded (List α × Cursor α)
  | 0, cursor => return ([], cursor)
  | count + 1, cursor => do
    match ← move cursor with
    | (none, cursor) => return ([], cursor)
    | (some value, cursor) => do
      let (rest, cursor) ← guardedCollect move count cursor
      return (value :: rest, cursor)

def guardedPerform (skipping : Skipping) (cursor : Cursor α) :
    CursorMove → Guarded (CursorAnswer α × Cursor α)
  | .next => do return elementOf (← cursor.guardedNext)
  | .back => do return elementOf (← cursor.guardedNextBack)
  | .nth count =>
    match skipping with
    | .jump => do return elementOf (← cursor.guardedNth count)
    | .stepwise => do return elementOf (← cursor.guardedNthBy guardedNext count)
  | .nthBack count => do return elementOf (← cursor.guardedNthBy guardedNextBack count)
  | .remaining => do return (.count (← cursor.guardedRemaining), cursor)
  | .sizeHint => do
    let remaining ← cursor.guardedRemaining
    return (.bounds remaining remaining, cursor)
  | .rest => do
    let (values, _) ← guardedCollect guardedNext (cursor.remaining + 1) cursor
    return (.elements values, cursor)
  | .drain => do return elementsOf (← guardedCollect guardedNext (cursor.remaining + 1) cursor)
  | .drainBack => do
    return elementsOf (← guardedCollect guardedNextBack (cursor.remaining + 1) cursor)

def guardedPerformAll (skipping : Skipping) :
    List CursorMove → Cursor α → Guarded (List (CursorAnswer α))
  | [], _ => return []
  | move :: script, cursor => do
    let (answer, cursor) ← cursor.guardedPerform skipping move
    return answer :: (← guardedPerformAll skipping script cursor)

variable [BEq α] {hashing : Option (ElementHash α)} {cursor : Cursor α}

/-- The positions that are left lie in a tree that fits. -/
structure Within (hashing : Option (ElementHash α)) (cursor : Cursor α) : Prop where
  fits : cursor.sequence.Fits hashing
  front_le : cursor.front ≤ cursor.back
  back_le : cursor.back ≤ cursor.sequence.length

/-- The move answers without a fault what the other one answers, and stays inside the tree. -/
def Moves (hashing : Option (ElementHash α)) (guarded : Cursor α → Guarded (β × Cursor α))
    (plain : Cursor α → β × Cursor α) : Prop :=
  ∀ cursor, cursor.Within hashing →
    guarded cursor = .ok (plain cursor) ∧ (plain cursor).2.Within hashing

theorem moves_next : Moves hashing (guardedNext (α := α)) next := by
  intro cursor h
  have hs := h.fits.short
  have hb := h.back_le
  unfold guardedNext next
  split
  · exact ⟨rfl, h⟩
  · have hf : cursor.front + 1 ≤ cursor.back := by omega
    rw [h.fits.guardedGet_eq, ok_bind, add_eq (by omega)]
    exact ⟨rfl, h.fits, hf, hb⟩

theorem moves_nextBack : Moves hashing (guardedNextBack (α := α)) nextBack := by
  intro cursor h
  have hb := h.back_le
  unfold guardedNextBack nextBack
  split
  · exact ⟨rfl, h⟩
  · have hf : cursor.front ≤ cursor.back - 1 := by omega
    have hl : cursor.back - 1 ≤ cursor.sequence.length := by omega
    rw [sub_eq (by omega), ok_bind, h.fits.guardedGet_eq]
    exact ⟨rfl, h.fits, hf, hl⟩

theorem Within.jump (h : cursor.Within hashing) (count : Nat) :
    { cursor with front := min (cursor.front + count) cursor.back }.Within hashing :=
  ⟨h.fits, Nat.min_le_right _ _, h.back_le⟩

theorem Within.saturatingAdd_eq (h : cursor.Within hashing) (count : Nat) :
    min (saturatingAdd cursor.front count) cursor.back =
      min (cursor.front + count) cursor.back := by
  have hs := h.fits.short
  have hb := h.back_le
  rw [saturatingAdd]
  omega

theorem moves_nth (count : Nat) : Moves hashing (guardedNth (α := α) · count) (nth · count) := by
  intro cursor h
  dsimp only [guardedNth]
  rw [h.saturatingAdd_eq]
  exact moves_next _ (h.jump count)

section

variable {guarded : Cursor α → Guarded (Option α × Cursor α)}
  {plain : Cursor α → Option α × Cursor α}

theorem Moves.map {β γ : Type} {guarded : Cursor α → Guarded (β × Cursor α)}
    {plain : Cursor α → β × Cursor α} (hm : Moves hashing guarded plain) (f : β → γ) :
    Moves hashing (fun cursor => do return Prod.map f id (← guarded cursor))
      (fun cursor => Prod.map f id (plain cursor)) := by
  intro cursor h
  obtain ⟨he, hw⟩ := hm cursor h
  dsimp only
  rw [he]
  exact ⟨rfl, hw⟩

theorem Moves.advance (hm : Moves hashing guarded plain) (count : Nat) :
    Moves hashing (guardedAdvance guarded count) (advance plain count) := by
  induction count with
  | zero => exact fun cursor h => ⟨rfl, h⟩
  | succ count ih =>
    intro cursor h
    obtain ⟨he, hw⟩ := hm cursor h
    rw [guardedAdvance, he, Cursor.advance]
    generalize plain cursor = result at hw ⊢
    obtain ⟨_ | x, next⟩ := result
    · exact ⟨rfl, hw⟩
    · exact ih next hw

theorem Moves.nthBy (hm : Moves hashing guarded plain) (count : Nat) :
    Moves hashing (guardedNthBy guarded · count) (nthBy plain · count) := by
  intro cursor h
  obtain ⟨he, hw⟩ := hm.advance count cursor h
  dsimp only [guardedNthBy, Cursor.nthBy]
  rw [he]
  generalize Cursor.advance plain count cursor = result at hw ⊢
  obtain ⟨_ | _, next⟩ := result
  · exact ⟨rfl, hw⟩
  · exact hm next hw

theorem Moves.collect (hm : Moves hashing guarded plain) (count : Nat) :
    Moves hashing (guardedCollect guarded count) (collect plain count) := by
  induction count with
  | zero => exact fun cursor h => ⟨rfl, h⟩
  | succ count ih =>
    intro cursor h
    obtain ⟨he, hw⟩ := hm cursor h
    rw [guardedCollect, he, Cursor.collect]
    generalize plain cursor = result at hw ⊢
    obtain ⟨_ | x, next⟩ := result
    · exact ⟨rfl, hw⟩
    · obtain ⟨hr, hn⟩ := ih next hw
      dsimp only [ok_bind]
      rw [hr]
      exact ⟨rfl, hn⟩

end

theorem Within.guardedRemaining_eq (h : cursor.Within hashing) :
    cursor.guardedRemaining = .ok cursor.remaining :=
  sub_eq h.front_le

theorem moves_perform (skipping : Skipping) (move : CursorMove) :
    Moves hashing (guardedPerform (α := α) skipping · move) (perform skipping · move) := by
  cases move with
  | next => exact moves_next.map CursorAnswer.element
  | back => exact moves_nextBack.map CursorAnswer.element
  | nth count =>
    cases skipping with
    | jump => exact (moves_nth count).map CursorAnswer.element
    | stepwise => exact (moves_next.nthBy count).map CursorAnswer.element
  | nthBack count => exact (moves_nextBack.nthBy count).map CursorAnswer.element
  | remaining | sizeHint =>
    intro cursor h
    dsimp only [guardedPerform]
    rw [h.guardedRemaining_eq]
    exact ⟨rfl, h⟩
  | rest =>
    intro cursor h
    obtain ⟨he, -⟩ := moves_next.collect (cursor.remaining + 1) cursor h
    dsimp only [guardedPerform]
    rw [he]
    exact ⟨rfl, h⟩
  | drain =>
    intro cursor h
    exact (moves_next.collect (cursor.remaining + 1)).map CursorAnswer.elements cursor h
  | drainBack =>
    intro cursor h
    exact (moves_nextBack.collect (cursor.remaining + 1)).map CursorAnswer.elements cursor h

theorem Within.guardedPerformAll_eq (h : cursor.Within hashing) (skipping : Skipping)
    (script : List CursorMove) :
    guardedPerformAll skipping script cursor = .ok (performAll skipping script cursor) := by
  induction script generalizing cursor with
  | nil => rfl
  | cons move script ih =>
    obtain ⟨he, hw⟩ := moves_perform skipping move cursor h
    dsimp only at he
    rw [guardedPerformAll, he, ok_bind, performAll]
    dsimp only
    rw [ih hw]
    rfl

end Cursor

end SharedSequence
