import SharedSequence.Proofs.Traversal
import SharedSequence.Proofs.Words

namespace SharedSequence.Sequence

open Guarded

variable {α σ : Type}

def guardedGet : Sequence α → Nat → Guarded (Option α)
  | nil _, _ => return none
  | run _ value count, i => return if i < count then some value else none
  | flat _ items start count, i =>
    if i < count then do return items[← add start i]? else return none
  | indexed _ items _ _, i => return items[i]?
  | window _ base start count, i =>
    if i < count then do base.guardedGet (← add i start) else return none
  | reversed _ base, i =>
    if i < base.length then do base.guardedGet (← mirrored base.length i 1) else return none
  | link _ left right _ count, i =>
    if i < count then
      if i < left.length then left.guardedGet i else do right.guardedGet (← sub i left.length)
    else return none

/-- `Sequence.extractWindow` on words. A leaf hands the slice of its buffer to the collector. -/
def guardedExtract (push : Collector σ α) (s : Sequence α) (offset length : Nat)
    (direction : Direction) (state : σ) : Guarded (ForInStep σ) :=
  if length = 0 then return .yield state
  else
    match s with
    | nil _ => return .yield state
    | run _ value _ => return Collector.pushRun push value length state
    | flat _ items start _ => do
      let window ← segment items (← add start offset) length
      return Collector.pushList push (direction.orient window.toList) state
    | indexed _ items _ _ => do
      let window ← segment items offset length
      return Collector.pushList push (direction.orient window.toList) state
    | window _ base start _ => do
      base.guardedExtract push (← add start offset) length direction state
    | reversed _ base => do
      base.guardedExtract push (← mirrored base.length offset length) length direction.flip state
    | link _ left right _ _ => do
      match ← LinkWindow.split left.length offset length with
      | .right offset => right.guardedExtract push offset length direction state
      | .left => left.guardedExtract push offset length direction state
      | .both low high =>
        match direction with
        | .forward =>
          match ← left.guardedExtract push offset low direction state with
          | .yield state => right.guardedExtract push 0 high direction state
          | .done state => return .done state
        | .backward =>
          match ← right.guardedExtract push 0 high direction state with
          | .yield state => left.guardedExtract push offset low direction state
          | .done state => return .done state

variable [BEq α] {hashing : Option (ElementHash α)} {s : Sequence α}

theorem Fits.guardedGet_eq (h : s.Fits hashing) (i : Nat) : s.guardedGet i = .ok (s.get? i) := by
  induction s generalizing i with
  | nil | run | indexed => rfl
  | flat cell items start count =>
    obtain ⟨hs, hl⟩ := h.flat
    rw [guardedGet, get?]
    split
    · rw [add_eq (by omega)]
      rfl
    · rfl
  | window cell base start count ih =>
    obtain ⟨hb, hl⟩ := h.window
    have hs := hb.short
    rw [guardedGet, get?]
    split
    · rw [add_eq (by omega), ok_bind, ih hb, Nat.add_comm]
    · rfl
  | reversed cell base ih =>
    rw [guardedGet, get?]
    split
    · rw [mirrored_eq (by omega), ok_bind, ih h.reversed]
    · rfl
  | link cell left right bias count ihl ihr =>
    obtain ⟨hl, hr, -⟩ := h.link
    rw [guardedGet, get?]
    split
    · split
      · exact ihl hl i
      · rw [sub_eq (by omega), ok_bind, ihr hr]
    · rfl

omit [BEq α] in
theorem toList_extract_slots {items : Array α} (start length : Nat) :
    (items.extract start (start + length)).toList = slots items.toList start length := by
  rw [Array.toList_extract, List.extract_eq_take_drop, Nat.add_sub_cancel_left, slots]

theorem Fits.guardedExtract_eq (h : s.Fits hashing) (push : Collector σ α) {offset length : Nat}
    (hw : offset + length ≤ s.length) (direction : Direction) (state : σ) :
    s.guardedExtract push offset length direction state =
      .ok (s.extractWindow push offset length direction state) := by
  induction s generalizing offset length direction state with
  | nil | run =>
    unfold guardedExtract extractWindow
    split <;> rfl
  | flat cell items start count =>
    obtain ⟨hs, hl⟩ := h.flat
    simp only [Sequence.length] at hw
    unfold guardedExtract extractWindow
    split
    · rfl
    · have hi : start + offset + length ≤ items.size := by omega
      simp only [add_eq (show start + offset < wordSize by omega), ok_bind, segment_eq hi hs,
        toList_extract_slots, Collector.pushSlice_eq hi]
      rfl
  | indexed cell items index hasher =>
    obtain ⟨hs, -⟩ := h.indexed
    simp only [Sequence.length] at hw
    unfold guardedExtract extractWindow
    split
    · rfl
    · simp only [segment_eq hw h.short, ok_bind, toList_extract_slots, Collector.pushSlice_eq hw]
      rfl
  | window cell base start count ih =>
    obtain ⟨hb, hl⟩ := h.window
    have hs := hb.short
    simp only [Sequence.length] at hw
    unfold guardedExtract extractWindow
    split
    · rfl
    · simp only [add_eq (show start + offset < wordSize by omega), ok_bind]
      exact ih hb (by omega) direction state
  | reversed cell base ih =>
    simp only [Sequence.length] at hw
    unfold guardedExtract extractWindow
    split
    · rfl
    · simp only [mirrored_eq hw, ok_bind]
      exact ih h.reversed (by omega) direction.flip state
  | link cell left right bias count ihl ihr =>
    obtain ⟨hl, hr, hc⟩ := h.link
    have hs : count < wordSize := h.short
    simp only [Sequence.length] at hw
    unfold guardedExtract extractWindow
    split
    · rfl
    · rename_i hn
      dsimp only
      by_cases ho : left.length ≤ offset
      · rw [LinkWindow.split_right ho, if_pos ho]
        exact ihr hr (by omega) direction state
      · by_cases he : offset + length ≤ left.length
        · rw [LinkWindow.split_left (by omega) he hl.short, if_neg ho, if_pos he]
          exact ihl hl he direction state
        · have hlow := ihl hl (show offset + (left.length - offset) ≤ left.length by omega)
          have hhigh := ihr hr (show 0 + (offset + length - left.length) ≤ right.length by omega)
          rw [LinkWindow.split_both (by omega) (by omega) (by omega), if_neg ho, if_neg he]
          cases direction with
          | forward =>
            simp only [ok_bind, hlow]
            cases left.extractWindow push offset (left.length - offset) .forward state with
            | yield state => exact hhigh .forward state
            | done state => rfl
          | backward =>
            simp only [ok_bind, hhigh]
            cases right.extractWindow push 0 (offset + length - left.length) .backward state with
            | yield state => exact hlow .backward state
            | done state => rfl

end SharedSequence.Sequence
