import SharedSequence.Proofs.Extraction
import SharedSequence.Proofs.FaultFree

namespace SharedSequence

variable {α : Type}

/-- The target after items have been written from an offset on: they stand there one after another,
and every other place is unchanged. -/
structure Overwrites (items : List α) (target : Array α) (offset : Nat) (written : Array α) :
    Prop where
  size_eq : written.size = target.size
  inside (i : Nat) : i < items.length → written[offset + i]? = items[i]?
  outside (p : Nat) : p < offset ∨ offset + items.length ≤ p → written[p]? = target[p]?

variable {items : List α} {x : α} {target written : Array α} {offset : Nat}

theorem Overwrites.nil : Overwrites [] target offset target where
  size_eq := rfl
  inside _ hi := absurd hi (Nat.not_lt_zero _)
  outside _ _ := rfl

theorem Overwrites.cons (ho : offset < target.size)
    (h : Overwrites items (target.setIfInBounds offset x) (offset + 1) written) :
    Overwrites (x :: items) target offset written where
  size_eq := h.size_eq.trans Array.size_setIfInBounds
  inside i hi := by
    cases i with
    | zero =>
      rw [Nat.add_zero, h.outside offset (.inl (Nat.lt_succ_self _)),
        Array.getElem?_setIfInBounds_self_of_lt ho, List.getElem?_cons_zero]
    | succ i =>
      have hrest := h.inside i (Nat.lt_of_succ_lt_succ hi)
      rwa [Nat.add_assoc, Nat.add_comm 1] at hrest
  outside p hp := by
    rw [List.length_cons] at hp
    rw [h.outside p (by omega), Array.getElem?_setIfInBounds_ne (by omega)]

namespace Collector

theorem pushList_sliceWriter (h : offset + items.length ≤ target.size) :
    ∃ written, pushList sliceWriter items (target, offset) =
      .yield (written, offset + items.length) ∧ Overwrites items target offset written := by
  induction items generalizing target offset with
  | nil => exact ⟨target, rfl, .nil⟩
  | cons x items ih =>
    rw [List.length_cons] at h
    have ho : offset < target.size := by omega
    have hrest : offset + 1 + items.length ≤ (target.setIfInBounds offset x).size := by
      rw [Array.size_setIfInBounds]
      omega
    obtain ⟨written, hw, hover⟩ := ih hrest
    refine ⟨written, ?_, hover.cons ho⟩
    rw [pushList, sliceWriter, if_pos ho, andThen, hw, List.length_cons, Nat.add_right_comm]
    rfl

/-- `Collector.sliceWriter` on words. A position that is no word ends the traversal with a fault. -/
def guardedSliceWriter : Collector (Guarded (Array α × Nat)) α :=
  fun reached value =>
    match reached with
    | .error fault => .done (.error fault)
    | .ok (target, position) =>
      if position < target.size then
        match Guarded.add position 1 with
        | .ok next => .yield (.ok (target.setIfInBounds position value, next))
        | .error fault => .done (.error fault)
      else .done (.ok (target, position))

theorem pushList_guardedSliceWriter {last : Array α × Nat} (ht : target.size < wordSize)
    (h : pushList sliceWriter items (target, offset) = .yield last) :
    pushList guardedSliceWriter items (.ok (target, offset)) = .yield (.ok last) := by
  induction items generalizing target offset with
  | nil =>
    cases h
    rfl
  | cons x items ih =>
    rw [pushList, sliceWriter] at h
    split at h
    · rename_i ho
      have hrest := ih (by rwa [Array.size_setIfInBounds]) h
      rw [pushList, guardedSliceWriter, if_pos ho, Guarded.add_eq (Nat.lt_of_le_of_lt ho ht)]
      exact hrest
    · cases h

end Collector

namespace Sequence

open Collector

/-- The target after a copy of the sequence: the elements stand from the offset on, and every other
place is unchanged. -/
structure WrittenInto (s : Sequence α) (target : Array α) (offset : Nat) (written : Array α) :
    Prop where
  size_eq : written.size = target.size
  inside (i : Nat) : i < s.length → ∃ value, s.get i = .ok value ∧ written[offset + i]? = some value
  outside (p : Nat) : p < offset ∨ offset + s.length ≤ p → written[p]? = target[p]?

/-- `Sequence.writeInto` on words. A sum that is no word is refused like one past the target. -/
def guardedWriteInto (s : Sequence α) (target : Array α) (offset : Nat) :
    Guarded (Except SequenceError Unit × Array α) :=
  match Guarded.add offset s.length with
  | .error _ => return (.error (.invalidArgument .targetTooShort), target)
  | .ok stop =>
    if stop ≤ target.size then do
      let reached ← s.guardedExtract guardedSliceWriter 0 s.length .forward (.ok (target, offset))
      let (written, _) ← Collector.state reached
      return (.ok (), written)
    else return (.error (.invalidArgument .targetTooShort), target)

variable {s : Sequence α}

theorem writeInto_eq_error (h : target.size < offset + s.length) :
    s.writeInto target offset = (.error (.invalidArgument .targetTooShort), target) :=
  if_neg (Nat.not_le_of_lt h)

theorem writeInto_eq_ok (hl : offset + s.length ≤ target.size) {position : Nat}
    (h : s.extract sliceWriter (target, offset) = .yield (written, position)) :
    s.writeInto target offset = (.ok (), written) := by
  rw [writeInto, if_pos hl, h]
  rfl

variable [BEq α] {hashing : Option (ElementHash α)}

theorem WellFormed.writtenInto (h : s.WellFormed hashing)
    (ho : Overwrites s.toList target offset written) : s.WrittenInto target offset written where
  size_eq := ho.size_eq
  inside i hi := by
    rw [← h.length_toList] at hi
    exact ⟨s.toList[i], h.get_eq_ok hi, (ho.inside i hi).trans (List.getElem?_eq_getElem hi)⟩
  outside p hp := ho.outside p (by rwa [h.length_toList])

theorem WellFormed.extract_sliceWriter (h : s.WellFormed hashing)
    (hl : offset + s.length ≤ target.size) :
    ∃ written, s.extract sliceWriter (target, offset) = .yield (written, offset + s.length) ∧
      s.WrittenInto target offset written := by
  rw [← h.length_toList] at hl ⊢
  obtain ⟨written, hw, ho⟩ := pushList_sliceWriter hl
  exact ⟨written, (h.extract_eq _).trans hw, h.writtenInto ho⟩

theorem Fits.guardedExtract_sliceWriter (h : s.Fits hashing) (ht : target.size < wordSize)
    {last : Array α × Nat} (hw : s.extract sliceWriter (target, offset) = .yield last) :
    s.guardedExtract guardedSliceWriter 0 s.length .forward (.ok (target, offset)) =
      .ok (.yield (.ok last)) := by
  rw [h.wellFormed.extract_eq] at hw
  rw [h.guardedExtract_eq _ (Nat.le_of_eq (Nat.zero_add _)), ← extract, h.wellFormed.extract_eq,
    pushList_guardedSliceWriter ht hw]

theorem Fits.guardedWriteInto_eq (h : s.Fits hashing) (ht : target.size < wordSize)
    (offset : Nat) : s.guardedWriteInto target offset = .ok (s.writeInto target offset) := by
  rw [guardedWriteInto]
  by_cases hs : offset + s.length ≤ target.size
  · obtain ⟨written, hw, -⟩ := h.wellFormed.extract_sliceWriter hs
    rw [Guarded.add_eq (Nat.lt_of_le_of_lt hs ht), writeInto_eq_ok hs hw]
    dsimp only
    rw [if_pos hs, h.guardedExtract_sliceWriter ht hw]
    rfl
  · rw [writeInto_eq_error (Nat.lt_of_not_le hs)]
    by_cases hw : offset + s.length < wordSize
    · rw [Guarded.add_eq hw]
      exact if_neg hs
    · rw [Guarded.add, if_neg hw]
      rfl

end Sequence

open Sequence

variable [BEq α] {hashing : Option (ElementHash α)} {store : Store} {made : List (Sequence α)}

/-- A copy of a sequence of a run into a target is refused exactly if it would end past the target,
and then the target is as before. Any other copy takes every element to its place behind the offset,
without ending before the last one, and leaves the other places unchanged. Where lengths are words,
the same is computed on words, whether the sum of offset and length is a word or not. -/
theorem Run.writeInto_all_or_nothing (h : Run hashing store made) :
    ∀ s ∈ made, ∀ (target : Array α) (offset : Nat),
      (target.size < offset + s.length →
        s.writeInto target offset = (.error (.invalidArgument .targetTooShort), target)) ∧
      (offset + s.length ≤ target.size → ∃ written,
        s.writeInto target offset = (.ok (), written) ∧ s.WrittenInto target offset written ∧
          s.extract Collector.sliceWriter (target, offset) =
            .yield (written, offset + s.length)) ∧
      ((∀ t ∈ made, t.Admitted) → target.size < wordSize →
        s.guardedWriteInto target offset = .ok (s.writeInto target offset)) := by
  intro s hs target offset
  refine ⟨writeInto_eq_error, ?_, ?_⟩
  · intro hl
    obtain ⟨written, hw, hwritten⟩ := (h.wellFormed hs).extract_sliceWriter hl
    exact ⟨written, writeInto_eq_ok hl hw, hwritten, hw⟩
  · intro hk ht
    exact (h.fits hk s hs).guardedWriteInto_eq ht offset

/-- A link of views to the end of a target and past it by one place, and the longest sequence, whose
end is a small number after the sum has wrapped around. -/
theorem writeInto_all_or_nothing_long :
    (∃ written, mixed.writeInto (.replicate 7 0) 2 = (.ok (), written) ∧
      mixed.WrittenInto (.replicate 7 0) 2 written) ∧
      mixed.writeInto (.replicate 7 0) 3 =
        (.error (.invalidArgument .targetTooShort), .replicate 7 0) ∧
      (3 + longLink.length) % wordSize < 4 ∧
      longLink.writeInto #[1, 2, 3, 4] 3 =
        (.error (.invalidArgument .targetTooShort), #[1, 2, 3, 4]) ∧
      longLink.guardedWriteInto #[1, 2, 3, 4] 3 = .ok (longLink.writeInto #[1, 2, 3, 4] 3) := by
  obtain ⟨store, made, hrun, hm⟩ := reachable_mixed
  obtain ⟨-, hwritten, -⟩ := hrun.writeInto_all_or_nothing mixed hm (.replicate 7 0) 2
  obtain ⟨hrefused, -, -⟩ := hrun.writeInto_all_or_nothing mixed hm (.replicate 7 0) 3
  obtain ⟨hlong, -, hwords⟩ :=
    run_long.writeInto_all_or_nothing longLink (.head _) #[1, 2, 3, 4] 3
  obtain ⟨written, hw, hover, -⟩ := hwritten (by decide)
  exact ⟨⟨written, hw, hover⟩, hrefused (by decide), by decide, hlong (by decide),
    hwords admitted_long (by decide)⟩

end SharedSequence
