import SharedSequence.ListView
import SharedSequence.Proofs.Compaction
import SharedSequence.Proofs.HashTable

namespace SharedSequence

namespace Sequence

variable {α : Type} [BEq α] {hashing : Option (ElementHash α)} {offset length : Nat}

theorem searchUp_eq (items : Array α) (value : α) (start skipped count : Nat) :
    searchUp items value start skipped count =
      scan .forward skipped count fun p => items[start + p]?.any (· == value) := by
  induction count generalizing skipped with
  | zero => rfl
  | succ count ih => rw [searchUp, ih, scan_forward_succ]

theorem searchDown_eq (items : Array α) (value : α) (start count : Nat) :
    searchDown items value start count =
      scan .backward 0 count fun p => items[start + p]?.any (· == value) := by
  induction count with
  | zero => rfl
  | succ count ih => rw [searchDown, ih, scan_backward_succ, Nat.zero_add]

theorem searchSlice_eq (items : Array α) (value : α) (start count : Nat) (direction : Direction) :
    searchSlice items value start count direction =
      scan direction 0 count fun p => items[start + p]?.any (· == value) := by
  cases direction with
  | forward => exact searchUp_eq items value start 0 count
  | backward => exact searchDown_eq items value start count

def holds (s : Sequence α) (value : α) (position : Nat) : Bool :=
  (s.get? position).any (· == value)

section

variable {cell : Cell} {left right : Sequence α} {bias : Bias} {count : Nat}
  {direction : Direction}

theorem scan_link_left (value : α) (hc : left.length ≤ count)
    (hw : offset + length ≤ left.length) :
    scan direction offset length ((link cell left right bias count).holds value) =
      scan direction offset length (left.holds value) := by
  apply scan_congr
  intro p _ hp
  rw [holds, get?, if_pos (by omega), if_pos (by omega), holds]

theorem scan_link_right (value : α) (ho : left.length ≤ offset) (hw : offset + length ≤ count) :
    scan direction offset length ((link cell left right bias count).holds value) =
      (scan direction (offset - left.length) length (right.holds value)).map
        (· + left.length) := by
  rw [scan_shift, Nat.sub_add_cancel ho]
  apply scan_congr
  intro p hp _
  rw [holds, get?, if_pos (by omega), if_neg (by omega), holds]

end

/-- Elements that are equal have the same hash, where there are hashes. -/
def HashAgrees (hashing : Option (ElementHash α)) : Prop :=
  ∀ hash ∈ hashing, ∀ x y : α, (x == y) = true → hash.hash32 x = hash.hash32 y

theorem findWindow_run (cell : Cell) {item value : α} {count : Nat} (hw : offset + length ≤ count)
    (direction : Direction) :
    (run cell item count).findWindow value offset length direction =
      scan direction offset length ((run cell item count).holds value) := by
  have hc : scan direction offset length ((run cell item count).holds value) =
      scan direction offset length fun _ => item == value :=
    scan_congr fun p _ hp => by
      rw [holds, get?, if_pos (by omega), Option.any_some]
  rw [hc]
  unfold findWindow
  cases length with
  | zero => rw [if_pos rfl, scan_zero]
  | succ length =>
    rw [if_neg (by omega)]
    dsimp only
    cases item == value with
    | false => exact scan_false.symm
    | true =>
      cases direction with
      | forward => rw [scan_forward_succ, if_pos rfl]; rfl
      | backward => rw [scan_backward_succ, if_pos rfl]; rfl

/-- In the window, the elements that are equal to the value have its hash. -/
def HashAgreesIn (hashing : Option (ElementHash α)) (value : α) (s : Sequence α)
    (offset length : Nat) : Prop :=
  ∀ hash ∈ hashing, ∀ p x, offset ≤ p → p < offset + length → s.get? p = some x →
    (x == value) = true → hash.hash32 x = hash.hash32 value

section

variable {value : α} {cell : Cell} {base left right : Sequence α} {bias : Bias} {start count : Nat}

theorem HashAgreesIn.of_window
    (h : HashAgreesIn hashing value (window cell base start count) offset length)
    (hw : offset + length ≤ count) : HashAgreesIn hashing value base (start + offset) length := by
  intro hash hm p x ho hp hx
  refine h hash hm (p - start) x (by omega) (by omega) ?_
  rw [get?, if_pos (by omega), Nat.add_sub_cancel' (by omega), hx]

theorem HashAgreesIn.of_reversed
    (h : HashAgreesIn hashing value (reversed cell base) offset length)
    (hw : offset + length ≤ base.length) :
    HashAgreesIn hashing value base (base.length - offset - length) length := by
  intro hash hm p x ho hp hx
  refine h hash hm (base.length - p - 1) x (by omega) (by omega) ?_
  rw [get?, if_pos (by omega), ← hx]
  congr 1
  omega

theorem HashAgreesIn.of_left
    (h : HashAgreesIn hashing value (link cell left right bias count) offset length)
    {o l : Nat} (ho : offset ≤ o) (hl : o + l ≤ offset + length) (hw : o + l ≤ left.length)
    (hc : left.length ≤ count) : HashAgreesIn hashing value left o l := by
  intro hash hm p x hop hp hx
  refine h hash hm p x (by omega) (by omega) ?_
  rw [get?, if_pos (by omega), if_pos (by omega), hx]

theorem HashAgreesIn.of_right
    (h : HashAgreesIn hashing value (link cell left right bias count) offset length)
    {o l : Nat} (ho : offset ≤ o + left.length) (hl : o + l + left.length ≤ offset + length)
    (hw : offset + length ≤ count) : HashAgreesIn hashing value right o l := by
  intro hash hm p x hop hp hx
  refine h hash hm (p + left.length) x (by omega) (by omega) ?_
  rw [get?, if_pos (by omega), if_neg (by omega), Nat.add_sub_cancel, hx]

end

/-- The search through a well-formed tree is the scan of the window, where equal elements have the
same hash. -/
theorem WellFormed.findWindow_eq_scan {s : Sequence α} (h : s.WellFormed hashing) {value : α}
    (hh : HashAgreesIn hashing value s offset length) (hw : offset + length ≤ s.length)
    (direction : Direction) :
    s.findWindow value offset length direction = scan direction offset length (s.holds value) := by
  by_cases hl : length = 0
  · subst hl
    unfold findWindow
    rw [if_pos rfl, scan_zero]
  induction s generalizing offset length direction with
  | nil =>
    simp only [Sequence.length] at hw
    omega
  | run cell item count => exact findWindow_run cell hw direction
  | flat cell items start count =>
    simp only [Sequence.length] at hw
    simp only [findWindow, if_neg hl]
    rw [searchSlice_eq, scan_shift, Nat.zero_add]
    apply scan_congr
    intro p ho hp
    rw [holds, get?, if_pos (by omega), Nat.add_assoc, Nat.add_sub_cancel' ho]
  | indexed cell items index hasher =>
    obtain ⟨-, rfl, hash, hm, rfl⟩ := wellFormed_indexed.mp h
    simp only [findWindow, if_neg hl]
    rw [HashIndex.find_build items value direction ?_ hw]
    · rfl
    · intro p x ho hp hx
      exact hh hash hm p x ho hp hx
  | window cell base start count ih =>
    obtain ⟨⟨-, -, -, hc⟩, hb⟩ := wellFormed_window.mp h
    simp only [Sequence.length] at hw
    simp only [findWindow, if_neg hl]
    rw [ih hb (hh.of_window hw) (by omega) _ hl, scan_unshift]
    apply scan_congr
    intro p _ hp
    rw [holds, holds, get?, if_pos (by omega)]
  | reversed cell base ih =>
    simp only [Sequence.length] at hw
    simp only [findWindow, if_neg hl]
    rw [ih (wellFormed_reversed.mp h).2 (hh.of_reversed hw) (by omega) _ hl, scan_mirror hw]
    apply scan_congr
    intro p _ hp
    rw [holds, holds, get?, if_pos (by omega)]
  | link cell left right bias count ihl ihr =>
    obtain ⟨⟨-, -, -, hc⟩, hwl, hwr⟩ := wellFormed_link.mp h
    simp only [Sequence.length] at hw
    simp only [findWindow, if_neg hl]
    split
    · rename_i ho
      rw [ihr hwr (hh.of_right (by omega) (by omega) hw) (by omega) _ hl,
        scan_link_right value ho hw]
    · rename_i ho
      split
      · rename_i he
        have hleft := hh.of_left (Nat.le_refl _) (Nat.le_refl _) he (by omega)
        rw [ihl hwl hleft he _ hl, scan_link_left value (by omega) he]
      · rename_i he
        have hlow (direction : Direction) :
            left.findWindow value offset (left.length - offset) direction =
              scan direction offset (left.length - offset)
                ((link cell left right bias count).holds value) := by
          have hleft := hh.of_left (Nat.le_refl _) (l := left.length - offset) (by omega) (by omega)
            (by omega)
          rw [ihl hwl hleft (by omega) _ (by omega), scan_link_left value (by omega) (by omega)]
        have hhigh (direction : Direction) :
            (right.findWindow value 0 (offset + length - left.length) direction).map
                (· + left.length) =
              scan direction left.length (offset + length - left.length)
                ((link cell left right bias count).holds value) := by
          have hright := hh.of_right (o := 0) (l := offset + length - left.length) (by omega)
            (by omega) hw
          rw [ihr hwr hright (by omega) _ (by omega),
            scan_link_right value (Nat.le_refl _) (by omega), Nat.sub_self]
        have hlen : length = left.length - offset + (offset + length - left.length) := by omega
        have hmid : offset + (left.length - offset) = left.length := by omega
        cases direction with
        | forward =>
          conv_rhs => rw [hlen, scan_forward_append, hmid, ← hlow, ← hhigh]
          dsimp only
          cases left.findWindow value offset (left.length - offset) .forward <;> rfl
        | backward =>
          conv_rhs => rw [hlen, scan_backward_append, hmid, ← hlow, ← hhigh]
          dsimp only
          cases right.findWindow value 0 (offset + length - left.length) .backward <;> rfl

theorem WellFormed.findWindow_eq {s : Sequence α} (h : s.WellFormed hashing)
    (hh : HashAgrees hashing) (value : α) (hw : offset + length ≤ s.length)
    (direction : Direction) :
    s.findWindow value offset length direction = scan direction offset length (s.holds value) :=
  h.findWindow_eq_scan (fun hash hm _ x _ _ _ hx => hh hash hm x value hx) hw direction

end Sequence

open Sequence

variable {α : Type} [BEq α] {hashing : Option (ElementHash α)}

/-- In a reachable sequence, every search of a window gives the first or the last position of the
window that holds the value, and all other searches follow from it. -/
theorem Reachable.search_eq_scan {s : Sequence α} (h : Reachable hashing s)
    (hh : HashAgrees hashing) (value : α) :
    (∀ offset length, offset + length ≤ s.length →
      FirstIn (s.holds value) offset (offset + length)
          (s.findWindow value offset length .forward) ∧
        LastIn (s.holds value) offset (offset + length)
          (s.findWindow value offset length .backward)) ∧
      (∀ offset, s.length < offset →
        s.find value offset = .error (.invalidArgument .offsetExceedsSequence)) ∧
      (∀ offset, offset ≤ s.length →
        ∃ found, s.find value offset = .ok found ∧
          FirstIn (s.holds value) offset s.length found) ∧
      LastIn (s.holds value) 0 s.length (s.findLast value) ∧
      (s.contains value = true ↔ ∃ p, p < s.length ∧ s.holds value p = true) ∧
      s.find value 0 = .ok (s.asList.indexOf value) ∧
      s.asList.lastIndexOf value = s.findLast value ∧
      s.asList.contains value = s.contains value := by
  have hw := h.wellFormed
  have hfind {offset : Nat} (ho : offset ≤ s.length) : s.find value offset =
      .ok (s.findWindow value offset (s.length - offset) .forward) := by
    rw [find, lengthFrom, if_pos ho]
    rfl
  refine ⟨fun offset length hl => ?_, fun offset ho => ?_, fun offset ho => ⟨_, hfind ho, ?_⟩,
    ?_, ?_, hfind (Nat.zero_le _), rfl, rfl⟩
  · rw [hw.findWindow_eq hh value hl, hw.findWindow_eq hh value hl]
    exact ⟨firstIn_scan _ offset length, lastIn_scan _ offset length⟩
  · rw [find, lengthFrom, if_neg (by omega)]
    rfl
  · have hf := firstIn_scan (s.holds value) offset (s.length - offset)
    rw [Nat.add_sub_cancel' ho] at hf
    rw [hw.findWindow_eq hh value (by omega)]
    exact hf
  · have hf := lastIn_scan (s.holds value) 0 s.length
    rw [Nat.zero_add] at hf
    rw [findLast, hw.findWindow_eq hh value (by omega)]
    exact hf
  · rw [contains, hw.findWindow_eq hh value (by omega), scan_isSome]
    simp

theorem hashAgrees_parity : HashAgrees (some parity) := by
  intro hash _ x y hxy
  rw [eq_of_beq hxy]

/-- A window over the boundary of a link, below which the value stands in an indexed leaf. -/
theorem search_eq_scan_mixed :
    FirstIn (mixed.holds 5) 1 4 (mixed.findWindow 5 1 3 .forward) ∧
      LastIn (mixed.holds 5) 1 4 (mixed.findWindow 5 1 3 .backward) :=
  (reachable_mixed.search_eq_scan hashAgrees_parity 5).1 1 3 (by decide)

example : (mixed.findWindow 5 1 3 .forward, mixed.findWindow 5 1 3 .backward) =
    (some 1, some 3) := by
  rfl

end SharedSequence
