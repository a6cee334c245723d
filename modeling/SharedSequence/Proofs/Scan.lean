import Mathlib.Data.List.Find
import SharedSequence.Direction

namespace SharedSequence

/-- The first position met in the direction, inside a window, that passes the test. -/
def scan (direction : Direction) (offset length : Nat) (test : Nat → Bool) : Option Nat :=
  (direction.orient (List.range' offset length)).find? test

section

variable {direction : Direction} {offset length n p : Nat} {test test' : Nat → Bool}

theorem scan_zero : scan direction offset 0 test = none := by
  cases direction <;> rfl

theorem scan_forward_succ :
    scan .forward offset (length + 1) test =
      if test offset then some offset else scan .forward (offset + 1) length test := by
  simp only [scan, Direction.orient, List.range'_succ, List.find?_cons]
  cases test offset <;> rfl

theorem scan_backward_succ :
    scan .backward offset (length + 1) test =
      if test (offset + length) then some (offset + length)
      else scan .backward offset length test := by
  simp only [scan, Direction.orient, List.range'_1_concat, List.reverse_concat, List.find?_cons]
  cases test (offset + length) <;> rfl

theorem scan_false : (scan direction offset length fun _ => false) = none := by
  rw [scan, List.find?_eq_none]
  simp

theorem lt_of_scan (h : scan direction offset length test = some p) : p < offset + length := by
  have hm := Direction.mem_orient.mp (List.mem_of_find?_eq_some h)
  exact (List.mem_range'_1.mp hm).2

theorem scan_congr (h : ∀ p, offset ≤ p → p < offset + length → test p = test' p) :
    scan direction offset length test = scan direction offset length test' := by
  apply List.find?_congr
  intro p hp
  obtain ⟨ho, hl⟩ := List.mem_range'_1.mp (Direction.mem_orient.mp hp)
  exact h p ho hl

theorem scan_shift (k : Nat) :
    (scan direction offset length test).map (· + k) =
      scan direction (offset + k) length fun p => test (p - k) := by
  have hr : List.range' (offset + k) length = (List.range' offset length).map (· + k) := by
    rw [Nat.add_comm, ← List.map_add_range']
    exact List.map_congr_left fun p _ => Nat.add_comm k p
  rw [scan, scan, hr, Direction.orient_map, List.find?_map]
  congr 2
  funext p
  rw [Function.comp_apply, Nat.add_sub_cancel]

theorem scan_unshift (k : Nat) :
    (scan direction (k + offset) length test).map (· - k) =
      scan direction offset length fun p => test (k + p) := by
  rw [scan, scan, ← List.map_add_range', Direction.orient_map, List.find?_map, Option.map_map]
  have hid : (fun p => p - k) ∘ (fun p => k + p) = id := funext fun p => Nat.add_sub_cancel_left k p
  rw [hid, Option.map_id]
  rfl

/-- A window that is seen from the other end. -/
theorem scan_mirror (h : offset + length ≤ n) :
    (scan direction.flip (n - offset - length) length test).map (n - · - 1) =
      scan direction offset length fun p => test (n - p - 1) := by
  have hr : List.range' (n - offset - length) length =
      ((List.range' offset length).map (n - · - 1)).reverse := by
    refine List.ext_getElem (by simp) fun i hi _ => ?_
    have hl : i < length := by simpa using hi
    simp only [List.getElem_range', List.getElem_reverse, List.getElem_map, List.length_map,
      List.length_range']
    omega
  rw [scan, hr, Direction.orient_flip, List.reverse_reverse, Direction.orient_map, List.find?_map,
    Option.map_map]
  change (scan direction offset length fun p => test (n - p - 1)).map _ = _
  cases hs : scan direction offset length fun p => test (n - p - 1) with
  | none => rfl
  | some p =>
    have hp := lt_of_scan hs
    simp only [Option.map_some, Function.comp_apply, Option.some.injEq]
    omega

theorem scan_forward_append (k : Nat) :
    scan .forward offset (k + length) test =
      (scan .forward offset k test).or (scan .forward (offset + k) length test) := by
  rw [scan, ← List.range'_append_1]
  exact List.find?_append

theorem scan_backward_append (k : Nat) :
    scan .backward offset (k + length) test =
      (scan .backward (offset + k) length test).or (scan .backward offset k test) := by
  rw [scan, ← List.range'_append_1, Direction.orient, List.reverse_append]
  exact List.find?_append

/-- The result is the first place, from a start up to an end, that passes the test. -/
def FirstIn (test : Nat → Bool) (start stop : Nat) : Option Nat → Prop
  | some p => start ≤ p ∧ p < stop ∧ test p = true ∧ ∀ q, start ≤ q → q < p → test q = false
  | none => ∀ q, start ≤ q → q < stop → test q = false

def LastIn (test : Nat → Bool) (start stop : Nat) : Option Nat → Prop
  | some p => start ≤ p ∧ p < stop ∧ test p = true ∧ ∀ q, p < q → q < stop → test q = false
  | none => ∀ q, start ≤ q → q < stop → test q = false

theorem firstIn_scan (test : Nat → Bool) (offset length : Nat) :
    FirstIn test offset (offset + length) (scan .forward offset length test) := by
  cases hs : scan .forward offset length test with
  | none =>
    have hn := List.find?_range'_eq_none.mp hs
    simpa [FirstIn] using hn
  | some p =>
    obtain ⟨ht, hm, hq⟩ := List.find?_range'_eq_some.mp hs
    obtain ⟨ho, hl⟩ := List.mem_range'_1.mp hm
    exact ⟨ho, hl, ht, by simpa using hq⟩

theorem lastIn_scan (test : Nat → Bool) (offset length : Nat) :
    LastIn test offset (offset + length) (scan .backward offset length test) := by
  induction length with
  | zero =>
    rw [scan_zero]
    exact fun q ho hq => by omega
  | succ length ih =>
    rw [scan_backward_succ]
    split
    · rename_i ht
      exact ⟨by omega, by omega, ht, fun q hq hq' => by omega⟩
    · rename_i ht
      have hlast : ∀ q, offset + length ≤ q → q < offset + (length + 1) → test q = false := by
        intro q hq hq'
        obtain rfl : q = offset + length := by omega
        simpa using ht
      cases hs : scan .backward offset length test with
      | none =>
        rw [hs] at ih
        intro q ho hq
        rcases Nat.lt_or_ge q (offset + length) with hlt | hge
        · exact ih q ho hlt
        · exact hlast q hge hq
      | some p =>
        rw [hs] at ih
        obtain ⟨ho, hl, ht, hq⟩ := ih
        refine ⟨ho, Nat.lt_succ_of_lt hl, ht, ?_⟩
        intro q hp hq'
        rcases Nat.lt_or_ge q (offset + length) with hlt | hge
        · exact hq q hp hlt
        · exact hlast q hge hq'

theorem scan_isSome : (scan direction offset length test).isSome ↔
    ∃ p, offset ≤ p ∧ p < offset + length ∧ test p = true := by
  simp only [scan, List.find?_isSome, Direction.mem_orient, List.mem_range'_1, and_assoc]

end

end SharedSequence
