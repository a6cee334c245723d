import SharedSequence.ListView
import SharedSequence.Proofs.Compaction
import SharedSequence.Proofs.Leaves

namespace SharedSequence

/-- A step of a chain of views. -/
inductive ViewStep where
  | window (offset length : Nat)
  | reversal

namespace ViewStep

/-- A sequence with a number of elements admits the step. -/
def Fits : ViewStep → Nat → Prop
  | window offset length, n => offset + length ≤ n
  | reversal, _ => True

def length : ViewStep → Nat → Nat
  | window _ length, _ => length
  | reversal, n => n

/-- The position before the step that a position after it shows. -/
def origin : ViewStep → Nat → Nat → Nat
  | window offset _, _, i => offset + i
  | reversal, n, i => n - 1 - i

def FitAll : List ViewStep → Nat → Prop
  | [], _ => True
  | step :: rest, n => step.Fits n ∧ FitAll rest (step.length n)

def lengthAll : List ViewStep → Nat → Nat
  | [], n => n
  | step :: rest, n => lengthAll rest (step.length n)

def originAll : List ViewStep → Nat → Nat → Nat
  | [], _, i => i
  | step :: rest, n, i => step.origin n (originAll rest (step.length n) i)

theorem origin_lt {step : ViewStep} {n i : Nat} (h : step.Fits n) (hi : i < step.length n) :
    step.origin n i < n := by
  cases step with
  | window offset count =>
    have hi : i < count := hi
    exact Nat.lt_of_lt_of_le (Nat.add_lt_add_left hi offset) h
  | reversal =>
    have hi : i < n := hi
    change n - 1 - i < n
    omega

theorem originAll_lt {steps : List ViewStep} {n i : Nat} (h : FitAll steps n)
    (hi : i < lengthAll steps n) : originAll steps n i < n := by
  induction steps generalizing n with
  | nil => exact hi
  | cons step steps ih => exact origin_lt h.1 (ih h.2 hi)

variable {α : Type}

def apply (s : Sequence α) : ViewStep → Except SequenceError (StoreM (Sequence α))
  | window offset length => s.slice offset length
  | reversal => .ok s.reverse

/-- The views of a chain, each made of the one before it; the first step that is refused ends the
chain. -/
def applyAll : List ViewStep → Sequence α → ExceptT SequenceError StoreM (Sequence α)
  | [], s => return s
  | step :: rest, s =>
    match step.apply s with
    | .ok make => do applyAll rest (← make)
    | .error error => throw error

end ViewStep

namespace Sequence

variable {α : Type}

/-- The sequence has a number of elements, and each of its positions shows a position of another
sequence. -/
def Shows (t s : Sequence α) (length : Nat) (origin : Nat → Nat) : Prop :=
  t.length = length ∧ ∀ i, i < length → t.get i = s.get (origin i)

theorem Shows.trans {s t u : Sequence α} {m n : Nat} {f g : Nat → Nat} (h : t.Shows s m f)
    (h' : u.Shows t n g) (hg : ∀ i, i < n → g i < m) : u.Shows s n fun i => f (g i) := by
  refine ⟨h'.1, ?_⟩
  intro i hi
  rw [h'.2 i hi, h.2 _ (hg i hi)]

theorem slice_self (s : Sequence α) : s.slice 0 s.length = .ok (return s) := by
  rw [slice, if_pos ⟨rfl, rfl⟩]

theorem slice_eq_ok {s : Sequence α} {offset length : Nat} (hw : offset + length ≤ s.length) :
    s.slice offset length = .ok (s.cut offset length) := by
  unfold slice
  split
  · rename_i hall
    unfold cut
    rw [if_pos hall]
  · rw [checkWindow, if_pos hw]
    rfl

theorem slice_eq_error {s : Sequence α} {offset length : Nat} (hw : s.length < offset + length) :
    s.slice offset length = .error (.invalidArgument .windowExceedsSequence) := by
  rw [slice, if_neg (by omega), checkWindow, if_neg (by omega)]
  rfl

theorem sliceFrom_eq_ok {s : Sequence α} {offset : Nat} (ho : offset ≤ s.length) :
    s.sliceFrom offset = .ok (s.cut offset (s.length - offset)) := by
  rw [sliceFrom, lengthFrom, if_pos ho]
  exact slice_eq_ok (by omega)

theorem sliceFrom_eq_error {s : Sequence α} {offset : Nat} (ho : s.length < offset) :
    s.sliceFrom offset = .error (.invalidArgument .offsetExceedsSequence) := by
  rw [sliceFrom, lengthFrom, if_neg (by omega)]
  rfl

variable [BEq α] {hashing : Option (ElementHash α)}

theorem WellFormed.shows {s t : Sequence α} (hs : s.WellFormed hashing) (ht : t.WellFormed hashing)
    {length : Nat} {origin : Nat → Nat} (hl : t.toList.length = length)
    (he : ∀ i, i < length → t.toList[i]? = s.toList[origin i]?) :
    t.Shows s length origin := by
  refine ⟨ht.length_toList.symm.trans hl, ?_⟩
  intro i hi
  have hi' : i < t.toList.length := by rw [hl]; exact hi
  have ho := he i hi
  rw [List.getElem?_eq_getElem hi'] at ho
  rw [get, get, ht.get?_eq, hs.get?_eq, ← ho, List.getElem?_eq_getElem hi']

theorem WellFormed.cut_shows {s : Sequence α} (h : s.WellFormed hashing) {offset length : Nat}
    (hw : offset + length ≤ s.length) : Yields (s.cut offset length) fun t =>
      t.WellFormed hashing ∧ t.Shows s length (offset + ·) := by
  refine ((h.cut hw).and (h.toList_cut hw)).mono ?_
  rintro t ⟨ht, he⟩
  refine ⟨ht, h.shows ht ?_ ?_⟩
  · rw [he, length_slots (by rw [h.length_toList]; exact hw)]
  · intro i hi
    rw [he, getElem?_slots hi]

theorem WellFormed.reverse_shows {s : Sequence α} (h : s.WellFormed hashing) :
    Yields s.reverse fun t => t.WellFormed hashing ∧ t.Shows s s.length (s.length - 1 - ·) := by
  refine (h.reverse.and h.toList_reverse).mono ?_
  rintro t ⟨ht, he⟩
  refine ⟨ht, h.shows ht ?_ ?_⟩
  · rw [he, List.length_reverse, h.length_toList]
  · intro i hi
    rw [he, List.getElem?_reverse (by rw [h.length_toList]; exact hi), h.length_toList]

theorem WellFormed.apply_shows {s : Sequence α} (h : s.WellFormed hashing) {step : ViewStep}
    (hf : step.Fits s.length) : ∃ make, step.apply s = .ok make ∧ Yields make fun t =>
      t.WellFormed hashing ∧ t.Shows s (step.length s.length) (step.origin s.length) := by
  cases step with
  | window offset length => exact ⟨_, slice_eq_ok hf, h.cut_shows hf⟩
  | reversal => exact ⟨_, rfl, h.reverse_shows⟩

theorem WellFormed.applyAll_shows {s : Sequence α} (h : s.WellFormed hashing)
    {steps : List ViewStep} (hf : ViewStep.FitAll steps s.length) (store : Store) :
    ∃ t store', (ViewStep.applyAll steps s).run.run store = (.ok t, store') ∧
      t.Shows s (ViewStep.lengthAll steps s.length) (ViewStep.originAll steps s.length) := by
  induction steps generalizing s store with
  | nil => exact ⟨s, store, rfl, rfl, fun i _ => rfl⟩
  | cons step steps ih =>
    obtain ⟨make, hm, hy⟩ := h.apply_shows hf.1
    obtain ⟨ht, hs⟩ := hy store
    obtain ⟨u, store', hr, hu⟩ := ih (s := (make.run store).1) ht (by rw [hs.1]; exact hf.2)
      (make.run store).2
    rw [hs.1] at hu
    refine ⟨u, store', ?_, hs.trans hu fun i hi => ViewStep.originAll_lt hf.2 hi⟩
    rw [ViewStep.applyAll, hm]
    exact hr

theorem WellFormed.applyAll_eq_error {s : Sequence α} (h : s.WellFormed hashing)
    {steps : List ViewStep} (hf : ¬ ViewStep.FitAll steps s.length) (store : Store) :
    ∃ store', (ViewStep.applyAll steps s).run.run store =
      (.error (.invalidArgument .windowExceedsSequence), store') := by
  induction steps generalizing s store with
  | nil => exact absurd trivial hf
  | cons step steps ih =>
    by_cases hs : step.Fits s.length
    · obtain ⟨make, hm, hy⟩ := h.apply_shows hs
      obtain ⟨ht, hsh⟩ := hy store
      have hrest : ¬ ViewStep.FitAll steps (make.run store).1.length := by
        rw [hsh.1]
        exact fun hall => hf ⟨hs, hall⟩
      obtain ⟨store', hr⟩ := ih ht hrest (make.run store).2
      refine ⟨store', ?_⟩
      rw [ViewStep.applyAll, hm]
      exact hr
    · cases step with
      | reversal => exact absurd trivial hs
      | window offset length =>
        refine ⟨store, ?_⟩
        rw [ViewStep.applyAll, ViewStep.apply, slice_eq_error (by simpa [ViewStep.Fits] using hs)]
        rfl

end Sequence

open Sequence

variable {α : Type} [BEq α] {hashing : Option (ElementHash α)}

/-- Windows of a reachable sequence, given by offset and length, by offset alone or by both ends,
are refused exactly where they exceed the sequence, and otherwise show the positions in them. The
whole window is the sequence itself. A chain of windows and reversals is refused exactly where one
of its windows exceeds what the steps before it leave, and otherwise shows the positions that its
steps trace back. -/
theorem Reachable.slice_shows_window {s : Sequence α} (h : Reachable hashing s) :
    (∀ offset length,
      (s.length < offset + length →
        s.slice offset length = .error (.invalidArgument .windowExceedsSequence)) ∧
      (offset + length ≤ s.length → ∃ make, s.slice offset length = .ok make ∧
        Yields make (·.Shows s length (offset + ·)))) ∧
      s.slice 0 s.length = .ok (return s) ∧
      (∀ steps store,
        (ViewStep.FitAll steps s.length →
          ∃ t store', (ViewStep.applyAll steps s).run.run store = (.ok t, store') ∧
            t.Shows s (ViewStep.lengthAll steps s.length) (ViewStep.originAll steps s.length)) ∧
        (¬ ViewStep.FitAll steps s.length →
          ∃ store', (ViewStep.applyAll steps s).run.run store =
            (.error (.invalidArgument .windowExceedsSequence), store'))) ∧
      (∀ offset,
        (s.length < offset →
          s.sliceFrom offset = .error (.invalidArgument .offsetExceedsSequence)) ∧
        (offset ≤ s.length → ∃ make, s.sliceFrom offset = .ok make ∧
          Yields make (·.Shows s (s.length - offset) (offset + ·)))) ∧
      ∀ start stop,
        (stop < start →
          s.asList.subList start stop = .error (.invalidArgument .boundsReversed)) ∧
        (start ≤ stop → s.length < stop →
          s.asList.subList start stop = .error (.invalidArgument .windowExceedsSequence)) ∧
        (start ≤ stop → stop ≤ s.length → ∃ make, s.asList.subList start stop = .ok make ∧
          Yields make (·.Shows s (stop - start) (start + ·))) := by
  have hw := h.wellFormed
  have hcut {offset length : Nat} (hl : offset + length ≤ s.length) :
      Yields (s.cut offset length) (·.Shows s length (offset + ·)) :=
    (hw.cut_shows hl).mono fun t ht => ht.2
  refine ⟨?_, s.slice_self, ?_, ?_, ?_⟩
  · intro offset length
    exact ⟨slice_eq_error, fun hl => ⟨_, slice_eq_ok hl, hcut hl⟩⟩
  · intro steps store
    exact ⟨fun hf => hw.applyAll_shows hf store, fun hf => hw.applyAll_eq_error hf store⟩
  · intro offset
    exact ⟨sliceFrom_eq_error, fun ho => ⟨_, sliceFrom_eq_ok ho, hcut (by omega)⟩⟩
  · intro start stop
    refine ⟨fun hr => ?_, fun hr hs => ?_, fun hr hs => ⟨_, ?_, hcut (by omega)⟩⟩
    · rw [ListView.subList, if_neg (by omega)]
    · rw [ListView.subList, if_pos hr]
      exact slice_eq_error (by change s.length < _; omega)
    · rw [ListView.subList, if_pos hr]
      exact slice_eq_ok (by change _ ≤ s.length; omega)

theorem slice_shows_window_mixed : ∃ t store',
    (ViewStep.applyAll [.window 1 3, .reversal, .window 1 2] mixed).run.run {} = (.ok t, store') ∧
      t.length = 2 ∧ t.get 0 = mixed.get 2 ∧ t.get 1 = mixed.get 1 := by
  obtain ⟨t, store', hr, hl, hg⟩ :=
    (reachable_mixed.slice_shows_window.2.2.1 [.window 1 3, .reversal, .window 1 2] {}).1
      (by simp [ViewStep.FitAll, ViewStep.Fits, ViewStep.length, mixed, Sequence.length])
  exact ⟨t, store', hr, hl, hg 0 (by decide), hg 1 (by decide)⟩

end SharedSequence
