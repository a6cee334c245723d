import SharedSequence.Proofs.GuardedAccess
import SharedSequence.Proofs.GuardedTable
import SharedSequence.Proofs.Search

namespace SharedSequence

open Guarded

variable {α : Type} [BEq α]

namespace HashIndex

theorem find_bounds {items : Array α} {hasher : α → UInt32} {hash : UInt32} {value : α}
    {offset length p : Nat} (hw : offset + length ≤ items.size) {direction : Direction}
    (hf : (build items hasher).find items hash value offset length direction = some p) :
    offset ≤ p ∧ p < offset + length := by
  unfold find at hf
  rw [bucket_build] at hf
  cases direction with
  | forward =>
    simp only [forward_window hw] at hf
    exact List.mem_range'_1.mp (List.mem_filter.mp (List.mem_of_find?_eq_some hf)).1
  | backward =>
    simp only [backward_window hw] at hf
    exact List.mem_range'_1.mp (List.mem_filter.mp
      (List.mem_reverse.mp (List.mem_of_find?_eq_some hf))).1

end HashIndex

namespace Sequence

/-- A position that was found in a part, moved to the whole. -/
def guardedMap (move : Nat → Guarded Nat) : Option Nat → Guarded (Option Nat)
  | none => return none
  | some position => do return some (← move position)

def guardedFindWindow (s : Sequence α) (value : α) (offset length : Nat) (direction : Direction) :
    Guarded (Option Nat) :=
  if length = 0 then return none
  else
    match s with
    | nil _ => return none
    | run _ item _ => do
      let position ←
        match direction with
        | .forward => pure offset
        | .backward => sub (← add offset length) 1
      return if item == value then some position else none
    | flat _ items start _ => do
      let window ← segment items (← add start offset) length
      guardedMap (add · offset) (searchSlice window value 0 window.size direction)
    | indexed _ items index hasher =>
      index.guardedFind items (hasher value) value offset length direction
    | window _ base start _ => do
      let found ← base.guardedFindWindow value (← add start offset) length direction
      guardedMap (sub · start) found
    | reversed _ base => do
      let start ← mirrored base.length offset length
      let found ← base.guardedFindWindow value start length direction.flip
      guardedMap (mirrored base.length · 1) found
    | link _ left right _ _ => do
      match ← LinkWindow.split left.length offset length with
      | .right offset => do
        let found ← right.guardedFindWindow value offset length direction
        guardedMap (add · left.length) found
      | .left => left.guardedFindWindow value offset length direction
      | .both low high =>
        match direction with
        | .forward =>
          match ← left.guardedFindWindow value offset low direction with
          | some position => return some position
          | none => do
            let found ← right.guardedFindWindow value 0 high direction
            guardedMap (add · left.length) found
        | .backward => do
          let found ← right.guardedFindWindow value 0 high direction
          match ← guardedMap (add · left.length) found with
          | some position => return some position
          | none => left.guardedFindWindow value offset low direction

variable {hashing : Option (ElementHash α)} {s needle : Sequence α} {value : α}
  {offset length p : Nat} {direction : Direction}

omit [BEq α] in
theorem guardedMap_eq {move : Nat → Guarded Nat} {f : Nat → Nat} {found : Option Nat}
    (h : ∀ p, found = some p → move p = .ok (f p)) :
    guardedMap move found = .ok (found.map f) := by
  cases found with
  | none => rfl
  | some p =>
    rw [guardedMap, h p rfl]
    rfl

theorem searchSlice_bounds {items : Array α} {start count : Nat}
    (hf : searchSlice items value start count direction = some p) : p < count := by
  rw [searchSlice_eq] at hf
  have hp := lt_of_scan hf
  omega

/-- Whatever the hashes are, a search gives a position of its window. -/
theorem WellFormed.findWindow_bounds (h : s.WellFormed hashing) (hw : offset + length ≤ s.length)
    (hf : s.findWindow value offset length direction = some p) :
    offset ≤ p ∧ p < offset + length := by
  induction s generalizing offset length direction p with
  | nil =>
    unfold findWindow at hf
    split at hf <;> cases hf
  | run cell item count =>
    unfold findWindow at hf
    split at hf
    · cases hf
    · dsimp only at hf
      split at hf
      · cases direction with
        | forward | backward =>
          cases hf
          omega
      · cases hf
  | flat cell items start count =>
    unfold findWindow at hf
    split at hf
    · cases hf
    · obtain ⟨q, hq, rfl⟩ := Option.map_eq_some_iff.mp hf
      have hlt := searchSlice_bounds hq
      omega
  | indexed cell items index hasher =>
    unfold findWindow at hf
    split at hf
    · cases hf
    · obtain ⟨-, rfl, -⟩ := wellFormed_indexed.mp h
      exact HashIndex.find_bounds hw hf
  | window cell base start count ih =>
    obtain ⟨⟨-, -, -, hl⟩, hb⟩ := wellFormed_window.mp h
    simp only [Sequence.length] at hw
    unfold findWindow at hf
    split at hf
    · cases hf
    · obtain ⟨q, hq, rfl⟩ := Option.map_eq_some_iff.mp hf
      have hbounds := ih hb (by omega) hq
      omega
  | reversed cell base ih =>
    obtain ⟨-, hb⟩ := wellFormed_reversed.mp h
    simp only [Sequence.length] at hw
    unfold findWindow at hf
    split at hf
    · cases hf
    · obtain ⟨q, hq, rfl⟩ := Option.map_eq_some_iff.mp hf
      have hbounds := ih hb (by omega) hq
      omega
  | link cell left right bias count ihl ihr =>
    obtain ⟨⟨-, -, -, hc⟩, hl, hr⟩ := wellFormed_link.mp h
    simp only [Sequence.length] at hw
    unfold findWindow at hf
    split at hf
    · cases hf
    · dsimp only at hf
      split at hf
      · obtain ⟨q, hq, rfl⟩ := Option.map_eq_some_iff.mp hf
        have hbounds := ihr hr (by omega) hq
        omega
      · split at hf
        · exact ihl hl (by omega) hf
        · have hlow {d : Direction} {q : Nat}
              (hq : left.findWindow value offset (left.length - offset) d = some q) :
              offset ≤ q ∧ q < offset + length := by
            have hbounds := ihl hl (by omega) hq
            omega
          have hhigh {d : Direction} {q : Nat}
              (hq : right.findWindow value 0 (offset + length - left.length) d = some q) :
              offset ≤ q + left.length ∧ q + left.length < offset + length := by
            have hbounds := ihr hr (by omega) hq
            omega
          cases direction with
          | forward =>
            dsimp only at hf
            split at hf
            · cases hf
              exact hlow ‹_›
            · obtain ⟨q, hq, rfl⟩ := Option.map_eq_some_iff.mp hf
              exact hhigh hq
          | backward =>
            dsimp only at hf
            split at hf
            · cases hf
              exact hhigh ‹_›
            · exact hlow hf

theorem searchSlice_extract {items : Array α} {start length : Nat}
    (h : start + length ≤ items.size) :
    searchSlice (items.extract start (start + length)) value 0
        (items.extract start (start + length)).size direction =
      searchSlice items value start length direction := by
  have hsize : (items.extract start (start + length)).size = length := by
    rw [Array.size_extract]
    omega
  rw [hsize, searchSlice_eq, searchSlice_eq]
  apply scan_congr
  intro p _ hp
  have hi : (items.extract start (start + length))[0 + p]? = items[start + p]? := by
    rw [Nat.zero_add, Array.getElem?_extract, if_pos (by omega)]
  rw [hi]

theorem Fits.guardedFindWindow_eq (h : s.Fits hashing) (value : α)
    (hw : offset + length ≤ s.length) (direction : Direction) :
    s.guardedFindWindow value offset length direction =
      .ok (s.findWindow value offset length direction) := by
  induction s generalizing offset length direction with
  | nil =>
    unfold guardedFindWindow findWindow
    split <;> rfl
  | run cell item count =>
    have hs : count < wordSize := h.short
    simp only [Sequence.length] at hw
    unfold guardedFindWindow findWindow
    split
    · rfl
    · cases direction with
      | forward => rfl
      | backward =>
        simp only [add_eq (show offset + length < wordSize by omega), ok_bind,
          sub_eq (show 1 ≤ offset + length by omega)]
        rfl
  | flat cell items start count =>
    obtain ⟨hs, hl⟩ := h.flat
    simp only [Sequence.length] at hw
    unfold guardedFindWindow findWindow
    split
    · rfl
    · have hi : start + offset + length ≤ items.size := by omega
      simp only [add_eq (show start + offset < wordSize by omega), ok_bind, segment_eq hi hs,
        searchSlice_extract hi]
      apply guardedMap_eq
      intro p hp
      have hlt := searchSlice_bounds hp
      exact add_eq (by omega)
  | indexed cell items index hasher =>
    obtain ⟨hs, rfl⟩ := h.indexed
    unfold guardedFindWindow findWindow
    split
    · rfl
    · exact HashIndex.guardedFind_eq items hasher _ value hs hw direction
  | window cell base start count ih =>
    obtain ⟨hb, hl⟩ := h.window
    have hs := hb.short
    simp only [Sequence.length] at hw
    unfold guardedFindWindow findWindow
    split
    · rfl
    · simp only [add_eq (show start + offset < wordSize by omega), ok_bind,
        ih hb (show start + offset + length ≤ base.length by omega)]
      apply guardedMap_eq
      intro p hp
      have hbounds := hb.wellFormed.findWindow_bounds (by omega) hp
      exact sub_eq (by omega)
  | reversed cell base ih =>
    simp only [Sequence.length] at hw
    unfold guardedFindWindow findWindow
    split
    · rfl
    · have hi : base.length - offset - length + length ≤ base.length := by omega
      simp only [mirrored_eq hw, ok_bind, ih h.reversed hi]
      apply guardedMap_eq
      intro p hp
      have hbounds := h.reversed.wellFormed.findWindow_bounds hi hp
      exact mirrored_eq (by omega)
  | link cell left right bias count ihl ihr =>
    obtain ⟨hl, hr, hc⟩ := h.link
    have hs : count < wordSize := h.short
    simp only [Sequence.length] at hw
    -- A position that the right part finds is one of the window.
    have hright {first rest : Nat} {direction : Direction} (hi : first + rest ≤ right.length) :
        guardedMap (add · left.length) (right.findWindow value first rest direction) =
          .ok ((right.findWindow value first rest direction).map (· + left.length)) := by
      apply guardedMap_eq
      intro p hp
      have hbounds := hr.wellFormed.findWindow_bounds hi hp
      exact add_eq (by omega)
    unfold guardedFindWindow findWindow
    split
    · rfl
    · dsimp only
      by_cases ho : left.length ≤ offset
      · have hi : offset - left.length + length ≤ right.length := by omega
        rw [LinkWindow.split_right ho, if_pos ho]
        simp only [ok_bind, ihr hr hi]
        exact hright hi
      · by_cases he : offset + length ≤ left.length
        · rw [LinkWindow.split_left (by omega) he hl.short, if_neg ho, if_pos he]
          exact ihl hl he direction
        · have hlow : offset + (left.length - offset) ≤ left.length := by omega
          have hhigh : 0 + (offset + length - left.length) ≤ right.length := by omega
          rw [LinkWindow.split_both (by omega) (by omega) (by omega), if_neg ho, if_neg he]
          cases direction with
          | forward =>
            simp only [ok_bind, ihl hl hlow, ihr hr hhigh]
            cases left.findWindow value offset (left.length - offset) .forward with
            | none => exact hright hhigh
            | some p => rfl
          | backward =>
            simp only [ok_bind, ihr hr hhigh, hright hhigh]
            cases right.findWindow value 0 (offset + length - left.length) .backward with
            | none => exact ihl hl hlow .backward
            | some p => rfl

def guardedMatchesFrom (s needle : Sequence α) (position : Nat) : Nat → Nat → Guarded Bool
  | _, 0 => return true
  | index, count + 1 => do
    let element ← s.guardedGet (← add position index)
    if element == (← needle.guardedGet index) then
      guardedMatchesFrom s needle position (index + 1) count
    else return false

def guardedMatchesAt (s needle : Sequence α) (position : Nat) : Guarded Bool :=
  s.guardedMatchesFrom needle position 0 needle.length

def guardedFindCandidate (s needle : Sequence α) (head : α) (lastStart : Nat) :
    Nat → Nat → Guarded (Option Nat)
  | _, 0 => return none
  | start, tries + 1 =>
    if start ≤ lastStart then do
      let length ← add (← sub lastStart start) 1
      match ← s.guardedFindWindow head start length .forward with
      | none => return none
      | some candidate =>
        if ← s.guardedMatchesAt needle candidate then return some candidate
        else guardedFindCandidate s needle head lastStart (← add candidate 1) tries
    else return none

def guardedFind (s : Sequence α) (value : α) (offset : Nat) :
    Guarded (Except SequenceError (Option Nat)) :=
  match s.lengthFrom offset with
  | .error e => return .error e
  | .ok length => do return .ok (← s.guardedFindWindow value offset length .forward)

def guardedFindSequence (s needle : Sequence α) (offset : Nat) :
    Guarded (Except SequenceError (Option Nat)) := do
  let first? ← needle.guardedGet 0
  match needle.length, first? with
  | 1, some value => s.guardedFind value offset
  | _, _ =>
    match s.lengthFrom offset with
    | .error e => return .error e
    | .ok remaining =>
      if needle.isEmpty then return .ok (some offset)
      else if remaining < needle.length then return .ok none
      else
        match first? with
        | none => return .ok none
        | some head => do
          let lastStart ← sub s.length needle.length
          let found ← s.guardedFindCandidate needle head lastStart offset (lastStart + 1 - offset)
          return .ok found

theorem Fits.guardedMatchesFrom_eq (hs : s.Fits hashing) (hn : needle.Fits hashing)
    {position index count : Nat} (hw : position + index + count ≤ s.length) :
    s.guardedMatchesFrom needle position index count =
      .ok (s.matchesFrom needle position index count) := by
  have hl := hs.short
  induction count generalizing index with
  | zero => rfl
  | succ count ih =>
    rw [guardedMatchesFrom, add_eq (by omega), ok_bind, hs.guardedGet_eq, ok_bind,
      hn.guardedGet_eq, ok_bind, matchesFrom, ih (by omega)]
    cases s.get? (position + index) == needle.get? index <;> rfl

theorem Fits.guardedFindCandidate_eq (hs : s.Fits hashing) (hn : needle.Fits hashing) (head : α)
    {lastStart start : Nat} (tries : Nat) (hw : lastStart + needle.length ≤ s.length)
    (h0 : 0 < needle.length) : s.guardedFindCandidate needle head lastStart start tries =
      .ok (s.findCandidate needle head lastStart start tries) := by
  have hl := hs.short
  induction tries generalizing start with
  | zero => rfl
  | succ tries ih =>
    unfold guardedFindCandidate findCandidate
    split
    · rename_i hle
      have hi : start + (lastStart - start + 1) ≤ s.length := by omega
      rw [sub_eq hle, ok_bind, add_eq (by omega), ok_bind, hs.guardedFindWindow_eq head hi, ok_bind]
      cases hf : s.findWindow head start (lastStart - start + 1) .forward with
      | none => rfl
      | some candidate =>
        have hbounds := hs.wellFormed.findWindow_bounds hi hf
        have hm : s.guardedMatchesAt needle candidate = .ok (s.matchesAt needle candidate) :=
          hs.guardedMatchesFrom_eq hn (by omega)
        simp only [hm, ok_bind]
        cases s.matchesAt needle candidate with
        | true => rfl
        | false =>
          simp only [add_eq (show candidate + 1 < wordSize by omega), ok_bind]
          exact ih
    · rfl

theorem Fits.guardedFind_eq (h : s.Fits hashing) (value : α) (offset : Nat) :
    s.guardedFind value offset = .ok (s.find value offset) := by
  by_cases ho : offset ≤ s.length
  · have hl : s.lengthFrom offset = .ok (s.length - offset) := if_pos ho
    rw [guardedFind, find, hl]
    dsimp only
    rw [h.guardedFindWindow_eq value (by omega)]
    rfl
  · have hl : s.lengthFrom offset = .error (.invalidArgument .offsetExceedsSequence) := if_neg ho
    rw [guardedFind, find, hl]
    rfl

theorem findSequence_eq_of_not_single (offset : Nat)
    (h : ∀ value, needle.length = 1 → needle.first? = some value → False) :
    s.findSequence needle offset = do
      let remaining ← s.lengthFrom offset
      if needle.isEmpty then return some offset
      else if remaining < needle.length then return none
      else
        match needle.first? with
        | none => return none
        | some head =>
          let lastStart := s.length - needle.length
          return s.findCandidate needle head lastStart offset (lastStart + 1 - offset) := by
  unfold findSequence
  split
  · exact absurd ‹_› (h _ ‹_›)
  · rfl

theorem Fits.guardedFindSequence_eq (hs : s.Fits hashing) (hn : needle.Fits hashing)
    (offset : Nat) : s.guardedFindSequence needle offset = .ok (s.findSequence needle offset) := by
  have hf : needle.guardedGet 0 = .ok needle.first? := hn.guardedGet_eq 0
  unfold guardedFindSequence
  rw [hf, ok_bind]
  split
  · rename_i value hlen hfirst
    rw [findSequence, hlen, hfirst]
    exact hs.guardedFind_eq value offset
  · rename_i hlong
    rw [findSequence_eq_of_not_single offset hlong]
    by_cases ho : offset ≤ s.length
    · have hl : s.lengthFrom offset = .ok (s.length - offset) := if_pos ho
      rw [hl]
      change (if needle.isEmpty then _ else _) = Except.ok (if needle.isEmpty then _ else _)
      by_cases he : needle.isEmpty
      · rw [if_pos he, if_pos he]
        rfl
      · rw [if_neg he, if_neg he]
        by_cases hr : s.length - offset < needle.length
        · rw [if_pos hr, if_pos hr]
          rfl
        · rw [if_neg hr, if_neg hr]
          cases needle.first? with
          | none => rfl
          | some head =>
            have h0 : 0 < needle.length := by
              apply Nat.pos_of_ne_zero
              intro h0
              exact he (beq_iff_eq.mpr h0)
            dsimp only
            rw [sub_eq (by omega), ok_bind,
              hs.guardedFindCandidate_eq hn head _ (by omega) h0]
            rfl
    · have hl : s.lengthFrom offset = .error (.invalidArgument .offsetExceedsSequence) := if_neg ho
      rw [hl]
      rfl

end Sequence

end SharedSequence
