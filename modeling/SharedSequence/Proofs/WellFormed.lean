import SharedSequence.ElementHash
import SharedSequence.Proofs.Join
import SharedSequence.Sequence.Slice

namespace SharedSequence.Sequence

variable {α : Type} [BEq α] {hashing : Option (ElementHash α)}

def Varied (items : Array α) : Prop :=
  ∃ x ∈ items, ∃ y ∈ items, (x == y) = false

def IsIndexLeaf : Sequence α → Prop
  | indexed _ _ _ _ => True
  | _ => False

/-- The reversal of the node is a node of its own. -/
def TakesReversal : Sequence α → Prop
  | nil _ | run _ _ _ | reversed _ _ => False
  | flat _ _ _ _ | indexed _ _ _ _ | window _ _ _ _ | link _ _ _ _ _ => True

/-- What a node promises about its own fields. -/
def WellFormedNode (hashing : Option (ElementHash α)) : Sequence α → Prop
  | nil _ => True
  | run _ _ count => 0 < count
  | flat _ items start count => 0 < count ∧ start + count ≤ items.size
  | indexed _ items index hasher =>
    Varied items ∧ index = .build items hasher ∧ ∃ hash ∈ hashing, hasher = hash.hash32
  | window _ base start count =>
    base.IsIndexLeaf ∧ 0 < count ∧ count < base.length ∧ start + count ≤ base.length
  | reversed _ base => 2 ≤ base.length ∧ base.TakesReversal
  | link _ left right bias count =>
    bias.Fits left.shape right.shape ∧ 0 < left.length ∧ 0 < right.length ∧
      count = left.length + right.length

def WellFormed (hashing : Option (ElementHash α)) (s : Sequence α) : Prop :=
  s.Everywhere (WellFormedNode hashing)

@[simp]
theorem wellFormed_nil {cell : Cell} : (nil cell : Sequence α).WellFormed hashing :=
  everywhere_nil.mpr trivial

@[simp]
theorem wellFormed_run {cell : Cell} {value : α} {count : Nat} :
    (run cell value count).WellFormed hashing ↔ 0 < count :=
  everywhere_run

@[simp]
theorem wellFormed_flat {cell : Cell} {items : Array α} {start count : Nat} :
    (flat cell items start count).WellFormed hashing ↔ 0 < count ∧ start + count ≤ items.size :=
  everywhere_flat

@[simp]
theorem wellFormed_indexed {cell : Cell} {items : Array α} {index : HashIndex}
    {hasher : α → UInt32} : (indexed cell items index hasher).WellFormed hashing ↔
      Varied items ∧ index = .build items hasher ∧ ∃ hash ∈ hashing, hasher = hash.hash32 :=
  everywhere_indexed

@[simp]
theorem wellFormed_window {cell : Cell} {base : Sequence α} {start count : Nat} :
    (window cell base start count).WellFormed hashing ↔
      (base.IsIndexLeaf ∧ 0 < count ∧ count < base.length ∧ start + count ≤ base.length) ∧
        base.WellFormed hashing :=
  everywhere_window

@[simp]
theorem wellFormed_reversed {cell : Cell} {base : Sequence α} :
    (reversed cell base).WellFormed hashing ↔
      (2 ≤ base.length ∧ base.TakesReversal) ∧ base.WellFormed hashing :=
  everywhere_reversed

@[simp]
theorem wellFormed_link {cell : Cell} {left right : Sequence α} {bias : Bias} {count : Nat} :
    (link cell left right bias count).WellFormed hashing ↔
      (bias.Fits left.shape right.shape ∧ 0 < left.length ∧ 0 < right.length ∧
        count = left.length + right.length) ∧
          left.WellFormed hashing ∧ right.WellFormed hashing :=
  everywhere_link

theorem WellFormed.balanced {s : Sequence α} (h : s.WellFormed hashing) : s.Balanced := by
  refine Everywhere.mono h fun node hn => ?_
  cases node with
  | link => exact hn.1
  | nil | run | flat | indexed | window | reversed => trivial

theorem Varied.size_pos {items : Array α} (h : Varied items) : 0 < items.size := by
  obtain ⟨x, hx, -⟩ := h
  exact Array.size_pos_of_mem hx

theorem Varied.two_le_size [ReflBEq α] {items : Array α} (h : Varied items) : 2 ≤ items.size := by
  obtain ⟨x, hx, y, hy, hxy⟩ := h
  obtain ⟨i, hi, rfl⟩ := Array.getElem_of_mem hx
  obtain ⟨j, hj, rfl⟩ := Array.getElem_of_mem hy
  have hij : i ≠ j := by
    rintro rfl
    rw [BEq.rfl] at hxy
    cases hxy
  omega

theorem WellFormed.length_eq_zero_iff {s : Sequence α} (h : s.WellFormed hashing) :
    s.length = 0 ↔ ∃ cell, s = nil cell := by
  cases s with
  | nil cell => simp [length]
  | run | flat | window | link => simp [length] at *; omega
  | indexed cell items index hasher =>
    have hp := (wellFormed_indexed.mp h).1.size_pos
    simp only [length, reduceCtorEq, exists_false, iff_false]
    omega
  | reversed => simp [length] at *; omega

theorem WellFormed.length_pos {s : Sequence α} (h : s.WellFormed hashing)
    (hn : ∀ cell, s ≠ nil cell) : 0 < s.length := by
  apply Nat.pos_of_ne_zero
  intro h0
  obtain ⟨cell, hc⟩ := h.length_eq_zero_iff.mp h0
  exact hn cell hc

theorem shared_wellFormed :
    Shared fun s : Sequence α => s.WellFormed hashing ∧ 0 < s.length where
  balanced h := h.1.balanced
  children h := by
    obtain ⟨⟨-, hl, hr, -⟩, hl', hr'⟩ := wellFormed_link.mp h.1
    exact ⟨⟨hl', hl⟩, hr', hr⟩
  link store ha hb hn := by
    refine ⟨wellFormed_link.mpr ⟨⟨Bias.ofShapes_fits hn.1 hn.2, ha.2, hb.2, rfl⟩, ha.1, hb.1⟩, ?_⟩
    exact Nat.add_pos_left ha.2 _

theorem WellFormed.concat {a b : Sequence α} (ha : a.WellFormed hashing)
    (hb : b.WellFormed hashing) : Yields (a.concat b) (WellFormed hashing) := by
  unfold Sequence.concat isEmpty
  split
  · exact .pure ha
  · split
    · exact .pure hb
    · have hn : 0 < a.length ∧ 0 < b.length := by simp_all; omega
      exact (shared_wellFormed.join ⟨ha, hn.1⟩ ⟨hb, hn.2⟩).mono fun s hs => hs.1

theorem WellFormed.reverse {s : Sequence α} (h : s.WellFormed hashing) :
    Yields s.reverse (WellFormed hashing) := by
  unfold Sequence.reverse
  split
  · exact .pure h
  · cases s with
    | reversed cell base => exact .pure (wellFormed_reversed.mp h).2
    | run => exact .pure h
    | nil => simp [length] at *
    | flat | indexed | window | link =>
      exact .bind_any fun cell => .pure (wellFormed_reversed.mpr ⟨⟨by omega, trivial⟩, h⟩)

theorem WellFormed.cut {s : Sequence α} {offset length : Nat} (h : s.WellFormed hashing)
    (hw : offset + length ≤ s.length) : Yields (s.cut offset length) (WellFormed hashing) := by
  fun_induction Sequence.cut s offset length with
  | case1 s => exact .pure h
  | case2 | case3 => exact .bind_any fun cell => .pure wellFormed_nil
  | case4 offset length hl => exact .bind_any fun cell => .pure (wellFormed_run.mpr (by omega))
  | case5 offset length hl _ items start count _ =>
    obtain ⟨-, hi⟩ := wellFormed_flat.mp h
    simp only [Sequence.length] at hw
    exact .bind_any fun cell => .pure (wellFormed_flat.mpr ⟨by omega, by omega⟩)
  | case6 offset length hl _ items index hasher hn =>
    -- Only a proper window is left, so the new node is shorter than its base.
    exact .bind_any fun cell => .pure
      (wellFormed_window.mpr ⟨⟨trivial, by omega, by omega, hw⟩, h⟩)
  | case7 offset length hl _ base start count _ ih =>
    obtain ⟨⟨-, -, -, hi⟩, hb⟩ := wellFormed_window.mp h
    simp only [Sequence.length] at hw
    exact ih hb (by omega)
  | case8 offset length hl _ base _ ih =>
    obtain ⟨-, hb⟩ := wellFormed_reversed.mp h
    simp only [Sequence.length] at hw
    exact .bind (ih hb (by omega)) fun s hs => hs.reverse
  | case9 offset length hl _ left right bias count ho _ ih =>
    obtain ⟨⟨-, -, -, hc⟩, -, hr⟩ := wellFormed_link.mp h
    simp only [Sequence.length] at hw
    exact ih hr (by omega)
  | case10 offset length hl _ left right bias count ho he _ ih =>
    obtain ⟨-, hl, -⟩ := wellFormed_link.mp h
    exact ih hl he
  | case11 offset length hl _ left right bias count ho he _ ihl ihr =>
    obtain ⟨⟨-, -, -, hc⟩, hl, hr⟩ := wellFormed_link.mp h
    simp only [Sequence.length] at hw
    exact .bind (ihl hl (by omega)) fun low hlow =>
      .bind (ihr hr (by omega)) fun high hhigh => hlow.concat hhigh

end SharedSequence.Sequence
