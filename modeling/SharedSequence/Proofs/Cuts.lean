import SharedSequence.Proofs.Leaves
import SharedSequence.Proofs.Windows

namespace SharedSequence.Sequence

variable {α : Type} {P : Sequence α → Prop} {s : Sequence α}

/-- The requests for a window that a sequence grants: by offset and length, by offset alone, or by
both ends. -/
inductive Grants (s : Sequence α) (make : StoreM (Sequence α)) : Prop where
  | slice {offset length : Nat} (h : s.slice offset length = .ok make)
  | sliceFrom {offset : Nat} (h : s.sliceFrom offset = .ok make)
  | subList {start stop : Nat} (h : s.asList.subList start stop = .ok make)

theorem eq_cut_of_slice {offset length : Nat} {make : StoreM (Sequence α)}
    (h : s.slice offset length = .ok make) :
    offset + length ≤ s.length ∧ s.cut offset length = make := by
  by_cases hw : offset + length ≤ s.length
  · rw [slice_eq_ok hw] at h
    exact ⟨hw, Except.ok.inj h⟩
  · rw [slice_eq_error (Nat.lt_of_not_le hw)] at h
    cases h

/-- Whatever way it is asked for, the window lies in the sequence. -/
theorem Grants.eq_cut {make : StoreM (Sequence α)} (h : s.Grants make) :
    ∃ offset length, offset + length ≤ s.length ∧ s.cut offset length = make := by
  cases h with
  | slice h => exact ⟨_, _, eq_cut_of_slice h⟩
  | @sliceFrom offset h =>
    by_cases ho : offset ≤ s.length
    · rw [sliceFrom_eq_ok ho] at h
      exact ⟨_, _, by omega, Except.ok.inj h⟩
    · rw [sliceFrom_eq_error (Nat.lt_of_not_le ho)] at h
      cases h
  | @subList start stop h =>
    rw [ListView.subList] at h
    split at h
    · exact ⟨_, _, eq_cut_of_slice h⟩
    · cases h

/-- A property that a flat leaf and a reversal take over from those they are made of. Other nodes
that windows and concatenations make have it in any case. -/
structure PassedOn (P : Sequence α → Prop) : Prop where
  nil (cell : Cell) : P (nil cell)
  run (cell : Cell) (value : α) (count : Nat) : P (run cell value count)
  window (cell : Cell) (base : Sequence α) (start count : Nat) : P (window cell base start count)
  link (cell : Cell) (left right : Sequence α) (bias : Bias) (count : Nat) :
    P (link cell left right bias count)
  flat {cell cell' : Cell} {items : Array α} {start start' count count' : Nat} :
    P (flat cell items start count) → P (flat cell' items start' count')
  reversed {cell cell' : Cell} {base base' : Sequence α} :
    P (reversed cell base) → P (reversed cell' base')

theorem PassedOn.everywhere_iff_leaves (hP : PassedOn P) (s : Sequence α) :
    s.Everywhere P ↔ ∀ leaf ∈ s.leaves, leaf.Everywhere P := by
  induction s with
  | nil cell => exact iff_of_true (everywhere_nil.mpr (hP.nil cell)) nofun
  | run | flat | indexed | window | reversed => simp only [leaves, List.forall_mem_singleton]
  | link cell left right bias count ihl ihr =>
    rw [leaves, List.forall_mem_append, ← ihl, ← ihr, everywhere_link]
    exact and_iff_right (hP.link cell left right bias count)

theorem PassedOn.everywhere_replicate (hP : PassedOn P) (count : Nat) (value : α) :
    Yields (replicate count value) (Everywhere P) := by
  unfold replicate
  split
  · exact .bind_any fun cell => .pure (everywhere_nil.mpr (hP.nil cell))
  · exact .bind_any fun cell => .pure (everywhere_run.mpr (hP.run cell value count))

theorem Everywhere.reverse (h : s.Everywhere P) (hr : ∀ cell, P (Sequence.reversed cell s)) :
    Yields s.reverse (Everywhere P) := by
  unfold Sequence.reverse
  split
  · exact .pure h
  · cases s with
    | reversed cell base => exact .pure (everywhere_reversed.mp h).2
    | run => exact .pure h
    | nil | flat | indexed | window | link =>
      exact .bind_any fun cell => .pure (everywhere_reversed.mpr ⟨hr cell, h⟩)

variable [BEq α] {hashing : Option (ElementHash α)} {a b : Sequence α}

theorem PassedOn.everywhere_concat (hP : PassedOn P) (ha : a.WellFormed hashing)
    (hb : b.WellFormed hashing) :
    Yields (a.concat b) fun t => t.Everywhere P ↔ a.Everywhere P ∧ b.Everywhere P := by
  refine (ha.leaves_concat hb).mono ?_
  intro t ht
  rw [hP.everywhere_iff_leaves t, ht, List.forall_mem_append, ← hP.everywhere_iff_leaves,
    ← hP.everywhere_iff_leaves]

/-- A relation between trees and their windows that every node hands up from its children. -/
structure Cuts (hashing : Option (ElementHash α)) (Q : Sequence α → Sequence α → Prop) :
    Prop where
  self (s : Sequence α) : Q s s
  empty (s : Sequence α) (cell : Cell) : Q s (nil cell)
  run (cell cell' : Cell) (value : α) (count length : Nat) :
    Q (run cell value count) (run cell' value length)
  flat (cell cell' : Cell) (items : Array α) (start start' count length : Nat) :
    Q (flat cell items start count) (flat cell' items start' length)
  indexed (cell cell' : Cell) (items : Array α) (index : HashIndex) (hasher : α → UInt32)
    (offset length : Nat) :
    Q (indexed cell items index hasher)
      (window cell' (indexed cell items index hasher) offset length)
  window {cell : Cell} {base t : Sequence α} {start count : Nat} :
    base.IsIndexLeaf → Q base t → Q (window cell base start count) t
  reversed {cell : Cell} {base t : Sequence α} :
    Q base t → Yields t.reverse (Q (reversed cell base))
  left {cell : Cell} {left right t : Sequence α} {bias : Bias} {count : Nat} :
    bias.Fits left.shape right.shape → Q left t → Q (link cell left right bias count) t
  right {cell : Cell} {left right t : Sequence α} {bias : Bias} {count : Nat} :
    bias.Fits left.shape right.shape → Q right t → Q (link cell left right bias count) t
  across {cell : Cell} {left right low high : Sequence α} {bias : Bias} {count : Nat} :
    bias.Fits left.shape right.shape → low.WellFormed hashing → high.WellFormed hashing →
      Q left low → Q right high → Yields (low.concat high) (Q (link cell left right bias count))

/-- What all nodes hand up relates every window to the tree that it is cut out of. -/
theorem WellFormed.cut_related {Q : Sequence α → Sequence α → Prop} (h : s.WellFormed hashing)
    (hQ : Cuts hashing Q) {offset length : Nat} (hw : offset + length ≤ s.length) :
    Yields (s.cut offset length) (Q s) := by
  fun_induction Sequence.cut s offset length with
  | case1 s => exact .pure (hQ.self s)
  | case2 s | case3 => exact .bind_any fun cell => .pure (hQ.empty _ cell)
  | case4 => exact .bind_any fun cell => .pure (hQ.run ..)
  | case5 => exact .bind_any fun cell => .pure (hQ.flat ..)
  | case6 => exact .bind_any fun cell => .pure (hQ.indexed ..)
  | case7 offset length _ _ base start count _ ih =>
    obtain ⟨⟨hi, -, -, hc⟩, hb⟩ := wellFormed_window.mp h
    simp only [Sequence.length] at hw
    exact (ih hb (by omega)).mono fun t ht => hQ.window hi ht
  | case8 offset length _ _ base _ ih =>
    obtain ⟨-, hb⟩ := wellFormed_reversed.mp h
    simp only [Sequence.length] at hw
    exact .bind (ih hb (by omega)) fun t ht => hQ.reversed ht
  | case9 offset length _ _ left right bias count ho _ ih =>
    obtain ⟨⟨hf, -, -, hc⟩, -, hr⟩ := wellFormed_link.mp h
    simp only [Sequence.length] at hw
    exact (ih hr (by omega)).mono fun t ht => hQ.right hf ht
  | case10 offset length _ _ left right bias count ho he _ ih =>
    obtain ⟨⟨hf, -⟩, hl, -⟩ := wellFormed_link.mp h
    exact (ih hl he).mono fun t ht => hQ.left hf ht
  | case11 offset length _ _ left right bias count ho he _ ihl ihr =>
    obtain ⟨⟨hf, -, -, hc⟩, hl, hr⟩ := wellFormed_link.mp h
    simp only [Sequence.length] at hw
    have hlow : offset + (left.length - offset) ≤ left.length := by omega
    have hhigh : 0 + (offset + length - left.length) ≤ right.length := by omega
    refine .bind ((hl.cut hlow).and (ihl hl hlow)) ?_
    rintro low ⟨hlw, hql⟩
    refine .bind ((hr.cut hhigh).and (ihr hr hhigh)) ?_
    rintro high ⟨hhw, hqh⟩
    exact hQ.across hf hlw hhw hql hqh

theorem PassedOn.cuts (hP : PassedOn P) :
    Cuts hashing fun s t => s.Everywhere P → t.Everywhere P where
  self s h := h
  empty s cell _ := everywhere_nil.mpr (hP.nil cell)
  run _ cell' value _ length _ := everywhere_run.mpr (hP.run cell' value length)
  flat _ _ _ _ _ _ _ h := everywhere_flat.mpr (hP.flat (everywhere_flat.mp h))
  indexed _ _ _ _ _ _ _ h := everywhere_window.mpr ⟨hP.window .., h⟩
  window _ ih h := ih (everywhere_window.mp h).2
  reversed ih := by
    intro store h
    obtain ⟨hr, hb⟩ := everywhere_reversed.mp h
    exact (ih hb).reverse (fun cell => hP.reversed hr) store
  left _ ih h := ih (everywhere_link.mp h).2.1
  right _ ih h := ih (everywhere_link.mp h).2.2
  across _ hl hr ihl ihr := by
    refine (hP.everywhere_concat hl hr).mono ?_
    intro t ht h
    obtain ⟨-, hlow, hhigh⟩ := everywhere_link.mp h
    exact ht.mpr ⟨ihl hlow, ihr hhigh⟩

theorem PassedOn.everywhere_cut (hP : PassedOn P) (hs : s.WellFormed hashing)
    (h : s.Everywhere P) {offset length : Nat} (hw : offset + length ≤ s.length) :
    Yields (s.cut offset length) (Everywhere P) :=
  (hs.cut_related hP.cuts hw).mono fun _ ht => ht h

end SharedSequence.Sequence
