import SharedSequence.Proofs.WellFormed

namespace SharedSequence

def wordSize : Nat :=
  0x10000000000000000

/-- The largest number of elements with a table: more have no power of two among the words. -/
def indexLimit : Nat :=
  0x8000000000000000

inductive Fault where
  | overflow
  | underflow
  | outOfRange
  /-- The bound on nested calls was reached. -/
  | unfinished
deriving DecidableEq, Repr

/-- Computations on words of 64 bits, which say where they would fail. -/
abbrev Guarded := Except Fault

namespace Guarded

variable {β γ : Type}

def add (x y : Nat) : Guarded Nat :=
  if x + y < wordSize then .ok (x + y) else .error .overflow

def sub (x y : Nat) : Guarded Nat :=
  if y ≤ x then .ok (x - y) else .error .underflow

def item (items : Array β) (i : Nat) : Guarded β :=
  match items[i]? with
  | some x => .ok x
  | none => .error .outOfRange

/-- The items of a buffer from an index up to another one. -/
def span (items : Array β) (start stop : Nat) : Guarded (Array β) :=
  if start ≤ stop ∧ stop ≤ items.size then .ok (items.extract start stop) else .error .outOfRange

/-- The place where a window of `total` elements starts when it is seen from the other end. -/
def mirrored (total offset length : Nat) : Guarded Nat := do
  sub (← sub total offset) length

variable {x y : Nat} {items : Array β}

@[simp]
theorem ok_bind (b : β) (next : β → Guarded γ) : (Except.ok b >>= next) = next b :=
  rfl

@[simp]
theorem pure_eq_ok (b : β) : (pure b : Guarded β) = .ok b :=
  rfl

theorem add_eq (h : x + y < wordSize) : add x y = .ok (x + y) :=
  if_pos h

theorem sub_eq (h : y ≤ x) : sub x y = .ok (x - y) :=
  if_pos h

theorem item_eq {b : β} (h : items[x]? = some b) : item items x = .ok b := by
  rw [item, h]

theorem span_eq (h : x + y ≤ items.size) : span items x (x + y) = .ok (items.extract x (x + y)) :=
  if_pos ⟨Nat.le_add_right x y, h⟩

theorem mirrored_eq {total offset length : Nat} (h : offset + length ≤ total) :
    mirrored total offset length = .ok (total - offset - length) := by
  rw [mirrored, sub_eq (Nat.le_of_add_right_le h), ok_bind, sub_eq (Nat.le_sub_of_add_le' h)]

def segment (items : Array β) (start length : Nat) : Guarded (Array β) := do
  span items start (← add start length)

theorem segment_eq {start length : Nat} (h : start + length ≤ items.size)
    (hs : items.size < wordSize) :
    segment items start length = .ok (items.extract start (start + length)) := by
  rw [segment, add_eq (Nat.lt_of_le_of_lt h hs), ok_bind, span_eq h]

end Guarded

/-- Where a window over a link lies. -/
inductive LinkWindow where
  | right (offset : Nat)
  | left
  | both (low high : Nat)

def LinkWindow.split (split offset length : Nat) : Guarded LinkWindow :=
  if split ≤ offset then do return .right (← Guarded.sub offset split)
  else do
    let stop ← Guarded.add offset length
    if stop ≤ split then return .left
    else return .both (← Guarded.sub split offset) (← Guarded.sub stop split)

section

variable {split offset length : Nat}

theorem LinkWindow.split_right (h : split ≤ offset) :
    LinkWindow.split split offset length = .ok (.right (offset - split)) := by
  rw [LinkWindow.split, if_pos h, Guarded.sub_eq h]
  rfl

theorem LinkWindow.split_left (h : offset < split) (he : offset + length ≤ split)
    (hs : split < wordSize) : LinkWindow.split split offset length = .ok .left := by
  rw [LinkWindow.split, if_neg (Nat.not_le_of_lt h), Guarded.add_eq (Nat.lt_of_le_of_lt he hs),
    Guarded.ok_bind, if_pos he]
  rfl

theorem LinkWindow.split_both (h : offset < split) (he : split < offset + length)
    (hs : offset + length < wordSize) : LinkWindow.split split offset length =
      .ok (.both (split - offset) (offset + length - split)) := by
  rw [LinkWindow.split, if_neg (Nat.not_le_of_lt h), Guarded.add_eq hs, Guarded.ok_bind,
    if_neg (Nat.not_le_of_lt he), Guarded.sub_eq (Nat.le_of_lt h), Guarded.ok_bind,
    Guarded.sub_eq (Nat.le_of_lt he)]
  rfl

end

namespace Sequence

variable {α : Type} [BEq α] {hashing : Option (ElementHash α)}

def BufferFits : Sequence α → Prop
  | flat _ items _ _ => items.size < wordSize
  | indexed _ items _ _ => items.size ≤ indexLimit
  | nil _ | run _ _ _ | window _ _ _ _ | reversed _ _ | link _ _ _ _ _ => True

/-- A well-formed tree whose length is a word and whose buffers fit. -/
structure Fits (hashing : Option (ElementHash α)) (s : Sequence α) : Prop where
  wellFormed : s.WellFormed hashing
  short : s.length < wordSize
  buffers : s.Everywhere BufferFits

namespace Fits

variable {cell : Cell} {items : Array α} {base left right : Sequence α} {start count : Nat}
  {bias : Bias} {index : HashIndex} {hasher : α → UInt32}

theorem flat (h : (flat cell items start count).Fits hashing) :
    items.size < wordSize ∧ start + count ≤ items.size :=
  ⟨everywhere_flat.mp h.buffers, (wellFormed_flat.mp h.wellFormed).2⟩

theorem indexed (h : (indexed cell items index hasher).Fits hashing) :
    items.size ≤ indexLimit ∧ index = .build items hasher :=
  ⟨everywhere_indexed.mp h.buffers, (wellFormed_indexed.mp h.wellFormed).2.1⟩

theorem window (h : (window cell base start count).Fits hashing) :
    base.Fits hashing ∧ start + count ≤ base.length := by
  obtain ⟨⟨hb, -, -, hl⟩, hw⟩ := wellFormed_window.mp h.wellFormed
  have hbuffers := (everywhere_window.mp h.buffers).2
  cases base with
  | nil | run | flat | window | reversed | link => cases hb
  | indexed cell items index hasher =>
    have hi : items.size ≤ indexLimit := everywhere_indexed.mp hbuffers
    exact ⟨⟨hw, Nat.lt_of_le_of_lt hi (by decide), hbuffers⟩, hl⟩

theorem reversed (h : (reversed cell base).Fits hashing) : base.Fits hashing :=
  ⟨(wellFormed_reversed.mp h.wellFormed).2, h.short, (everywhere_reversed.mp h.buffers).2⟩

theorem link (h : (link cell left right bias count).Fits hashing) :
    left.Fits hashing ∧ right.Fits hashing ∧ count = left.length + right.length := by
  obtain ⟨⟨-, -, -, hc⟩, hl, hr⟩ := wellFormed_link.mp h.wellFormed
  obtain ⟨-, hbl, hbr⟩ := everywhere_link.mp h.buffers
  have hs : count < wordSize := h.short
  exact ⟨⟨hl, by omega, hbl⟩, ⟨hr, by omega, hbr⟩, hc⟩

end Fits

end Sequence

end SharedSequence
