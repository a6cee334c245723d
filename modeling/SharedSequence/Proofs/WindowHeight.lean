import SharedSequence.Proofs.Cuts
import SharedSequence.Proofs.Halving
import SharedSequence.Proofs.Reversal

namespace SharedSequence

namespace Sequence

variable {α : Type}

def WithoutReversals (s : Sequence α) : Prop :=
  s.Everywhere fun node => ¬ node.IsReversal

theorem passedOn_not_isReversal : PassedOn fun node : Sequence α => ¬ node.IsReversal where
  nil _ := id
  run _ _ _ := id
  window _ _ _ _ := id
  link _ _ _ _ _ := id
  flat _ := id
  reversed h := absurd trivial h

/-- The sequences that come from a sequence by windows, each cut out of the one before it. -/
inductive WindowOf (s : Sequence α) : Sequence α → Prop where
  | self : WindowOf s s
  | cut {t : Sequence α} {make : StoreM (Sequence α)} (h : WindowOf s t) (hm : t.Grants make)
      (store : Store) : WindowOf s (make.run store).1

/-- The tree of the sequence is no higher than the other one, and it is balanced. -/
structure StaysWithin (t s : Sequence α) : Prop where
  shape_le : t.shape ≤ s.shape
  height_le : t.height ≤ s.height
  near {cell : Cell} {left right : Sequence α} {bias : Bias} {count : Nat} :
    link cell left right bias count ∈ t.nodes → left.Near right

theorem Balanced.staysWithin {s t : Sequence α} (ht : t.Balanced) (hs : s.Balanced)
    (h : t.shape ≤ s.shape) : t.StaysWithin s where
  shape_le := h
  height_le := by rwa [← ht.shape_eq_height, ← hs.shape_eq_height]
  near hm := near_of_fits (ht _ hm)

variable [BEq α] {hashing : Option (ElementHash α)} {s t : Sequence α}

/-- Across a link, a join adds back at most the level that the link itself had above its children. A
reversal counts as a leaf, so its base may well be higher. -/
theorem cuts_shape_le :
    Cuts hashing fun s t : Sequence α => s.WithoutReversals → t.shape ≤ s.shape where
  self _ _ := Nat.le_refl _
  empty _ _ _ := Nat.zero_le _
  run _ _ _ _ _ _ := Nat.le_refl _
  flat _ _ _ _ _ _ _ _ := Nat.le_refl _
  indexed _ _ _ _ _ _ _ _ := Nat.le_refl _
  window := by
    intro cell base t start count hi ih h
    cases base with
    | indexed => exact ih (everywhere_window.mp h).2
    | nil | run | flat | window | reversed | link => exact hi.elim
  reversed := by
    intro cell base t _ store h
    exact absurd trivial (everywhere_reversed.mp h).1
  left := by
    intro cell left right t bias count hf ih h
    rw [shape_link cell count hf]
    have hle := ih (everywhere_link.mp h).2.1
    omega
  right := by
    intro cell left right t bias count hf ih h
    rw [shape_link cell count hf]
    have hle := ih (everywhere_link.mp h).2.2
    omega
  across := by
    intro cell left right low high bias count hf hlow hhigh ihl ihh
    refine (hlow.balanced.concat hhigh.balanced).mono ?_
    rintro t ⟨-, hle⟩ h
    obtain ⟨-, hl, hr⟩ := everywhere_link.mp h
    have hsl := ihl hl
    have hsr := ihh hr
    rw [shape_link cell count hf]
    omega

/-- One window: it is no higher, and windows of it are subject to the same bound. -/
theorem WellFormed.shape_cut_le (h : s.WellFormed hashing) (hn : s.WithoutReversals)
    {offset length : Nat} (hw : offset + length ≤ s.length) : Yields (s.cut offset length) fun t =>
      t.WellFormed hashing ∧ t.WithoutReversals ∧ t.shape ≤ s.shape :=
  (h.cut hw).and ((passedOn_not_isReversal.everywhere_cut h hn hw).and
    ((h.cut_related cuts_shape_le hw).mono fun _ hle => hle hn))

theorem WellFormed.shape_windowOf_le (h : s.WellFormed hashing) (hn : s.WithoutReversals)
    (ht : s.WindowOf t) : t.WellFormed hashing ∧ t.WithoutReversals ∧ t.shape ≤ s.shape := by
  induction ht with
  | self => exact ⟨h, hn, Nat.le_refl _⟩
  | cut _ hm store ih =>
    obtain ⟨ht, htn, hle⟩ := ih
    obtain ⟨offset, length, hw, rfl⟩ := hm.eq_cut
    obtain ⟨hu, hun, hle'⟩ := ht.shape_cut_le htn hw store
    exact ⟨hu, hun, hle'.trans hle⟩

end Sequence

open Sequence

variable {α : Type} [BEq α] {hashing : Option (ElementHash α)} {s : Sequence α}

/-- Where no reversal is part of a reachable sequence, any window of it, any window of that one, and
so on, has a balanced tree that is no higher than the sequence. -/
theorem Reachable.windows_stay_within (h : Reachable hashing s) (hn : s.WithoutReversals) :
    (∀ make, s.Grants make → Yields make (·.StaysWithin s)) ∧
      ∀ t, s.WindowOf t → t.StaysWithin s := by
  have hall (t : Sequence α) (ht : s.WindowOf t) : t.StaysWithin s := by
    obtain ⟨hw, -, hle⟩ := h.wellFormed.shape_windowOf_le hn ht
    exact hw.balanced.staysWithin h.wellFormed.balanced hle
  exact ⟨fun make hm store => hall _ (.cut .self hm store), hall⟩

theorem windows_stay_within_spine : ∃ make, spine.slice 1 3 = .ok make ∧
    Yields make fun t => t.StaysWithin spine ∧
      ∀ next, t.Grants next → Yields next (·.StaysWithin spine) := by
  have hn : spine.WithoutReversals := by
    simp [WithoutReversals, Everywhere, spine, nodes, IsReversal]
  obtain ⟨hone, hall⟩ := Reachable.windows_stay_within ⟨_, _, run_spine, .head _⟩ hn
  have hm : spine.slice 1 3 = .ok (spine.cut 1 3) := slice_eq_ok (by decide)
  have hg : spine.Grants (spine.cut 1 3) := .slice hm
  refine ⟨_, hm, (hone _ hg).and fun store next hnext store' => ?_⟩
  exact hall _ (.cut (.cut .self hg store) hnext store')

/-- Below a reversal, a window of a reversal is higher. -/
example : ((reversed 5 (link 4 (reversed 3 (link 2 (run 0 7 1) (run 1 8 1) .neutral 2)) (run 4 9 1)
    .neutral 3)).cut 1 2).run ⟨#[]⟩ = (link 2 (run 0 7 1) (run 1 8 1) .neutral 2, ⟨#[]⟩) := by
  rfl

end SharedSequence
