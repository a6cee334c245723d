import Mathlib.Data.Nat.Fib.Basic
import Mathlib.Data.Nat.Log
import SharedSequence.Proofs.Compaction

namespace SharedSequence

namespace Bias.Fits

variable {bias : Bias} {m n : Nat}

theorem eq_left_iff (h : bias.Fits m n) : bias = .left ↔ n < m := by
  cases bias <;> simp only [Fits, reduceCtorEq, false_iff, true_iff] at * <;> omega

theorem eq_right_iff (h : bias.Fits m n) : bias = .right ↔ m < n := by
  cases bias <;> simp only [Fits, reduceCtorEq, false_iff, true_iff] at * <;> omega

theorem eq_neutral_iff (h : bias.Fits m n) : bias = .neutral ↔ m = n := by
  cases bias <;> simp only [Fits, reduceCtorEq, false_iff, true_iff] at * <;> omega

end Bias.Fits

namespace Sequence

variable {α : Type}

/-- No way down through the links is longer than the walk along the bias. -/
theorem Balanced.shape_eq_height {s : Sequence α} (h : s.Balanced) : s.shape = s.height := by
  induction s with
  | nil | run | flat | indexed | window | reversed => rfl
  | link cell left right bias count ihl ihr =>
    obtain ⟨hf, hl, hr⟩ := balanced_link.mp h
    rw [shape_link cell count hf, height, ihl hl, ihr hr, Nat.add_comm]

variable [BEq α] {hashing : Option (ElementHash α)}

theorem fib_le_add {m n : Nat} (h : m ≤ n + 1) :
    Nat.fib (m + 1 + 2) ≤ Nat.fib (m + 2) + Nat.fib (n + 2) := by
  have hmono : Nat.fib (m + 1) ≤ Nat.fib (n + 2) := Nat.fib_mono (Nat.succ_le_succ h)
  have hsum : Nat.fib (m + 1 + 2) = Nat.fib (m + 1) + Nat.fib (m + 2) := Nat.fib_add_two
  omega

/-- A sequence with elements has at least as many leaves as the Fibonacci number two places after
its shape. -/
theorem WellFormed.fib_le_leaves {s : Sequence α} (h : s.WellFormed hashing)
    (hs : 0 < s.length) : Nat.fib (s.shape + 2) ≤ s.leaves.length := by
  induction s with
  | nil => simp [length] at hs
  | run | flat | indexed | window | reversed => simp [shape, leaves]
  | link cell left right bias count ihl ihr =>
    obtain ⟨⟨hf, hl, hr, -⟩, hwl, hwr⟩ := wellFormed_link.mp h
    obtain ⟨hn, hn'⟩ := near_of_fits hf
    have hleft := ihl hwl hl
    have hright := ihr hwr hr
    rw [shape_link cell count hf, leaves, List.length_append]
    -- One child has the larger shape and the other is at most one level lower.
    rcases Nat.le_total left.shape right.shape with hle | hle
    · rw [Nat.max_eq_right hle, Nat.add_comm left.leaves.length]
      exact (fib_le_add hn').trans (Nat.add_le_add hright hleft)
    · rw [Nat.max_eq_left hle]
      exact (fib_le_add hn).trans (Nat.add_le_add hleft hright)

theorem WellFormed.leaves_le_length {s : Sequence α} (h : s.WellFormed hashing) :
    s.leaves.length ≤ s.length := by
  induction s with
  | nil => simp [leaves]
  | run | flat | indexed | window | reversed =>
    exact h.length_pos fun cell => by simp
  | link cell left right bias count ihl ihr =>
    obtain ⟨⟨-, -, -, hc⟩, hwl, hwr⟩ := wellFormed_link.mp h
    rw [leaves, List.length_append, length, hc]
    exact Nat.add_le_add (ihl hwl) (ihr hwr)

theorem two_pow_le_fib (n : Nat) : 2 ^ ((n + 1) / 2) ≤ Nat.fib (n + 2) := by
  induction n using Nat.twoStepInduction with
  | zero => decide
  | one => decide
  | more n ih _ =>
    have hd : (n + 2 + 1) / 2 = (n + 1) / 2 + 1 := by omega
    have hmono : Nat.fib (n + 2) ≤ Nat.fib (n + 3) := Nat.fib_mono (by omega)
    have hsum : Nat.fib (n + 4) = Nat.fib (n + 2) + Nat.fib (n + 3) := Nat.fib_add_two
    rw [hd, Nat.pow_succ]
    change _ ≤ Nat.fib (n + 4)
    omega

theorem le_two_log_of_fib_le {n m : Nat} (h : Nat.fib (n + 2) ≤ m) : n ≤ 2 * Nat.log 2 m := by
  have hl : (n + 1) / 2 ≤ Nat.log 2 m :=
    Nat.le_log_of_pow_le (by decide) ((two_pow_le_fib n).trans h)
  omega

end Sequence

open Sequence

variable {α : Type} [BEq α] {hashing : Option (ElementHash α)}

/-- Wherever a link stands in a reachable tree, its bias compares the shapes of its children, which
differ by at most one; its shape is its height; and the height is logarithmic in the leaves and in
the elements. -/
theorem Reachable.link_balanced {s left right : Sequence α} {cell : Cell} {bias : Bias}
    {count : Nat} (h : Reachable hashing s) (hn : link cell left right bias count ∈ s.nodes) :
    let node := link cell left right bias count
    ((bias = .left ↔ right.shape < left.shape) ∧ (bias = .right ↔ left.shape < right.shape) ∧
        (bias = .neutral ↔ left.shape = right.shape)) ∧
      (left.shape ≤ right.shape + 1 ∧ right.shape ≤ left.shape + 1) ∧
      (node.shape = 1 + max left.shape right.shape ∧ node.shape = node.height) ∧
      Nat.fib (node.shape + 2) ≤ node.leaves.length ∧ node.leaves.length ≤ node.length ∧
      node.shape ≤ 2 * Nat.log 2 node.leaves.length ∧
      node.shape ≤ 2 * Nat.log 2 node.length := by
  intro node
  have hw : node.WellFormed hashing := h.wellFormed.of_mem hn
  obtain ⟨⟨hf, hl, -, hc⟩, -, -⟩ := wellFormed_link.mp hw
  have hpos : 0 < node.length := by
    change 0 < count
    omega
  have hfib := hw.fib_le_leaves hpos
  have hlen := hw.leaves_le_length
  refine ⟨⟨hf.eq_left_iff, hf.eq_right_iff, hf.eq_neutral_iff⟩, near_of_fits hf,
    ⟨?_, hw.balanced.shape_eq_height⟩, hfib, hlen, le_two_log_of_fib_le hfib,
    le_two_log_of_fib_le (hfib.trans hlen)⟩
  rw [shape_link cell count hf, Nat.add_comm]

/-- A link of three runs, two of them linked below it. -/
def spine : Sequence Nat :=
  .link 4 (.link 2 (.run 0 7 1) (.run 1 8 2) .neutral 3) (.run 3 9 1) .left 4

theorem run_spine : Run none ⟨Array.replicate 5 0⟩ [spine, .run 3 9 1,
    .link 2 (.run 0 7 1) (.run 1 8 2) .neutral 3, .run 1 8 2, .run 0 7 1] := by
  have h₁ : Run none ⟨#[0]⟩ [.run 0 7 1] := Run.start.step (.replicate 1 7) rfl
  have h₂ : Run none ⟨#[0, 0]⟩ [.run 1 8 2, .run 0 7 1] := h₁.step (.replicate 2 8) rfl
  have h₃ := h₂.step (.concat (.tail _ (.head _)) (.head _)) rfl
  have h₄ := h₃.step (.replicate 1 9) rfl
  exact h₄.step (.concat (.tail _ (.head _)) (.head _)) rfl

theorem reachable_reversed_spine : Reachable none (.reversed 5 spine) :=
  ⟨_, _, run_spine.step (.reverse (.head _)) rfl, .head _⟩

/-- The bound below a reversal, where it is reached. -/
theorem fib_le_leaves_below_reversal :
    spine.shape = 2 ∧ spine.leaves.length = 3 ∧
      Nat.fib (spine.shape + 2) ≤ spine.leaves.length := by
  obtain ⟨-, -, -, hl, -⟩ := reachable_reversed_spine.link_balanced (.tail _ (.head _))
  exact ⟨rfl, rfl, hl⟩

/-- The join of two reachable sequences ends, whatever the bound on nested joins is, as long as it
covers the shapes. The result is as high as the higher operand or one level higher, and its
recursion links two sequences as they are only where their shapes differ by at most one. -/
theorem Reachable.join_terminates {a b : Sequence α} (ha : Reachable hashing a)
    (hb : Reachable hashing b) (store : Store) :
    ∃ joined store', Resolves (joinFuel a b) (.pair a b) store joined store' ∧
      (∀ fuel, joinFuel a b ≤ fuel →
        (joinWithin fuel a b).run.run store = (some joined, store')) ∧
      (join a b).run store = (joined, store') ∧
      (joined.shape = max a.shape b.shape ∨ joined.shape = max a.shape b.shape + 1) ∧
      (a.Near b → joined.shape = max a.shape b.shape + 1) ∧
      ∀ c d, Calls (.pair a b) store c d → (rotate c d = none ↔ c.Near d) := by
  have hba := ha.wellFormed.balanced
  have hbb := hb.wellFormed.balanced
  obtain ⟨joined, store', hs, ⟨-, hlo, hhi⟩, hr⟩ := hba.join_resolves hbb store
  refine ⟨joined, store', hs, fun fuel hf => hs.run hf, hr, by omega, fun hn => ?_,
    fun c d hc => ?_⟩
  · obtain ⟨linked, _, hl, -, -, he⟩ := Settles.linked hn hba hbb store
    have hrun := (hl.run (Nat.le_add_left _ _)).symm.trans (hs.run (Nat.le_refl _))
    have hj : linked = joined := Option.some.inj (congrArg Prod.fst hrun)
    rw [← hj, he]
  · obtain ⟨hc, hd⟩ := hc.all shared_balanced ⟨hba, hbb⟩
    exact hc.rotate_eq_none_iff hd

theorem join_terminates_spine : ∃ joined store',
    (join (.run 0 7 1) spine).run ⟨Array.replicate 5 0⟩ = (joined, store') ∧
      (joined.shape = 2 ∨ joined.shape = 3) := by
  have hrun : Reachable none (.run 0 7 1) := ⟨_, _, run_spine, by simp⟩
  have hspine : Reachable none spine := ⟨_, _, run_spine, .head _⟩
  obtain ⟨joined, store', -, -, hj, hs, -⟩ := hrun.join_terminates hspine ⟨Array.replicate 5 0⟩
  exact ⟨joined, store', hj, hs⟩

end SharedSequence
