import SharedSequence.Proofs.Traversal
import SharedSequence.Proofs.Runs

namespace SharedSequence.Sequence

variable {α : Type} [BEq α] {hashing : Option (ElementHash α)}

theorem WellFormed.varied {s : Sequence α} (h : s.WellFormed hashing)
    (hu : s.isUniform = false) : Varied s.toList.toArray := by
  simp only [Varied, List.mem_toArray]
  induction s with
  | nil | run => cases hu
  | reversed cell base ih =>
    obtain ⟨x, hx, y, hy, hxy⟩ := ih (wellFormed_reversed.mp h).2 hu
    exact ⟨x, List.mem_reverse.mpr hx, y, List.mem_reverse.mpr hy, hxy⟩
  | flat | indexed | window | link =>
    simp only [isUniform] at hu
    split at hu
    · cases hu
    · rename_i x hx
      rw [h.get?_eq] at hx
      rw [h.extract_eq, Collector.completed_uniformCheck, List.all_eq_false] at hu
      obtain ⟨y, hy, hxy⟩ := hu
      exact ⟨x, List.mem_of_getElem? hx, y, hy, by simpa using hxy⟩

/-- In a uniform sequence nothing that equality respects tells the elements apart. -/
theorem WellFormed.view_eq_of_isUniform {β : Type} (view : α → β) {s : Sequence α}
    (h : s.WellFormed hashing) (hu : s.isUniform = true)
    (hv : ∀ x ∈ s.toList, ∀ y ∈ s.toList, (x == y) = true → view x = view y) :
    ∀ x ∈ s.toList, ∀ y ∈ s.toList, view x = view y := by
  induction s with
  | nil => nofun
  | run cell item count =>
    intro x hx y hy
    rw [List.eq_of_mem_replicate hx, List.eq_of_mem_replicate hy]
  | reversed cell base ih =>
    simp only [toList, List.mem_reverse] at hv ⊢
    exact ih (wellFormed_reversed.mp h).2 hu hv
  | flat | indexed | window | link =>
    simp only [isUniform] at hu
    split at hu
    · rename_i hnone
      intro x hx
      rw [h.get?_eq, List.getElem?_eq_none_iff, Nat.le_zero] at hnone
      rw [List.eq_nil_of_length_eq_zero hnone] at hx
      cases hx
    · rename_i first hfirst
      rw [h.get?_eq] at hfirst
      rw [h.extract_eq, Collector.completed_uniformCheck, List.all_eq_true] at hu
      have hf := List.mem_of_getElem? hfirst
      intro x hx y hy
      exact (hv first hf x hx (hu x hx)).symm.trans (hv first hf y hy (hu y hy))

theorem WellFormed.varied_of_commonValue? {s : Sequence α} (h : s.WellFormed hashing)
    (hs : 0 < s.length) (hv : s.commonValue? = none) : Varied s.toList.toArray := by
  apply h.varied
  unfold commonValue? at hv
  split at hv
  · rw [h.get?_eq, List.getElem?_eq_none_iff, h.length_toList] at hv
    omega
  · simp_all

theorem yields_replicate (value : α) (count : Nat) :
    Yields (replicate count value) (WellFormed hashing) := by
  unfold replicate
  split
  · exact .bind_any fun cell => .pure wellFormed_nil
  · exact .bind_any fun cell => .pure (wellFormed_run.mpr (by omega))

/-- What a compaction without an index gives: a settled leaf and a flat leaf of different elements
stay, a common value is repeated, and other elements are copied. -/
theorem yields_flatten (Q : Sequence α → Prop) {s : Sequence α}
    (settled : s.isCompact = true → s.isIndexed = true → Q s)
    (varied : s.isCompact = true → s.isIndexed = false → s.commonValue? = none → Q s)
    (common : (∀ cell, s ≠ nil cell) → ∀ value, s.commonValue? = some value →
      Yields (replicate s.length value) Q)
    (copied : (∀ cell, s ≠ nil cell) → s.isCompact = false → s.commonValue? = none →
      ∀ cell, Q (flat cell s.toArray 0 s.length)) :
    Yields s.flatten fun done => Q done.result := by
  unfold Sequence.flatten
  split
  · exact .pure (settled rfl rfl)
  · exact .pure (settled rfl rfl)
  · exact .pure (settled rfl rfl)
  · rename_i hn hr hi
    split
    · rename_i value hv
      exact .bind (common hn value hv) fun t ht => .pure ht
    · rename_i hv
      split
      · exact .pure (varied rfl rfl hv)
      · rename_i hf
        have hc : s.isCompact = false := by
          cases s with
          | nil => exact absurd rfl (hn _)
          | run => exact absurd rfl (hr _ _ _)
          | flat => exact absurd rfl (hf _ _ _ _)
          | indexed => exact absurd rfl (hi _ _ _ _)
          | window | reversed | link => rfl
        exact .bind_any fun cell => .bind_any fun hash? => .bind_any fun _ =>
          .pure (copied hn hc hv cell)

/-- What a compaction with an index gives: a settled leaf stays, a common value is repeated, and
other elements get a table. -/
theorem yields_index [ElementHash α] (Q : Sequence α → Prop) {s : Sequence α}
    (settled : s.isCompact = true → s.isIndexed = true → Q s)
    (common : (∀ cell, s ≠ nil cell) → ∀ value, s.commonValue? = some value →
      Yields (replicate s.length value) Q)
    (tabulated : (∀ cell, s ≠ nil cell) → s.commonValue? = none →
      ∀ cell, Q (indexed cell s.sharedItems (.build s.sharedItems hash32) hash32)) :
    Yields s.index fun done => Q done.result := by
  unfold Sequence.index
  split
  · exact .pure (settled rfl rfl)
  · exact .pure (settled rfl rfl)
  · exact .pure (settled rfl rfl)
  · rename_i hn _ _
    split
    · rename_i value hv
      exact .bind (common hn value hv) fun t ht => .pure ht
    · rename_i hv
      exact .bind_any fun cell => .bind_any fun hash? => .bind_any fun _ =>
        .pure (tabulated hn hv cell)

theorem WellFormed.toList_copied {s : Sequence α} (h : s.WellFormed hashing) (cell : Cell) :
    (flat cell s.toArray 0 s.length).toList = s.toList := by
  rw [toList, List.drop_zero, h.toArray_eq, ← h.length_toList, List.take_length]

theorem WellFormed.copied {s : Sequence α} (h : s.WellFormed hashing) (hs : 0 < s.length)
    (cell : Cell) : (flat cell s.toArray 0 s.length).WellFormed hashing := by
  rw [wellFormed_flat, h.toArray_eq, List.size_toArray, h.length_toList]
  exact ⟨hs, Nat.le_of_eq (Nat.zero_add _)⟩

theorem WellFormed.flatten {s : Sequence α} (h : s.WellFormed hashing) :
    Yields s.flatten fun done => done.result.WellFormed hashing := by
  apply yields_flatten (WellFormed hashing)
  case settled => exact fun _ _ => h
  case varied => exact fun _ _ _ => h
  case common => exact fun _ value _ => yields_replicate value s.length
  case copied => exact fun hn _ _ cell => h.copied (h.length_pos hn) cell

theorem WellFormed.sharedItems_eq {s : Sequence α} (h : s.WellFormed hashing) :
    s.sharedItems = s.toList.toArray := by
  unfold sharedItems
  split
  · split
    · rename_i cell items start count hi
      obtain ⟨rfl, rfl⟩ := hi
      rw [toList, List.drop_zero, List.take_of_length_le (by simp)]
    · exact h.toArray_eq
  · exact h.toArray_eq

theorem WellFormed.index {hash : ElementHash α} {s : Sequence α} (hh : hash ∈ hashing)
    (h : s.WellFormed hashing) : Yields s.index fun done => done.result.WellFormed hashing := by
  apply yields_index (WellFormed hashing)
  case settled => exact fun _ _ => h
  case common => exact fun _ value _ => yields_replicate value s.length
  case tabulated =>
    intro hn hv cell
    rw [wellFormed_indexed, h.sharedItems_eq]
    exact ⟨h.varied_of_commonValue? (h.length_pos hn) hv, rfl, hash, hh, rfl⟩

theorem kept_wellFormed : Kept hashing (WellFormed hashing) where
  empty _ := wellFormed_nil
  run _ _ _ hc := wellFormed_run.mpr hc
  buffer _ _ hs := wellFormed_flat.mpr ⟨hs, by omega⟩
  concat ha hb := ha.concat hb
  cut h hw := h.cut hw
  reverse h := h.reverse
  flatten h := h.flatten
  index hh h := h.index hh

theorem WellFormed.count_le_length {s left right : Sequence α} {cell : Cell} {bias : Bias}
    {count : Nat} (h : s.WellFormed hashing) (hn : link cell left right bias count ∈ s.nodes) :
    count ≤ s.length := by
  induction s with
  | nil | run | flat | indexed => simp [nodes] at hn
  | window _ base _ _ =>
    -- No link stands below a window, whose base is a leaf.
    obtain ⟨⟨hb, -⟩, -⟩ := wellFormed_window.mp h
    cases base <;> simp [nodes, IsIndexLeaf] at hb hn
  | reversed _ base ih =>
    rcases List.mem_cons.mp hn with hn | hn
    · cases hn
    · exact ih (wellFormed_reversed.mp h).2 hn
  | link _ low high _ _ ihl ihr =>
    obtain ⟨⟨-, -, -, hc⟩, hl, hr⟩ := wellFormed_link.mp h
    rw [length, hc]
    rcases List.mem_cons.mp hn with hn | hn
    · cases hn
      exact Nat.le_of_eq hc
    · rcases List.mem_append.mp hn with hn | hn
      · exact Nat.le_add_right_of_le (ihl hl hn)
      · exact Nat.le_add_left_of_le (ihr hr hn)

end SharedSequence.Sequence

namespace SharedSequence

open Sequence

variable {α : Type} [BEq α] {hashing : Option (ElementHash α)}

theorem Reachable.wellFormed {s : Sequence α} (h : Reachable hashing s) :
    s.WellFormed hashing :=
  kept_wellFormed.reachable h

theorem Run.wellFormed {store : Store} {made : List (Sequence α)} {s : Sequence α}
    (h : Run hashing store made) (hs : s ∈ made) : s.WellFormed hashing :=
  Reachable.wellFormed ⟨store, made, h, hs⟩

/-- Every node of a reachable tree keeps the promises of its kind, and only a `nil` node is without
elements. Where hashed elements equal themselves, an index stands over two elements at least; and
no link counts more elements than the tree has. -/
theorem Reachable.node_wellFormed {s node : Sequence α} (h : Reachable hashing s)
    (hr : hashing.isSome → ReflBEq α) (hn : node ∈ s.nodes) :
    node.WellFormedNode hashing ∧ (node.length = 0 ↔ ∃ cell, node = nil cell) ∧
      (∀ cell items index hasher, node = indexed cell items index hasher → 2 ≤ items.size) ∧
      ∀ cell left right bias count, node = link cell left right bias count → count ≤ s.length := by
  have hw : node.WellFormed hashing := h.wellFormed.of_mem hn
  refine ⟨hw.root, hw.length_eq_zero_iff, ?_, ?_⟩
  · rintro cell items index hasher rfl
    obtain ⟨hv, -, hash, hh, -⟩ := wellFormed_indexed.mp hw
    have := hr (Option.isSome_of_mem hh)
    exact hv.two_le_size
  · rintro cell left right bias count rfl
    exact h.wellFormed.count_le_length hn

/-- A hash that is the same for all even numbers, and for all odd ones. -/
abbrev parity : ElementHash Nat where
  hash32 value := if value % 2 = 0 then 0 else 1

/-- A leaf with an index whose buckets hold different elements. -/
def table : Sequence Nat :=
  .indexed 1 #[5, 8, 5, 7] (.build #[5, 8, 5, 7] parity.hash32) parity.hash32

/-- A link of a view over a view and a run. -/
def mixed : Sequence Nat :=
  .link 5 (.reversed 3 (.window 2 table 1 3)) (.run 4 5 2) .neutral 5

theorem reachable_mixed : Reachable (some parity) mixed := by
  have h₁ : Run (some parity) ⟨#[0]⟩ [.flat 0 #[5, 8, 5, 7] 0 4] :=
    Run.start.step (.ofArray #[5, 8, 5, 7]) rfl
  have h₂ : Run (some parity) ⟨#[0, 0]⟩ [table, .flat 0 #[5, 8, 5, 7] 0 4] :=
    h₁.step (.compact (Option.mem_some_self parity) (.head _) true) rfl
  have hs : table.slice 1 3 = .ok (table.cut 1 3) := rfl
  have h₃ := h₂.step (.slice (.head _) hs) rfl
  have h₄ := h₃.step (.reverse (.head _)) rfl
  have h₅ := h₄.step (.replicate 2 5) rfl
  have h₆ := h₅.step (.concat (.tail _ (.head _)) (.head _)) rfl
  exact ⟨_, _, h₆, .head _⟩

theorem node_wellFormed_table :
    table.WellFormedNode (some parity) ∧ (table.length = 0 ↔ ∃ cell, table = nil cell) ∧
      2 ≤ table.length := by
  have hn : table ∈ mixed.nodes := by simp [mixed, table, nodes]
  obtain ⟨hw, he, hi, -⟩ := reachable_mixed.node_wellFormed (fun _ => inferInstance) hn
  exact ⟨hw, he, hi _ _ _ _ rfl⟩

end SharedSequence
