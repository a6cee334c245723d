import SharedSequence.Sequence.Concat

namespace SharedSequence.Sequence

variable {α : Type} {P Q : Sequence α → Prop}

/-- All nodes of a tree, also those below views. -/
def nodes : Sequence α → List (Sequence α)
  | s@(window _ base _ _) | s@(reversed _ base) => s :: base.nodes
  | s@(link _ left right _ _) => s :: (left.nodes ++ right.nodes)
  | s => [s]

def Everywhere (P : Sequence α → Prop) (s : Sequence α) : Prop :=
  ∀ node ∈ s.nodes, P node

theorem mem_nodes_self (s : Sequence α) : s ∈ s.nodes := by
  cases s <;> simp [nodes]

theorem Everywhere.root {s : Sequence α} (h : s.Everywhere P) : P s :=
  h s s.mem_nodes_self

theorem Everywhere.mono {s : Sequence α} (h : s.Everywhere P) (hPQ : ∀ node, P node → Q node) :
    s.Everywhere Q :=
  fun node hn => hPQ node (h node hn)

@[simp]
theorem everywhere_nil {cell : Cell} : (nil cell : Sequence α).Everywhere P ↔ P (nil cell) :=
  List.forall_mem_singleton

@[simp]
theorem everywhere_run {cell : Cell} {value : α} {count : Nat} :
    (run cell value count).Everywhere P ↔ P (run cell value count) :=
  List.forall_mem_singleton

@[simp]
theorem everywhere_flat {cell : Cell} {items : Array α} {start count : Nat} :
    (flat cell items start count).Everywhere P ↔ P (flat cell items start count) :=
  List.forall_mem_singleton

@[simp]
theorem everywhere_indexed {cell : Cell} {items : Array α} {index : HashIndex}
    {hasher : α → UInt32} :
    (indexed cell items index hasher).Everywhere P ↔ P (indexed cell items index hasher) :=
  List.forall_mem_singleton

@[simp]
theorem everywhere_window {cell : Cell} {base : Sequence α} {start count : Nat} :
    (window cell base start count).Everywhere P ↔
      P (window cell base start count) ∧ base.Everywhere P :=
  List.forall_mem_cons

@[simp]
theorem everywhere_reversed {cell : Cell} {base : Sequence α} :
    (reversed cell base).Everywhere P ↔ P (reversed cell base) ∧ base.Everywhere P :=
  List.forall_mem_cons

@[simp]
theorem everywhere_link {cell : Cell} {left right : Sequence α} {bias : Bias} {count : Nat} :
    (link cell left right bias count).Everywhere P ↔
      P (link cell left right bias count) ∧ left.Everywhere P ∧ right.Everywhere P :=
  List.forall_mem_cons.trans (and_congr_right fun _ => List.forall_mem_append)

theorem Everywhere.of_mem {s node : Sequence α} (h : s.Everywhere P) (hn : node ∈ s.nodes) :
    node.Everywhere P := by
  induction s with
  | nil | run | flat | indexed =>
    simp only [nodes, List.mem_singleton] at hn
    exact hn ▸ h
  | window cell base start count ih | reversed cell base ih =>
    rcases List.mem_cons.mp hn with hn | hn
    · exact hn ▸ h
    · exact ih (by simp_all) hn
  | link cell left right bias count ihl ihr =>
    have hc := everywhere_link.mp h
    rcases List.mem_cons.mp hn with hn | hn
    · exact hn ▸ h
    · rcases List.mem_append.mp hn with hn | hn
      · exact ihl hc.2.1 hn
      · exact ihr hc.2.2 hn

/-- The nodes that hang below the links, in order; an empty sequence has none. -/
def leaves : Sequence α → List (Sequence α)
  | nil _ => []
  | link _ left right _ _ => left.leaves ++ right.leaves
  | s => [s]

/-- The largest number of links on a way from the root down to a leaf. -/
def height : Sequence α → Nat
  | link _ left right _ _ => 1 + max left.height right.height
  | _ => 0

end SharedSequence.Sequence
