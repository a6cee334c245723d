import SharedSequence.Proofs.Equality

namespace SharedSequence

open Sequence

variable {α : Type}

theorem transCmp_of_view {β γ : Type} (cmp : γ → γ → Ordering) [Std.TransCmp cmp]
    {order : β → β → Ordering} (view : β → γ) (h : ∀ x y, order x y = cmp (view x) (view y)) :
    Std.TransCmp order where
  eq_swap {x y} := by
    rw [h, h]
    exact Std.OrientedCmp.eq_swap
  isLE_trans {x y z} hxy hyz := by
    rw [h] at hxy hyz ⊢
    exact Std.TransCmp.isLE_trans hxy hyz

/-- Comparing pairwise and then by length is comparing lexicographically. -/
theorem find?_zipWith_getD (order : α → α → Ordering) (xs ys : List α) :
    ((List.zipWith order xs ys).find? (· ≠ .eq)).getD (compare xs.length ys.length) =
      List.compareLex order xs ys := by
  induction xs generalizing ys with
  | nil =>
    cases ys with
    | nil => rfl
    | cons y ys =>
      rw [List.compareLex_nil_cons]
      exact Nat.compare_eq_lt.mpr (Nat.succ_pos _)
  | cons x xs ih =>
    cases ys with
    | nil =>
      rw [List.compareLex_cons_nil]
      exact Nat.compare_eq_gt.mpr (Nat.succ_pos _)
    | cons y ys =>
      have hl : compare (xs.length + 1) (ys.length + 1) = compare xs.length ys.length := by
        simp only [Nat.compare_eq_ite_lt, Nat.add_lt_add_iff_right]
      rw [List.zipWith_cons_cons, List.find?_cons, List.compareLex_cons_cons, ← ih,
        List.length_cons, List.length_cons, hl]
      cases order x y <;> rfl

namespace Sequence

/-- The order does not tell apart the elements at the position, if both sequences have one there. -/
def Tied (order : α → α → Ordering) (a b : Sequence α) (i : Nat) : Prop :=
  ∀ x y, a.get? i = some x → b.get? i = some y → order x y = .eq

/-- The answer that the first position gives where the order tells the elements apart or, if there
is none, the lengths. -/
inductive Decides (order : α → α → Ordering) (a b : Sequence α) : Ordering → Prop where
  | difference {i : Nat} {x y : α} (hx : a.get? i = some x) (hy : b.get? i = some y)
      (hne : order x y ≠ .eq) (hb : ∀ j < i, Tied order a b j) : Decides order a b (order x y)
  | lengths (h : ∀ i, Tied order a b i) : Decides order a b (compare a.length b.length)

variable {order : α → α → Ordering} {a b : Sequence α}

theorem Decides.unique {answer answer' : Ordering} (h : Decides order a b answer)
    (h' : Decides order a b answer') : answer = answer' := by
  cases h with
  | @difference i x y hx hy hne hb =>
    cases h' with
    | @difference j x' y' hx' hy' hne' hb' =>
      rcases Nat.lt_trichotomy i j with hlt | rfl | hlt
      · exact absurd (hb' i hlt x y hx hy) hne
      · rw [hx] at hx'
        rw [hy] at hy'
        cases hx'
        cases hy'
        rfl
      · exact absurd (hb j hlt x' y' hx' hy') hne'
    | lengths h' => exact absurd (h' i x y hx hy) hne
  | lengths h =>
    cases h' with
    | difference hx hy hne _ => exact absurd (h _ _ _ hx hy) hne
    | lengths _ => rfl

variable [BEq α] {hashing : Option (ElementHash α)}

theorem WellFormed.getElem?_zipWith (order : α → α → Ordering) (ha : a.WellFormed hashing)
    (hb : b.WellFormed hashing) {i : Nat} {found : Ordering} :
    (List.zipWith order a.toList b.toList)[i]? = some found ↔
      ∃ x y, a.get? i = some x ∧ b.get? i = some y ∧ order x y = found := by
  rw [List.getElem?_zipWith_eq_some, ha.get?_eq, hb.get?_eq]

theorem WellFormed.compareWith_decides (order : α → α → Ordering) (ha : a.WellFormed hashing)
    (hb : b.WellFormed hashing) : Decides order a b (a.compareWith order b) := by
  rw [ha.compareWith_eq order hb]
  cases hf : (List.zipWith order a.toList b.toList).find? (· ≠ .eq) with
  | none =>
    rw [Option.getD_none, ha.length_toList, hb.length_toList]
    apply Decides.lengths
    intro i x y hx hy
    have hz := (ha.getElem?_zipWith order hb).mpr ⟨x, y, hx, hy, rfl⟩
    simpa using List.find?_eq_none.mp hf (order x y) (List.mem_of_getElem? hz)
  | some found =>
    obtain ⟨hne, i, hi, he, hbefore⟩ := List.find?_eq_some_iff_getElem.mp hf
    have hz := List.getElem?_eq_some_iff.mpr ⟨hi, he⟩
    obtain ⟨x, y, hx, hy, rfl⟩ := (ha.getElem?_zipWith order hb).mp hz
    refine .difference hx hy (of_decide_eq_true hne) ?_
    intro j hj x' y' hx' hy'
    have hz' := (ha.getElem?_zipWith order hb).mpr ⟨x', y', hx', hy', rfl⟩
    obtain ⟨_, hz'⟩ := List.getElem?_eq_some_iff.mp hz'
    have heq := hbefore j hj
    rw [hz'] at heq
    simpa using heq

theorem WellFormed.compareWith_eq_iff (ha : a.WellFormed hashing) (hb : b.WellFormed hashing)
    {answer : Ordering} : a.compareWith order b = answer ↔ Decides order a b answer := by
  constructor
  · rintro rfl
    exact ha.compareWith_decides order hb
  · exact (ha.compareWith_decides order hb).unique

theorem WellFormed.compareWith_eq_compareLex (ha : a.WellFormed hashing)
    (hb : b.WellFormed hashing) :
    a.compareWith order b = List.compareLex order a.toList b.toList := by
  rw [ha.compareWith_eq order hb, find?_zipWith_getD]

theorem transCmp_compareWith [Std.TransCmp order] :
    Std.TransCmp fun a b : { s : Sequence α // Reachable hashing s } => a.1.compareWith order b.1 :=
  transCmp_of_view (List.compareLex order) (fun a => a.1.toList) fun a b =>
    a.2.wellFormed.compareWith_eq_compareLex b.2.wellFormed

end Sequence

structure OrderedType extends ElementType where
  [ord : Ord Element]
  order? : Element → Element → Option Ordering

namespace OrderedType

attribute [instance] ord

/-- The total order is one, it is the partial order, and it ties exactly the elements that are
equal. -/
structure Lawful (T : OrderedType) : Prop where
  elements : T.toElementType.Lawful
  trans : Std.TransCmp (compare : T.Element → T.Element → Ordering)
  beq : Std.LawfulBEqCmp (compare : T.Element → T.Element → Ordering)
  order?_eq (x y : T.Element) : T.order? x y = some (compare x y)

def sequences (T : OrderedType) (wordHash : UInt32 → UInt64) (made : List (Sequence T.Element)) :
    OrderedType where
  toElementType := T.toElementType.sequences wordHash made
  ord := ⟨fun x y => compare x.1 y.1⟩
  order? x y := x.1.sequence.partialCompare T.order? y.1.sequence

/-- The type itself, and the sequences that runs make of elements of such a type, with any hasher of
their hashes. -/
inductive Nested (T : OrderedType) : OrderedType → Prop where
  | base : Nested T T
  | sequences (h : Nested T U) (wordHash : UInt32 → UInt64)
      (run : Run (some U.hash) store made) : Nested T (U.sequences wordHash made)

variable {T U : OrderedType} {store : Store} {made : List (Sequence T.Element)}
  {a b : Sequence T.Element} {wordHash : UInt32 → UInt64}

theorem Lawful.partialCompare_eq (hT : T.Lawful) (a b : Sequence T.Element) :
    a.partialCompare T.order? b = some (a.lexCompare b) := by
  have ho : T.order? = fun x y => some (compare x y) := by
    funext x y
    exact hT.order?_eq x y
  rw [ho, partialCompare_some]

theorem Lawful.lexCompare_eq_iff (hT : T.Lawful) (ha : a.WellFormed (some T.hash))
    (hb : b.WellFormed (some T.hash)) :
    a.lexCompare b = .eq ↔ (a.toList == b.toList) = true := by
  have := hT.beq
  rw [ha.lexCompare_eq hb]
  exact Std.LawfulBEqCmp.compare_eq_iff_beq

theorem Lawful.sequences (hT : T.Lawful) (run : Run (some T.hash) store made) :
    (T.sequences wordHash made).Lawful where
  elements := hT.elements.sequences run
  trans := by
    have := hT.trans
    exact transCmp_of_view (List.compareLex compare) (fun x => x.1.sequence.toList) fun x y =>
      (run.wellFormed x.2).lexCompare_eq (run.wellFormed y.2)
  beq := by
    constructor
    intro x y
    have hb : (x == y) = (x.1.sequence.toList == y.1.sequence.toList) :=
      hT.elements.sequences_beq_eq run x y
    rw [hb]
    exact hT.lexCompare_eq_iff (run.wellFormed x.2) (run.wellFormed y.2)
  order?_eq x y := hT.partialCompare_eq x.1.sequence y.1.sequence

theorem Nested.lawful (hU : T.Nested U) (hT : T.Lawful) : U.Lawful := by
  induction hU with
  | base => exact hT
  | sequences _ _ run ih => exact ih.sequences run

end OrderedType

/-- Any order of elements decides between reachable sequences at the first position where it tells
them apart, else by their lengths; if it is total and transitive, then so is what it decides. Over
lawfully ordered elements, and over sequences of such elements at any depth, the total order, the
partial order and the comparison by the order of the elements give one answer; it ties exactly the
sequences that are equal; and the sequences are lawfully ordered elements again. -/
theorem order_lexicographic :
    (∀ (α : Type) [BEq α] (hashing : Option (ElementHash α)) (order : α → α → Ordering),
      (∀ a b, Reachable hashing a → Reachable hashing b → ∀ answer,
        a.compareWith order b = answer ↔ Decides order a b answer) ∧
      (Std.TransCmp order →
        Std.TransCmp fun a b : { s // Reachable hashing s } => a.1.compareWith order b.1)) ∧
    ∀ T U : OrderedType, T.Lawful → T.Nested U →
      ∀ (store : Store) (made : List (Sequence U.Element)), Run (some U.hash) store made →
        (∀ a ∈ made, ∀ b ∈ made,
          a.partialCompare U.order? b = some (a.lexCompare b) ∧
          a.compareWith compare b = a.lexCompare b ∧
          (a.lexCompare b = .eq ↔ ((a.equals b).run store).1 = true)) ∧
        ∀ wordHash, (U.sequences wordHash made).Lawful := by
  constructor
  · intro α _ hashing order
    exact ⟨fun a b ha hb answer => ha.wellFormed.compareWith_eq_iff hb.wellFormed,
      fun _ => transCmp_compareWith⟩
  · intro T U hT hU store made run
    have hl : U.Lawful := hU.lawful hT
    refine ⟨fun a ha b hb => ⟨hl.partialCompare_eq a b, ?_, ?_⟩, fun _ => hl.sequences run⟩
    · rw [(run.wellFormed ha).compareWith_eq_compareLex (run.wellFormed hb),
        (run.wellFormed ha).lexCompare_eq (run.wellFormed hb)]
    · rw [hl.elements.equals_run run ha hb]
      exact hl.lexCompare_eq_iff (run.wellFormed ha) (run.wellFormed hb)

namespace OrderedType

instance : Ord ElementType.Residue where
  compare x y := compare (x.number % 2) (y.number % 2)

abbrev residues : OrderedType where
  toElementType := .residues
  ord := inferInstance
  order? x y := some (compare x y)

theorem lawful_residues : residues.Lawful where
  elements := ElementType.lawful_residues
  trans := transCmp_of_view compare (fun x : ElementType.Residue => x.number % 2) fun _ _ => rfl
  beq := ⟨fun {_ _} => Nat.compare_eq_eq.trans beq_iff_eq.symm⟩
  order?_eq _ _ := rfl

open ElementType in
/-- Two pairs that are tied by the remainders, and told apart by the numbers in descending order. -/
theorem order_lexicographic_pairs :
    Decides (fun x y : Residue => compare y.number x.number) leafOfTwo linkOfTwo .lt ∧
      leafOfTwo.lexCompare linkOfTwo = .eq ∧
      ((leafOfTwo.equals linkOfTwo).run ⟨#[0, 0, 0, 0]⟩).1 = true ∧
      (OrderedType.residues.sequences WordHash.ofUInt32
        [linkOfTwo, .run 2 ⟨4⟩ 1, .run 1 ⟨1⟩ 1, leafOfTwo]).Lawful := by
  obtain ⟨hany, hall⟩ := order_lexicographic
  have hleaf : Reachable (some ElementType.residues.hash) leafOfTwo :=
    ⟨_, _, run_pairs, leafElement.2⟩
  have hlink : Reachable (some ElementType.residues.hash) linkOfTwo :=
    ⟨_, _, run_pairs, linkElement.2⟩
  obtain ⟨hpairs, hlawful⟩ := hall _ _ OrderedType.lawful_residues .base _ _ run_pairs
  obtain ⟨-, -, heq⟩ := hpairs _ leafElement.2 _ linkElement.2
  have ho : leafOfTwo.lexCompare linkOfTwo = .eq := rfl
  exact ⟨((hany _ _ _).1 _ _ hleaf hlink _).mp rfl, ho, heq.mp ho, hlawful _⟩

end OrderedType

end SharedSequence
