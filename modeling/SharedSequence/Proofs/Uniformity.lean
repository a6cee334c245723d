import SharedSequence.Binary64.Basic
import SharedSequence.Proofs.Equality

namespace SharedSequence

open Sequence

namespace Binary64

variable {x y z : Binary64}

theorem beq_eq_true_iff : (x == y) = true ↔ x.isNaN = false ∧ y.isNaN = false ∧
    (x.bits = y.bits ∨ x.magnitude = 0 ∧ y.magnitude = 0) := by
  change (!x.isNaN && !y.isNaN && (x.bits == y.bits || (x.magnitude == 0 && y.magnitude == 0))) =
    true ↔ _
  simp only [Bool.and_eq_true, Bool.or_eq_true, Bool.not_eq_true', beq_iff_eq, and_assoc]

theorem magnitude_eq (h : x.bits = y.bits ∨ x.magnitude = 0 ∧ y.magnitude = 0) :
    x.magnitude = y.magnitude := by
  rcases h with hb | ⟨hx, hy⟩
  · exact congrArg (· &&& 0x7fffffffffffffff) hb
  · rw [hx, hy]

/-- Equality is not reflexive, since what is no number equals nothing. -/
instance : PartialEquivBEq Binary64 where
  symm {x y} h := by
    obtain ⟨hx, hy, hb⟩ := beq_eq_true_iff.mp h
    exact beq_eq_true_iff.mpr ⟨hy, hx, hb.imp Eq.symm And.symm⟩
  trans {x y z} h h' := by
    obtain ⟨hx, -, hb⟩ := beq_eq_true_iff.mp h
    obtain ⟨-, hz, hb'⟩ := beq_eq_true_iff.mp h'
    refine beq_eq_true_iff.mpr ⟨hx, hz, ?_⟩
    rcases hb with hxy | ⟨hx0, hy0⟩
    · rcases hb' with hyz | ⟨hy0, hz0⟩
      · exact .inl (hxy.trans hyz)
      · exact .inr ⟨(magnitude_eq (.inl hxy)).trans hy0, hz0⟩
    · exact .inr ⟨hx0, (magnitude_eq hb').symm.trans hy0⟩

end Binary64

namespace Sequence

variable {α : Type} [BEq α]

/-- Every element is equal to the first one, which therefore is equal to itself. -/
def EqualsFirst (s : Sequence α) : Prop :=
  ∀ first, s.get? 0 = some first → ∀ i x, s.get? i = some x → (x == first) = true

/-- A run of an element that is not equal to itself. -/
def IsUnequalRun : Sequence α → Prop
  | run _ value _ => (value == value) = false
  | _ => False

theorem not_isUnequalRun [ReflBEq α] (s : Sequence α) : ¬ s.IsUnequalRun := by
  cases s with
  | run cell value count =>
    intro h
    rw [IsUnequalRun, BEq.rfl] at h
    cases h
  | nil | flat | indexed | window | reversed | link => exact id

theorem IsUnequalRun.isUniform {s : Sequence α} (h : s.IsUnequalRun) : s.isUniform = true := by
  cases s with
  | run => rfl
  | nil | flat | indexed | window | reversed | link => exact h.elim

variable {hashing : Option (ElementHash α)} {s t : Sequence α}

theorem WellFormed.not_equalsFirst_of_isUnequalRun (h : s.WellFormed hashing)
    (hr : s.IsUnequalRun) : ¬ s.EqualsFirst := by
  cases s with
  | run cell value count =>
    intro he
    have hg : (run cell value count).get? 0 = some value := if_pos (wellFormed_run.mp h)
    rw [IsUnequalRun, he value hg 0 value hg] at hr
    cases hr
  | nil | flat | indexed | window | reversed | link => exact hr.elim

variable [PartialEquivBEq α]

theorem WellFormed.equalsFirst_iff (h : s.WellFormed hashing) :
    s.EqualsFirst ↔ ∀ x ∈ s.toList, ∀ y ∈ s.toList, (x == y) = true := by
  simp only [EqualsFirst, h.get?_eq]
  constructor
  · intro he x hx y hy
    have hfirst := List.getElem?_eq_getElem (List.length_pos_of_mem hx)
    obtain ⟨i, hi⟩ := List.mem_iff_getElem?.mp hx
    obtain ⟨j, hj⟩ := List.mem_iff_getElem?.mp hy
    exact BEq.trans (he _ hfirst i x hi) (BEq.symm (he _ hfirst j y hj))
  · intro hall first hf i x hx
    exact hall x (List.mem_of_getElem? hx) first (List.mem_of_getElem? hf)

/-- The element that a traversal compares with is equal to all elements, among them itself. A
reversal asks its base, which is not a run; so its first element may be another one. -/
theorem WellFormed.beq_of_isUniform (h : s.WellFormed hashing) (hr : ¬ s.IsUnequalRun)
    (hu : s.isUniform = true) : ∀ x ∈ s.toList, ∀ y ∈ s.toList, (x == y) = true := by
  induction s with
  | nil => nofun
  | run cell value count =>
    intro x hx y hy
    rw [List.eq_of_mem_replicate hx, List.eq_of_mem_replicate hy]
    exact eq_true_of_ne_false hr
  | reversed cell base ih =>
    obtain ⟨⟨-, ht⟩, hb⟩ := wellFormed_reversed.mp h
    have hbr : ¬ base.IsUnequalRun := by
      cases base with
      | run => exact ht.elim
      | nil | flat | indexed | window | reversed | link => exact id
    simp only [toList, List.mem_reverse]
    exact ih hb hbr hu
  | flat | indexed | window | link =>
    simp only [isUniform] at hu
    intro x hx y hy
    split at hu
    · rename_i hnone
      rw [h.get?_eq, List.getElem?_eq_none_iff, Nat.le_zero, List.length_eq_zero_iff] at hnone
      rw [hnone] at hx
      cases hx
    · rename_i first _
      rw [h.extract_eq, Collector.completed_uniformCheck, List.all_eq_true] at hu
      exact BEq.trans (BEq.symm (hu x hx)) (hu y hy)

theorem WellFormed.isUniform_of_equalsFirst (h : s.WellFormed hashing) (he : s.EqualsFirst) :
    s.isUniform = true := by
  cases hu : s.isUniform with
  | true => rfl
  | false =>
    obtain ⟨x, hx, y, hy, hxy⟩ := h.varied hu
    rw [h.equalsFirst_iff.mp he x (List.mem_toArray.mp hx) y (List.mem_toArray.mp hy)] at hxy
    cases hxy

theorem WellFormed.isUniform_iff_or (h : s.WellFormed hashing) :
    s.isUniform = true ↔ s.EqualsFirst ∨ s.IsUnequalRun := by
  constructor
  · intro hu
    by_cases hr : s.IsUnequalRun
    · exact .inr hr
    · exact .inl (h.equalsFirst_iff.mpr (h.beq_of_isUniform hr hu))
  · rintro (he | hr)
    · exact h.isUniform_of_equalsFirst he
    · exact hr.isUniform

theorem WellFormed.isUniform_eq_of_toList_eq (hs : s.WellFormed hashing)
    (ht : t.WellFormed hashing) (he : s.toList = t.toList)
    (hr : s.IsUnequalRun ↔ t.IsUnequalRun) : s.isUniform = t.isUniform := by
  rw [Bool.eq_iff_iff, hs.isUniform_iff_or, ht.isUniform_iff_or, hs.equalsFirst_iff,
    ht.equalsFirst_iff, he, hr]

end Sequence

abbrev ElementType.integers : ElementType where
  Element := Int64

theorem ElementType.lawful_integers : integers.Lawful where
  equiv := inferInstance
  hash_eq := by
    rintro _ ⟨⟩ x y hxy
    exact congrArg hash32 (eq_of_beq hxy)

/-- The element types of programs. Sequences as elements come from a run of their own, and
floating-point numbers have no hash. -/
inductive ProgramElement : (α : Type) → [BEq α] → Option (ElementHash α) → Prop where
  | int64 : ProgramElement Int64 (some inferInstance)
  | int32 : ProgramElement Int32 (some inferInstance)
  | byte : ProgramElement UInt8 (some inferInstance)
  | character : ProgramElement Char (some inferInstance)
  | text : ProgramElement String (some inferInstance)
  | sequence {store : Store} {made : List (Sequence Int64)} (wordHash : UInt32 → UInt64)
      (run : Run (some ElementType.integers.hash) store made) :
      ProgramElement (ElementType.integers.sequences wordHash made).Element
        (some (ElementType.integers.sequences wordHash made).hash)
  | binary64 : ProgramElement Binary64 none

variable {α : Type} [BEq α] {hashing : Option (ElementHash α)} {s : Sequence α}

theorem ProgramElement.equiv {hash : ElementHash α} (hk : ProgramElement α hashing)
    (hh : hash ∈ hashing) : EquivBEq α := by
  cases hk with
  | int64 | int32 | byte | character | text => infer_instance
  | sequence _ run => exact (ElementType.lawful_integers.sequences run).equiv
  | binary64 => cases hh

theorem ProgramElement.partialEquiv (hk : ProgramElement α hashing) : PartialEquivBEq α := by
  cases hashing with
  | some hash =>
    have := hk.equiv (Option.mem_some_self hash)
    infer_instance
  | none =>
    cases hk
    infer_instance

/-- A reachable sequence counts as uniform exactly where every element is equal to the first one,
or where it is a run of an element that is not equal to itself. There are such runs only of elements
without a hash; apart from them, sequences of the same elements get the same answer, whatever their
trees are. -/
theorem ProgramElement.isUniform_iff_equalsFirst (hk : ProgramElement α hashing)
    (h : Reachable hashing s) :
    (s.isUniform = true ↔ s.EqualsFirst ∨ s.IsUnequalRun) ∧
      ((s.isUniform = true ↔ s.EqualsFirst) ↔ ¬ s.IsUnequalRun) ∧
      (∀ hash ∈ hashing, ¬ s.IsUnequalRun) ∧
      ∀ t, Reachable hashing t → s.toList = t.toList → (s.IsUnequalRun ↔ t.IsUnequalRun) →
        s.isUniform = t.isUniform := by
  have := hk.partialEquiv
  have hw := h.wellFormed
  refine ⟨hw.isUniform_iff_or, ?_, ?_, ?_⟩
  · constructor
    · intro hu hr
      exact hw.not_equalsFirst_of_isUnequalRun hr (hu.mp hr.isUniform)
    · intro hr
      rw [hw.isUniform_iff_or, or_iff_left hr]
  · intro hash hh
    have := hk.equiv hh
    exact s.not_isUnequalRun
  · intro t ht
    exact hw.isUniform_eq_of_toList_eq ht.wellFormed

theorem equalsFirst_zeros :
    (flat 0 #[⟨0⟩, ⟨0x8000000000000000⟩] 0 2 : Sequence Binary64).EqualsFirst := by
  have hr : Reachable none (flat 0 #[⟨0⟩, ⟨0x8000000000000000⟩] 0 2 : Sequence Binary64) :=
    ⟨_, _, Run.start.step (.ofArray #[⟨0⟩, ⟨0x8000000000000000⟩]) rfl, .head _⟩
  obtain ⟨hu, -, -, -⟩ := ProgramElement.binary64.isUniform_iff_equalsFirst hr
  exact (hu.mp rfl).resolve_right id

def notANumber : Binary64 :=
  ⟨0x7ff8000000000000⟩

/-- A run and a flat leaf of two elements that are not equal to themselves: both are reachable and
have the same elements, but only the run counts as uniform. -/
theorem run_uniform_of_unequal :
    (Reachable none (run 0 notANumber 2) ∧ (run 0 notANumber 2).isUniform = true ∧
      ¬ (run 0 notANumber 2).EqualsFirst) ∧
    Reachable none (flat 0 #[notANumber, notANumber] 0 2) ∧
      (flat 0 #[notANumber, notANumber] 0 2).isUniform = false ∧
      (run 0 notANumber 2).toList = (flat 0 #[notANumber, notANumber] 0 2).toList := by
  have hrun : Reachable none (run 0 notANumber 2) :=
    ⟨_, _, Run.start.step (.replicate 2 notANumber) rfl, .head _⟩
  have hflat : Reachable none (flat 0 #[notANumber, notANumber] 0 2) :=
    ⟨_, _, Run.start.step (.ofArray #[notANumber, notANumber]) rfl, .head _⟩
  have hne : (notANumber == notANumber) = false := rfl
  exact ⟨⟨hrun, rfl, hrun.wellFormed.not_equalsFirst_of_isUnequalRun hne⟩, hflat, rfl, rfl⟩

end SharedSequence
