import SharedSequence.Proofs.Memo
import SharedSequence.Sequence.Hashed
import SharedSequence.SequenceMap
import SharedSequence.WordHash

namespace SharedSequence

open Sequence

variable {α : Type}

theorem list_beq_symm [BEq α] [EquivBEq α] {xs ys : List α} (h : (xs == ys) = true) :
    (ys == xs) = true := by
  rw [list_beq_iff_forall₂] at h ⊢
  exact h.flip.imp fun _ _ => PartialEquivBEq.symm

theorem list_beq_trans [BEq α] [EquivBEq α] {xs ys zs : List α} (h : (xs == ys) = true)
    (h' : (ys == zs) = true) : (xs == zs) = true := by
  rw [list_beq_iff_forall₂] at h h' ⊢
  exact forall₂_trans h h' fun _ _ _ => PartialEquivBEq.trans

instance equivBEqList [BEq α] [EquivBEq α] : EquivBEq (List α) where
  symm := list_beq_symm
  trans := list_beq_trans
  rfl := BEq.rfl

theorem equivBEq_of_view {β γ : Type} [BEq β] [BEq γ] [EquivBEq γ] (view : β → γ)
    (h : ∀ x y, (x == y) = (view x == view y)) : EquivBEq β where
  symm {x y} hxy := by
    rw [h] at hxy ⊢
    exact PartialEquivBEq.symm hxy
  trans {x y z} hxy hyz := by
    rw [h] at hxy hyz ⊢
    exact PartialEquivBEq.trans hxy hyz
  rfl {x} := by
    rw [h]
    exact BEq.rfl

section

variable [BEq α] [EquivBEq α] {hash : ElementHash α} {owners : Owners α} {a b : Sequence α}

/-- Neither identity nor hashes change what is equal. -/
theorem Sequence.Sound.shortcuts_eq (hh : HashAgrees (some hash))
    (ha : a.Sound (some hash) owners) (hb : b.Sound (some hash) owners) :
    (a.sameInstance b || (hashOf hash a.toList == hashOf hash b.toList && a.toList == b.toList)) =
      (a.toList == b.toList) := by
  cases hl : a.toList == b.toList with
  | true => rw [hashOf_eq_of_beq hh hl, beq_self_eq_true, Bool.and_true, Bool.or_true]
  | false =>
    rw [Bool.and_false, Bool.or_false]
    apply Bool.eq_false_iff.mpr
    intro hi
    rw [ha.owned.eq_of_cell hb.owned (eq_of_beq hi), BEq.rfl] at hl
    cases hl

theorem Sequence.Sound.equals_eq (hh : HashAgrees (some hash)) (ha : a.Sound (some hash) owners)
    (hb : b.Sound (some hash) owners) :
    Builds (some hash) owners (a.equals b) fun _ r => r = (a.toList == b.toList) := by
  apply (ha.equals (Option.mem_some_self hash) hb).mono
  rintro later r - rfl
  exact ha.shortcuts_eq hh hb

theorem Sequence.Sound.beq_eq (hh : HashAgrees (some hash)) (ha : a.Sound (some hash) owners)
    (hb : b.Sound (some hash) owners) : (a == b) = (a.toList == b.toList) := by
  rw [ha.wellFormed.beq_eq_shortcuts hb.wellFormed]
  exact ha.shortcuts_eq hh hb

end

structure ElementType where
  Element : Type
  [beq : BEq Element]
  [hash : ElementHash Element]

namespace ElementType

attribute [instance] beq hash

/-- Equality is an equivalence, and equal elements have one hash. -/
structure Lawful (T : ElementType) : Prop where
  equiv : EquivBEq T.Element
  hash_eq : HashAgrees (some T.hash)

/-- The sequences made in a run, as elements of further sequences. -/
def sequences (T : ElementType) (wordHash : UInt32 → UInt64) (made : List (Sequence T.Element)) :
    ElementType where
  Element := { x : HashedSequence T.Element // x.sequence ∈ made }
  beq := ⟨fun x y => x.1 == y.1⟩
  hash := ⟨fun x => x.1.elementHash wordHash⟩

/-- The type itself, and the sequences that runs make of elements of such a type, with any hasher of
their hashes. -/
inductive Nested (T : ElementType) : ElementType → Prop where
  | base : Nested T T
  | sequences (h : Nested T U) (wordHash : UInt32 → UInt64)
      (run : Run (some U.hash) store made) : Nested T (U.sequences wordHash made)

variable {T U : ElementType} {store : Store} {made : List (Sequence T.Element)}
  {wordHash : UInt32 → UInt64}

theorem Lawful.sequences_beq_eq (hT : T.Lawful) (run : Run (some T.hash) store made)
    (x y : (T.sequences wordHash made).Element) :
    (x == y) = (x.1.sequence.toList == y.1.sequence.toList) := by
  have := hT.equiv
  obtain ⟨owners, -, hs⟩ := run.sound
  have hxy : (x.1 == y.1) = (x.1.sequence == y.1.sequence) := HashedSequence.beq_eq x.1 y.1
  exact hxy.trans ((hs _ x.2).beq_eq hT.hash_eq (hs _ y.2))

/-- Sequences as elements keep the laws of their own elements. -/
theorem Lawful.sequences (hT : T.Lawful) (run : Run (some T.hash) store made) :
    (T.sequences wordHash made).Lawful where
  equiv := by
    have := hT.equiv
    exact equivBEq_of_view (fun x => x.1.sequence.toList) (hT.sequences_beq_eq run)
  hash_eq := by
    rintro _ ⟨⟩ x y hxy
    rw [hT.sequences_beq_eq run] at hxy
    obtain ⟨owners, -, hs⟩ := run.sound
    have hx : x.1.sequence.computeHash = hashOf T.hash x.1.sequence.toList :=
      (hs _ x.2).wellFormed.computeHash_eq
    have hy : y.1.sequence.computeHash = hashOf T.hash y.1.sequence.toList :=
      (hs _ y.2).wellFormed.computeHash_eq
    change x.1.elementHash wordHash = y.1.elementHash wordHash
    rw [HashedSequence.elementHash_eq, HashedSequence.elementHash_eq, elementHash, elementHash, hx,
      hy, hashOf_eq_of_beq hT.hash_eq hxy]

theorem Nested.lawful (hU : T.Nested U) (hT : T.Lawful) : U.Lawful := by
  induction hU with
  | base => exact hT
  | sequences _ _ run ih => exact ih.sequences run

variable {s a b : Sequence T.Element}

theorem Lawful.equals_run (hT : T.Lawful) (run : Run (some T.hash) store made) (ha : a ∈ made)
    (hb : b ∈ made) : ((a.equals b).run store).1 = (a.toList == b.toList) := by
  have := hT.equiv
  obtain ⟨owners, hc, hs⟩ := run.sound
  obtain ⟨-, -, -, hr⟩ := (hs _ ha).equals_eq hT.hash_eq (hs _ hb) store hc
  exact hr

theorem Lawful.equals_iff (hT : T.Lawful) (run : Run (some T.hash) store made) (ha : a ∈ made)
    (hb : b ∈ made) : ((a.equals b).run store).1 = true ↔ a.Matches b := by
  rw [hT.equals_run run ha hb, (run.wellFormed ha).matches_iff (run.wellFormed hb)]

theorem Lawful.beq_iff (hT : T.Lawful) (run : Run (some T.hash) store made) (ha : a ∈ made)
    (hb : b ∈ made) : (a == b) = true ↔ a.Matches b := by
  have := hT.equiv
  obtain ⟨owners, -, hs⟩ := run.sound
  rw [(hs _ ha).beq_eq hT.hash_eq (hs _ hb), (hs _ ha).wellFormed.matches_iff (hs _ hb).wellFormed]

theorem Lawful.equals_equivalence (hT : T.Lawful) (run : Run (some T.hash) store made) :
    Equivalence fun a b : { s // s ∈ made } => ((a.1.equals b.1).run store).1 = true := by
  have := hT.equiv
  simp only [fun a b : { s // s ∈ made } => hT.equals_run run a.2 b.2]
  exact ⟨fun _ => BEq.rfl, PartialEquivBEq.symm, PartialEquivBEq.trans⟩

theorem elementHash_hashed (run : Run (some T.hash) store made) (hs : s ∈ made) :
    s.hashed.elementHash wordHash = foldHash (wordHash (s.hashCode.run store).1) := by
  rw [run.hashCode_eq hs s.mem_nodes_self, ← (run.wellFormed hs).computeHash_eq]
  rfl

theorem Lawful.firstIn_findWindow (hT : T.Lawful) (run : Run (some T.hash) store made)
    (hs : s ∈ made) (value : T.Element) {offset length : Nat} (hl : offset + length ≤ s.length) :
    FirstIn (s.holds value) offset (offset + length)
      (s.findWindow value offset length .forward) := by
  rw [(run.wellFormed hs).findWindow_eq hT.hash_eq value hl]
  exact firstIn_scan _ offset length

theorem Lawful.mem_bucket (hT : T.Lawful) (run : Run (some T.hash) store made) (hs : s ∈ made)
    {index : HashIndex} (hi : s.hashIndex? = some index) {value : T.Element} {position : Nat}
    (hp : s.holds value position = true) : position ∈ index.bucket (hash32 value) := by
  have hw := run.wellFormed hs
  cases s with
  | nil | run | flat | window | reversed | link => cases hi
  | indexed cell items table hasher =>
    obtain ⟨-, rfl, _, ⟨⟩, rfl⟩ := wellFormed_indexed.mp hw
    cases hi
    obtain ⟨x, hx, hv⟩ := (Option.any_eq_true _ _).mp hp
    have hlt : position < items.size := (Array.getElem?_eq_some_iff.mp hx).1
    change items[position]? = some x at hx
    rw [HashIndex.bucket_build, List.mem_filter, List.mem_range, hx, Option.any_some,
      hT.hash_eq _ rfl x value hv]
    exact ⟨hlt, beq_self_eq_true _⟩

theorem Lawful.get?_map (hT : T.Lawful) (run : Run (some T.hash) store made) {ν : Type}
    {keys : Sequence T.Element} {values : Sequence ν} {map : SequenceMap T.Element ν}
    (hk : keys ∈ made) (hm : SequenceMap.pair keys values = .ok map) (key : T.Element) :
    ∃ found, FirstIn (keys.holds key) 0 keys.length found ∧
      map.get? key = found.bind values.get? := by
  unfold SequenceMap.pair at hm
  split at hm
  · cases hm
    have hf := hT.firstIn_findWindow run hk key (Nat.le_of_eq (Nat.zero_add keys.length))
    rw [Nat.zero_add] at hf
    apply Exists.intro (keys.findWindow key 0 keys.length .forward)
    apply And.intro hf
    unfold SequenceMap.get? SequenceMap.length
    dsimp only
    cases keys.findWindow key 0 keys.length .forward <;> rfl
  · cases hm

/-- Over elements with lawful equality and hash, and over sequences of such elements at any depth,
sequences are equal exactly where their lengths and their elements are, whatever is remembered now
or later. Equal sequences have one hash and give one word to hashing, so sequences are lawful
elements again: searches, indexes and maps find the first element that is equal to the one asked
for. -/
theorem Lawful.equality_elementwise (hT : T.Lawful) (hU : T.Nested U) {store : Store}
    {made : List (Sequence U.Element)} (run : Run (some U.hash) store made)
    (wordHash : UInt32 → UInt64) :
    (∀ a ∈ made, ∀ b ∈ made, ((a == b) = true ↔ a.Matches b) ∧
        ∀ now held, Later (some U.hash) store made now held →
          (((a.equals b).run now).1 = true ↔ a.Matches b) ∧
            (a.Matches b → (a.hashCode.run now).1 = (b.hashCode.run now).1 ∧
              a.hashed.elementHash wordHash = b.hashed.elementHash wordHash)) ∧
      (∀ s ∈ made, s.hashed.elementHash wordHash =
        foldHash (wordHash (s.hashCode.run store).1)) ∧
      Equivalence (fun a b : { s // s ∈ made } => ((a.1.equals b.1).run store).1 = true) ∧
      (U.sequences wordHash made).Lawful ∧
      (∀ x y : (U.sequences wordHash made).Element,
        (x == y) = true ↔ x.1.sequence.Matches y.1.sequence) ∧
      ∀ s ∈ made, ∀ value : U.Element,
        (∀ offset length, offset + length ≤ s.length →
          FirstIn (s.holds value) offset (offset + length)
            (s.findWindow value offset length .forward)) ∧
          (∀ index, s.hashIndex? = some index → ∀ position, s.holds value position = true →
            position ∈ index.bucket (hash32 value)) ∧
          ∀ (ν : Type) (values : Sequence ν) map, SequenceMap.pair s values = .ok map →
            ∃ found, FirstIn (s.holds value) 0 s.length found ∧
              map.get? value = found.bind values.get? := by
  have hl : U.Lawful := hU.lawful hT
  have hw {s : Sequence U.Element} (hs : s ∈ made) : s.WellFormed (some U.hash) :=
    Reachable.wellFormed ⟨_, _, run, hs⟩
  refine ⟨?_, fun s hs => elementHash_hashed run hs, hl.equals_equivalence run, hl.sequences run,
    ?_, ?_⟩
  · intro a ha b hb
    apply And.intro (hl.beq_iff run ha hb)
    intro now held later
    have go := later.run run
    apply And.intro (hl.equals_iff go (later.mem ha) (later.mem hb))
    intro hm
    have hc : (a.hashCode.run now).1 = (b.hashCode.run now).1 := by
      rw [go.hashCode_eq (later.mem ha) a.mem_nodes_self,
        go.hashCode_eq (later.mem hb) b.mem_nodes_self]
      exact hashOf_eq_of_beq hl.hash_eq (((hw ha).matches_iff (hw hb)).mp hm)
    apply And.intro hc
    rw [elementHash_hashed go (later.mem ha), elementHash_hashed go (later.mem hb), hc]
  · intro x y
    rw [hl.sequences_beq_eq run, (hw x.2).matches_iff (hw y.2)]
  · intro s hs value
    exact ⟨fun offset length h => hl.firstIn_findWindow run hs value h,
      fun index hi position hp => hl.mem_bucket run hs hi hp,
      fun ν values map hm => hl.get?_map run hs hm value⟩

/-- A number of which only the remainder by two is looked at. -/
structure Residue where
  number : Nat

instance : BEq Residue where
  beq x y := x.number % 2 == y.number % 2

instance : ElementHash Residue where
  hash32 x := if x.number % 2 = 0 then 0 else 1

abbrev residues : ElementType where
  Element := Residue

theorem lawful_residues : residues.Lawful where
  equiv := equivBEq_of_view (fun x => x.number % 2) fun _ _ => rfl
  hash_eq := by
    rintro _ ⟨⟩ x y hxy
    have hm : x.number % 2 = y.number % 2 := eq_of_beq hxy
    change (if x.number % 2 = 0 then 0 else 1 : UInt32) = if y.number % 2 = 0 then 0 else 1
    rw [hm]

/-- A leaf and a link of two leaves, whose numbers are equal one by one. -/
def leafOfTwo : Sequence residues.Element :=
  .flat 0 #[⟨3⟩, ⟨2⟩] 0 2

def linkOfTwo : Sequence residues.Element :=
  .link 3 (.run 1 ⟨1⟩ 1) (.run 2 ⟨4⟩ 1) .neutral 2

theorem run_pairs : Run (some residues.hash) ⟨#[0, 0, 0, 0]⟩
    [linkOfTwo, .run 2 ⟨4⟩ 1, .run 1 ⟨1⟩ 1, leafOfTwo] := by
  have h₁ : Run (some residues.hash) ⟨#[0]⟩ [leafOfTwo] := Run.start.step (.ofArray #[⟨3⟩, ⟨2⟩]) rfl
  have h₂ := h₁.step (.replicate 1 ⟨1⟩) rfl
  have h₃ := h₂.step (.replicate 1 ⟨4⟩) rfl
  exact h₃.step (.concat (.tail _ (.head _)) (.head _)) rfl

abbrev pairs : ElementType :=
  residues.sequences WordHash.ofUInt32 [linkOfTwo, .run 2 ⟨4⟩ 1, .run 1 ⟨1⟩ 1, leafOfTwo]

def leafElement : pairs.Element :=
  ⟨leafOfTwo.hashed, .tail _ (.tail _ (.tail _ (.head _)))⟩

def linkElement : pairs.Element :=
  ⟨linkOfTwo.hashed, .head _⟩

def nestedRun : Sequence pairs.Element :=
  .run 0 linkElement 2

def nestedLeaf : Sequence pairs.Element :=
  .flat 1 #[leafElement, linkElement] 0 2

def nestedView : Sequence pairs.Element :=
  .reversed 2 nestedLeaf

theorem run_nested :
    Run (some pairs.hash) ⟨#[0, 0, 0]⟩ [nestedView, nestedLeaf, nestedRun] := by
  have h₁ : Run (some pairs.hash) ⟨#[0]⟩ [nestedRun] :=
    Run.start.step (.replicate 2 linkElement) rfl
  have h₂ := h₁.step (.ofArray #[leafElement, linkElement]) rfl
  exact h₂.step (.reverse (.head _)) rfl

/-- Equality of the inner sequences, and from it equality and search of the outer ones. -/
theorem equality_elementwise_nested :
    (leafElement == linkElement) = true ∧
      (((nestedRun.equals nestedView).run ⟨#[0, 0, 0]⟩).1 = true) ∧
      FirstIn (nestedView.holds leafElement) 0 2
        (nestedView.findWindow leafElement 0 2 .forward) := by
  have hnested : residues.Nested pairs := .sequences .base _ run_pairs
  have hrun : nestedRun ∈ [nestedView, nestedLeaf, nestedRun] := .tail _ (.tail _ (.head _))
  have hleaf : leafOfTwo.WellFormed (some residues.hash) :=
    Reachable.wellFormed ⟨_, _, run_pairs, leafElement.2⟩
  have hlink : linkOfTwo.WellFormed (some residues.hash) :=
    Reachable.wellFormed ⟨_, _, run_pairs, linkElement.2⟩
  have hone : nestedRun.WellFormed (some pairs.hash) :=
    Reachable.wellFormed ⟨_, _, run_nested, hrun⟩
  have hview : nestedView.WellFormed (some pairs.hash) :=
    Reachable.wellFormed ⟨_, _, run_nested, .head _⟩
  obtain ⟨-, -, -, hlawful, hinner, -⟩ :=
    lawful_residues.equality_elementwise .base run_pairs WordHash.ofUInt32
  obtain ⟨houter, -, -, -, -, hfind⟩ :=
    lawful_residues.equality_elementwise hnested run_nested WordHash.ofUInt32
  have := hlawful.equiv
  have hpairs : (leafElement == linkElement) = true :=
    (hinner _ _).mpr ((hleaf.matches_iff hlink).mpr rfl)
  have hlist : ([linkElement, linkElement] == [linkElement, leafElement]) = true := by
    simp [PartialEquivBEq.symm hpairs]
  have hmatch : nestedRun.Matches nestedView := (hone.matches_iff hview).mpr hlist
  exact ⟨hpairs, (((houter _ hrun _ (.head _)).2 _ _ .here).1).mpr hmatch,
    (hfind _ (.head _) leafElement).1 0 2 (Nat.le_refl _)⟩

end ElementType

end SharedSequence
