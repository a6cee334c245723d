import SharedSequence.Proofs.Agreement
import SharedSequence.Session.HashedStep

namespace SharedSequence

open Sequence Session

variable {α β : Type}

def Excerpt.map (f : α → β) : Excerpt α → Excerpt β
  | whole items => whole (items.map f)
  | ends head tail => ends (head.map f) (tail.map f)

/-- A summary of values; whether the tree is compact or indexed is blanked out. -/
def Summary.seen (f : α → β) (summary : Summary α) : Summary β :=
  { length := summary.length, isCompact := false, isIndexed := false,
    excerpt := summary.excerpt.map f }

def MapSummary.seen (summary : MapSummary) : MapSummary :=
  { summary with keysIndexed := false, valuesIndexed := false }

/-- An answer with values in place of elements, and with the form of trees blanked out. -/
def Answer.seen (f : α → β) : Answer α → Answer β
  | nothing => nothing
  | summary s => summary (s.seen f)
  | compaction s _ => compaction (s.seen f) []
  | info length isEmpty first last _ _ =>
    info length isEmpty (first.map f) (last.map f) false false
  | listInfo length isEmpty sameInstance => listInfo length isEmpty sameInstance
  | element value => element (value.map f)
  | elements values => elements (values.map f)
  | traversal completed seen => traversal completed (seen.map f)
  | script answers => script (answers.map (·.map f))
  | flag value => flag value
  | count value => count value
  | counts values => counts values
  | position value => position value
  | occurrences found last contains => occurrences found last contains
  | listOccurrences first last contains => listOccurrences first last contains
  | bucket positions => bucket positions
  | index table => index table
  | order value => order value
  | comparison total partialOrder isLess isAtLeast =>
    comparison total partialOrder isLess isAtLeast
  | text value => text value
  | written completed value => written completed value
  | debugTexts sequence list block => debugTexts sequence list block
  | mapSummary s => mapSummary s.seen
  | mapParts keys values => mapParts (keys.seen f) (values.seen f)
  | mapRecoded length _ s => mapRecoded length false s.seen
  | mapContains key value => mapContains key value
  | entries pairs => entries (pairs.map fun (key, value) => (f key, f value))

def Construction.literals : Construction α → List α
  | replicate _ value => [value]
  | ofArray items | ofBuffer items | ofSlice items _ _ => items.toList
  | ofOptions items => items.filterMap id
  | appendEach _ items | prependEach _ items => items
  | empty | copy _ | concat _ _ | concatAll _ | combineAll _ | slice _ _ _ | sliceFrom _ _
  | subList _ _ _ | reverse _ | compactFlat _ => []

def Query.literals : Query α → List α
  | writeInto _ target _ => target.toList
  | find _ value _ | findLast _ value | contains _ value | findAll _ value
  | listFind _ value => [value]
  | info _ | isUniform _ | toList _ | get _ _ | listGet _ _ | listElement _ _ | listInfo _
  | fold _ _ _ | walk _ _ _ | extract _ _ | extractRange _ _ _ _ _ | findSequence _ _ _
  | hashMask _ | sameInstance _ _ | outline _ => []

def MapCommand.literals : MapCommand α → List α
  | get _ key => [key]
  | contains _ value => [value]
  | pair _ _ _ | copy _ _ | entries _ | keys _ _ | values _ _ | parts _ _ _ | recode _ _
  | ofSequences _ _ _ _ => []

def Command.literals : Command α → List α
  | construct construction _ => construction.literals
  | reduceAll _ _ => []
  | query question => question.literals
  | map command => command.literals

def HashedCommand.literals : HashedCommand α → List α
  | mapOfEntries entries _ => entries.map Prod.fst ++ entries.map Prod.snd
  | compact _ _ _ | compactTraced _ _ _ | hashCode _ | hashIndex _ | bucket _ _ | sameIndex _ _
  | equals _ _ | equalsEmpty _ | compare _ _ | compareWith _ _ _ | debug _ | toJson _ | ofJson _ _
  | mapDebug _ => []

/-- The question is about elements, not about identity or the form of trees, and a fold that it asks
for sees only their values. -/
def Query.AsksValues (K : ElementKind) : Query K.Element → Prop
  | sameInstance _ _ | outline _ => False
  | fold _ _ step => ∀ text x y, K.Alike x y → step text x = step text y
  | _ => True

/-- The command is not about identity or the form of trees. -/
def Command.AsksValues (K : ElementKind) : Command K.Element → Prop
  | query question => question.AsksValues K
  | _ => True

/-- The command is not about indices, the work of a compaction, or JSON texts to be read. -/
def HashedCommand.AsksValues : HashedCommand α → Prop
  | compactTraced _ _ _ | hashIndex _ | bucket _ _ | sameIndex _ _ | ofJson _ _ => False
  | _ => True

namespace ElementKind

variable {K : ElementKind} {w : Worlds K} {s t u v : Sequence K.Element}
  {m n : SequenceMap K.Element K.Element} {a b : String}

def Shows (K : ElementKind) (_ : Worlds K) (x y : Answer K.Element) : Prop :=
  x.seen K.value = y.seen K.value

theorem Same.concat (h : K.Same w s t) (h' : K.Same w u v) :
    Agree w (allocating (s.concat u)) (allocating (t.concat v)) K.Same :=
  .makes (h.left.concat h'.left) (h.right.concat h'.right) (List.rel_append h.alike h'.alike)

theorem Same.reverse (h : K.Same w s t) :
    Agree w (allocating s.reverse) (allocating t.reverse) K.Same :=
  .makes h.left.reverse h.right.reverse (List.rel_reverse h.alike)

theorem Same.slice (h : K.Same w s t) (offset length : Nat) :
    Outcome (fun x y => Agree w (allocating x) (allocating y) K.Same) (s.slice offset length)
      (t.slice offset length) := by
  have hl := h.elements.length_eq
  by_cases hw : offset + length ≤ s.length
  · rw [slice_eq_ok hw, slice_eq_ok (by rw [← hl]; exact hw)]
    exact .makes (h.left.cut hw) (h.right.cut (by rw [← hl]; exact hw))
      (alike_slots offset length h.alike)
  · have hs : s.length < offset + length := Nat.lt_of_not_le hw
    rw [slice_eq_error hs, slice_eq_error (by rw [← hl]; exact hs)]
    exact rfl

theorem Same.sliceFrom (h : K.Same w s t) (offset : Nat) :
    Outcome (fun x y => Agree w (allocating x) (allocating y) K.Same) (s.sliceFrom offset)
      (t.sliceFrom offset) := by
  rw [Sequence.sliceFrom, Sequence.sliceFrom, lengthFrom, lengthFrom, h.elements.length_eq]
  split
  · exact h.slice offset _
  · exact rfl

theorem Same.subList (h : K.Same w s t) (start stop : Nat) :
    Outcome (fun x y => Agree w (allocating x) (allocating y) K.Same)
      (s.asList.subList start stop) (t.asList.subList start stop) := by
  rw [ListView.subList, ListView.subList]
  split
  · exact h.slice start _
  · exact rfl

theorem Same.appendEach (h : K.Same w s t) {items : List K.Element}
    (hv : ∀ x ∈ items, K.Valid x) :
    Agree w (allocating (s.appendEach items)) (allocating (t.appendEach items)) K.Same :=
  .makes (makes_appendEach h.left items) (makes_appendEach h.right items)
    (List.rel_append h.alike (alike_refl hv))

theorem Same.prependEach (h : K.Same w s t) {items : List K.Element}
    (hv : ∀ x ∈ items, K.Valid x) :
    Agree w (allocating (s.prependEach items)) (allocating (t.prependEach items)) K.Same :=
  .makes (makes_prependEach h.left items) (makes_prependEach h.right items)
    (List.rel_append (List.rel_reverse (alike_refl hv)) h.alike)

theorem Same.compact (h : K.Same w s t) (withIndex : Bool) :
    Agree w (allocating (s.compact withIndex)) (allocating (t.compact withIndex)) K.Same :=
  .built (.compact h.left (valid_left h.alike) withIndex)
    (.compact h.right (valid_right h.alike) withIndex) h.alike

theorem Same.compactFlat (h : K.Same w s t) :
    Agree w (allocating s.compactFlat) (allocating t.compactFlat) K.Same :=
  .built (.compactFlat h.left (valid_left h.alike)) (.compactFlat h.right (valid_right h.alike))
    h.alike

section

variable {ps qs : List (Sequence K.Element)}

theorem sound_left (h : List.Forall₂ (K.Same w) ps qs) :
    ∀ p ∈ ps, p.Sound (some K.hash) w.left :=
  forall_mem_of_forall₂ h fun _ _ hp => hp.left

theorem sound_right (h : List.Forall₂ (K.Same w) ps qs) :
    ∀ q ∈ qs, q.Sound (some K.hash) w.right :=
  forall_mem_of_forall₂ h.flip fun _ _ hq => hq.right

theorem alike_flatMap (h : List.Forall₂ (K.Same w) ps qs) :
    List.Forall₂ K.Alike (ps.flatMap Sequence.toList) (qs.flatMap Sequence.toList) :=
  List.rel_flatMap h fun _ _ hp => hp.alike

end

theorem agree_literal {make : StoreM (Sequence K.Element)} {items : List K.Element}
    (hm : ∀ owners, Makes (some K.hash) owners make items) (hv : ∀ x ∈ items, K.Valid x) :
    Agree w (allocating make) (allocating make) K.Same :=
  .makes (hm w.left) (hm w.right) (alike_refl hv)

theorem presentItems_eq {items : List (Option α)} {i : Nat} {xs : List α}
    (h : presentItems items i = .ok xs) : items.filterMap id = xs := by
  induction items generalizing i xs with
  | nil =>
    cases h
    rfl
  | cons x items ih =>
    cases x with
    | none => cases h
    | some x =>
      rw [presentItems] at h
      cases hp : presentItems items (i + 1) with
      | error e =>
        rw [hp] at h
        cases h
      | ok rest =>
        rw [hp] at h
        cases h
        rw [List.filterMap_cons, ih hp]
        rfl

theorem agree_construction (c : Construction K.Element) (hv : ∀ x ∈ c.literals, K.Valid x) :
    Agree w c.run c.run K.Same := by
  cases c with
  | empty => exact agree_literal (fun _ => makes_empty) nofun
  | replicate count value =>
    refine agree_literal (fun _ => makes_replicate count value) ?_
    intro x hx
    rw [List.eq_of_mem_replicate hx]
    exact hv value (List.mem_singleton_self value)
  | ofArray items => exact agree_literal (fun _ => makes_ofArray items) hv
  | ofBuffer items => exact agree_literal (fun _ => makes_ofBuffer items) hv
  | ofSlice items offset length =>
    refine .building ?_
    rw [Sequence.ofSlice]
    split
    · refine agree_literal (fun _ => makes_ofArray _) ?_
      intro x hx
      rw [Array.toList_extract, List.extract_eq_take_drop] at hx
      exact hv x (List.mem_of_mem_drop (List.mem_of_mem_take hx))
    · exact rfl
  | ofOptions items =>
    refine .building ?_
    rw [Sequence.ofOptions]
    cases hp : presentItems items 0 with
    | error e => exact rfl
    | ok xs =>
      rw [Construction.literals, presentItems_eq hp] at hv
      exact agree_literal (fun _ => makes_ofList xs) hv
  | copy a => exact .readSequence a
  | concat a b =>
    refine .bind (.readSequence a) ?_
    intro w₁ s t _ hs
    refine .bind (.readSequence b) ?_
    intro w₂ u v hw hu
    exact (hs.mono hw).concat hu
  | concatAll parts =>
    refine .bind (.readSequences parts) ?_
    intro w₁ ps qs _ h
    exact .makes (makes_concatAll (sound_left h)) (makes_concatAll (sound_right h))
      (alike_flatMap h)
  | combineAll parts =>
    refine .bind (.readSequences parts) ?_
    intro w₁ ps qs _ h
    exact .makes (makes_combineAll (sound_left h)) (makes_combineAll (sound_right h))
      (alike_flatMap h)
  | appendEach a items =>
    refine .bind (.readSequence a) ?_
    intro w₁ s t _ hs
    exact hs.appendEach hv
  | prependEach a items =>
    refine .bind (.readSequence a) ?_
    intro w₁ s t _ hs
    exact hs.prependEach hv
  | slice a offset length =>
    refine .bind (.readSequence a) ?_
    intro w₁ s t _ hs
    exact .building (hs.slice offset length)
  | sliceFrom a offset =>
    refine .bind (.readSequence a) ?_
    intro w₁ s t _ hs
    exact .building (hs.sliceFrom offset)
  | subList a start stop =>
    refine .bind (.readSequence a) ?_
    intro w₁ s t _ hs
    exact .building (hs.subList start stop)
  | reverse a =>
    refine .bind (.readSequence a) ?_
    intro w₁ s t _ hs
    exact hs.reverse
  | compactFlat a =>
    refine .bind (.readSequence a) ?_
    intro w₁ s t _ hs
    exact hs.compactFlat

end ElementKind

end SharedSequence
