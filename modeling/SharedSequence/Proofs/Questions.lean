import SharedSequence.Proofs.Constructions

namespace SharedSequence

open Sequence Session

namespace ElementKind

variable {K : ElementKind} {w : Worlds K} {s t : Sequence K.Element}

theorem agree_ask {f : Sequence K.Element → Answer K.Element} (a : String)
    (h : ∀ s t, K.SameElements s t → (f s).seen K.value = (f t).seen K.value) :
    Agree w (do return f (← Session.readSequence a)) (do return f (← Session.readSequence a))
      K.Shows := by
  refine .bind (.readSequence a) ?_
  intro w₁ s t _ hs
  exact .pure (h s t hs.elements)

theorem agree_inquire {β : Type} {f : Sequence K.Element → Except SequenceError β}
    {g : β → Answer K.Element} (a : String)
    (h : ∀ s t, K.SameElements s t →
      Outcome (fun b c => (g b).seen K.value = (g c).seen K.value) (f s) (f t)) :
    Agree w (do return g (← checked (f (← Session.readSequence a))))
      (do return g (← checked (f (← Session.readSequence a)))) K.Shows := by
  refine .bind (.readSequence a) ?_
  intro w₁ s t _ hs
  refine .bind (Q := fun _ b c => (g b).seen K.value = (g c).seen K.value)
    (.checked (h s t hs.elements)) ?_
  intro w₂ b c _ hbc
  exact .pure hbc

theorem seen_elements {xs ys : List K.Element} (h : List.Forall₂ K.Alike xs ys) :
    (Answer.elements xs).seen K.value = (Answer.elements ys).seen K.value :=
  congrArg Answer.elements (values_eq h)

theorem seen_element {x y : Option K.Element} (h : Option.Rel K.Alike x y) :
    (Answer.element x).seen K.value = (Answer.element y).seen K.value :=
  congrArg Answer.element (option_value_eq h)

theorem seen_ofRecording {p q : ForInStep (Array K.Element)}
    (h : StepRel (fun a b : Array K.Element => List.Forall₂ K.Alike a.toList b.toList) p q) :
    (Answer.ofRecording p).seen K.value = (Answer.ofRecording q).seen K.value := by
  rcases p with a | a <;> rcases q with b | b
  · exact congrArg (Answer.traversal false) (values_eq h)
  · exact h.elim
  · exact h.elim
  · exact congrArg (Answer.traversal true) (values_eq h)

theorem seen_excerpt (h : K.SameElements s t) :
    s.excerpt.map K.value = t.excerpt.map K.value := by
  rw [Sequence.excerpt, Sequence.excerpt, h.length_eq]
  split
  · exact congrArg Excerpt.whole (values_eq (h.elementsAt _ _))
  · exact congrArg₂ Excerpt.ends (values_eq (h.elementsAt _ _)) (values_eq (h.elementsAt _ _))

theorem seen_summary (h : K.SameElements s t) :
    s.summarize.seen K.value = t.summarize.seen K.value := by
  rw [Summary.seen, Summary.seen, summarize, summarize, h.length_eq, seen_excerpt h]

theorem agree_query (q : Query K.Element) (hq : q.AsksValues K) (hv : ∀ x ∈ q.literals, K.Valid x) :
    Agree w q.run q.run K.Shows := by
  cases q with
  | info a =>
    refine agree_ask a fun s t h => ?_
    simp only [Answer.seen, isEmpty, first?, h.length_eq, option_value_eq (h.get? 0),
      option_value_eq h.last?]
  | isUniform a =>
    refine agree_ask a fun s t h => ?_
    rw [h.isUniform_eq]
  | toList a => exact agree_ask a fun s t h => seen_elements h.toArray
  | get a index =>
    refine agree_inquire (g := fun x => .element (some x)) a fun s t h => ?_
    exact (h.get index).mono fun _ _ hx => seen_element (.some hx)
  | listGet a index => exact agree_ask a fun s t h => seen_element (h.get? index)
  | listElement a index =>
    refine .bind (.readSequence a) ?_
    intro w₁ s t _ hs
    have hi := hs.elements.elementAt index
    revert hi
    rcases s.asList.elementAt index with e | x <;> rcases t.asList.elementAt index with f | y
    · rintro rfl
      exact .throw _
    · exact False.elim
    · exact False.elim
    · exact fun hx => .pure (seen_element (.some hx))
  | listInfo a =>
    refine agree_ask a fun s t h => ?_
    simp only [Answer.seen, asList, ListView.length, ListView.isEmpty, isEmpty, sameInstance,
      h.length_eq, beq_self_eq_true]
  | fold a initial step =>
    refine agree_ask a fun s t h => ?_
    rw [h.fold_eq hq]
  | walk a skipping script =>
    refine agree_ask a fun s t h => ?_
    exact congrArg Answer.script (h.performAll_eq skipping script)
  | extract a stop =>
    refine agree_ask a fun s t h => ?_
    exact seen_ofRecording (h.extract (recorder_rel stop) .nil)
  | extractRange a offset length direction stop =>
    refine agree_inquire a fun s t h => ?_
    exact (h.extractRange (recorder_rel stop) .nil offset length direction).mono
      fun _ _ => seen_ofRecording
  | writeInto a target offset =>
    refine .bind (.readSequence a) ?_
    intro w₁ s t _ hs
    have hw := hs.elements.writeInto hv offset
    revert hw
    rcases s.writeInto target offset with ⟨outcome, written⟩
    rcases t.writeInto target offset with ⟨_, written'⟩
    rintro ⟨rfl, hwritten⟩
    refine .bind (Q := fun _ => Eq) (.checked (.refl (fun _ => rfl) outcome)) ?_
    rintro w₂ _ _ _ -
    exact .pure (seen_elements hwritten)
  | find a value offset =>
    have hx := alike_self (hv value (List.mem_singleton_self value))
    refine agree_inquire a fun s t h => ?_
    rw [h.find_eq hx]
    apply Outcome.refl
    intro found
    rfl
  | findLast a value =>
    have hx := alike_self (hv value (List.mem_singleton_self value))
    refine agree_ask a fun s t h => ?_
    rw [h.findLast_eq hx]
  | contains a value =>
    have hx := alike_self (hv value (List.mem_singleton_self value))
    refine agree_ask a fun s t h => ?_
    rw [h.contains_eq hx]
  | findAll a value =>
    have hx := alike_self (hv value (List.mem_singleton_self value))
    refine agree_ask a fun s t h => ?_
    rw [h.positions_eq hx, h.findLast_eq hx, h.contains_eq hx]
  | listFind a value =>
    have hx := alike_self (hv value (List.mem_singleton_self value))
    refine agree_ask a fun s t h => ?_
    simp only [asList, ListView.indexOf, ListView.length, ListView.lastIndexOf, ListView.contains,
      h.findFirst_eq hx, h.findLast_eq hx, h.contains_eq hx]
  | findSequence a needle offset =>
    refine .bind (.readSequence a) ?_
    intro w₁ s t _ hs
    refine .bind (.readSequence needle) ?_
    intro w₂ u v _ hu
    rw [hs.elements.findSequence_eq hu.elements]
    refine .bind (Q := fun _ => Eq) (.checked (.refl (fun _ => rfl) _)) ?_
    rintro w₃ found _ _ rfl
    exact .pure rfl
  | hashMask entries => exact .pure rfl
  | sameInstance a b => exact hq.elim
  | outline a => exact hq.elim

end ElementKind

end SharedSequence
