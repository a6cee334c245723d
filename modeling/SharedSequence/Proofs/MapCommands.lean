import SharedSequence.Proofs.Questions

namespace SharedSequence

open Sequence Session

variable {α β : Type}

namespace ElementKind

variable {K : ElementKind} {w : Worlds K} {s t u v : Sequence K.Element}
  {m n : SequenceMap K.Element K.Element}

theorem agree_keep (target : String) (h : K.Same w s t) :
    Agree w (keep target s) (keep target t) K.Shows := by
  refine .bind (.writeSequence target h) ?_
  intro w₁ _ _ _ _
  exact .pure (congrArg Answer.summary (seen_summary h.elements))

theorem seen_mapSummary (h : K.SameEntries m n) : m.summarize.seen = n.summarize.seen := by
  simp only [SequenceMap.summarize, MapSummary.seen, SequenceMap.length, SequenceMap.isEmpty,
    isEmpty, h.keys.length_eq]

theorem agree_keepMap (target : String) (h : K.SameMap w m n) :
    Agree w (keepMap target m) (keepMap target n) K.Shows := by
  refine .bind (.writeMap target h) ?_
  intro w₁ _ _ _ _
  exact .pure (congrArg Answer.mapSummary (seen_mapSummary h.entries))

theorem SameElements.pair (h : K.SameElements s t) (h' : K.SameElements u v) :
    Outcome (fun m n => (m.keys = s ∧ m.values = u) ∧ n.keys = t ∧ n.values = v)
      (SequenceMap.pair s u) (SequenceMap.pair t v) := by
  rw [SequenceMap.pair, SequenceMap.pair, h.length_eq, h'.length_eq]
  split
  · exact ⟨⟨rfl, rfl⟩, rfl, rfl⟩
  · exact rfl

theorem Same.pair (h : K.Same w s t) (h' : K.Same w u v) :
    Outcome (K.SameMap w) (SequenceMap.pair s u) (SequenceMap.pair t v) := by
  refine (h.elements.pair h'.elements).mono ?_
  rintro m n ⟨⟨rfl, rfl⟩, rfl, rfl⟩
  exact ⟨h, h'⟩

/-- A node of other elements takes a cell and leaves the world as it is. -/
theorem builds_foreign [BEq α] {hashing : Option (ElementHash α)} {owners : Owners α}
    {node : Cell → β} :
    Builds hashing owners (do return node (← allocate)) fun _ _ => True := by
  intro store h
  exact ⟨owners ++ [none], List.prefix_append _ _, h.extend none, trivial⟩

section

variable [BEq α] {hashing : Option (ElementHash α)} {owners : Owners α}

theorem builds_replicate (count : Nat) (value : β) :
    Builds hashing owners (replicate count value) fun _ _ => True := by
  unfold Sequence.replicate
  split
  · exact builds_foreign
  · exact builds_foreign

theorem builds_ofArray (items : Array β) :
    Builds hashing owners (ofArray items) fun _ _ => True := by
  unfold Sequence.ofArray Sequence.ofBuffer
  split
  · exact builds_replicate 1 _
  · split
    · exact builds_foreign
    · exact builds_foreign

theorem builds_reverse (s : Sequence β) : Builds hashing owners s.reverse fun _ _ => True := by
  unfold Sequence.reverse
  split
  · exact .pure trivial
  · split
    · exact .pure trivial
    · exact .pure trivial
    · exact builds_foreign

theorem builds_gather (parts : List (Sequence α)) (copies : Option Nat) :
    Builds hashing owners (gather parts copies) fun _ _ => True := by
  unfold Sequence.gather
  split
  · exact builds_replicate _ _
  · exact builds_ofArray _

end

def gathered (parts : List α) : Option Nat → List α
  | none => parts
  | some count =>
    match parts with
    | [] => []
    | first :: _ => List.replicate count first

theorem yields_gather [BEq (Sequence α)] (parts : List (Sequence α)) (copies : Option Nat) :
    Yields (gather parts copies) fun g => g.WellFormed none ∧ g.toList = gathered parts copies := by
  cases copies with
  | none => exact yields_of_makes fun _ => makes_ofList parts
  | some count =>
    cases parts with
    | nil => exact yields_of_makes fun _ => makes_ofList []
    | cons first rest => exact yields_of_makes fun _ => makes_replicate count first

/-- Sequences of sequences that have the same elements one by one. -/
structure SameParts (K : ElementKind) (w : Worlds K) (g h : Sequence (Sequence K.Element)) :
    Prop where
  left : g.WellFormed none
  right : h.WellFormed none
  parts : List.Forall₂ (K.Same w) g.toList h.toList

theorem rel_replicate {P : α → α → Prop} {x y : α} (count : Nat) (h : P x y) :
    List.Forall₂ P (List.replicate count x) (List.replicate count y) := by
  induction count with
  | zero => exact .nil
  | succ count ih => exact .cons h ih

theorem same_gathered {ps qs : List (Sequence K.Element)} (h : List.Forall₂ (K.Same w) ps qs)
    (copies : Option Nat) :
    List.Forall₂ (K.Same w) (gathered ps copies) (gathered qs copies) := by
  cases copies with
  | none => exact h
  | some count =>
    cases h with
    | nil => exact .nil
    | cons hp _ => exact rel_replicate count hp

theorem same_mono {w' : Worlds K} {ps qs : List (Sequence K.Element)} (hw : w ≤ w')
    (h : List.Forall₂ (K.Same w) ps qs) : List.Forall₂ (K.Same w') ps qs :=
  h.imp fun _ _ hp => hp.mono hw

theorem agree_gather {ps qs : List (Sequence K.Element)} (h : List.Forall₂ (K.Same w) ps qs)
    (copies : Option Nat) :
    Agree w (allocating (gather ps copies)) (allocating (gather qs copies)) K.SameParts := by
  refine .allocating ((builds_gather ps copies).and_yields (yields_gather ps copies))
    ((builds_gather qs copies).and_yields (yields_gather qs copies)) ?_
  rintro w' g g' hw ⟨-, hg, he⟩ ⟨-, hg', he'⟩
  refine ⟨hg, hg', ?_⟩
  rw [he, he']
  exact same_mono hw (same_gathered h copies)

theorem SameParts.reverse {g h : Sequence (Sequence K.Element)} (hs : K.SameParts w g h) :
    Agree w (allocating g.reverse) (allocating h.reverse) K.SameParts := by
  refine .allocating ((builds_reverse g).and_yields (hs.left.reverse.and hs.left.toList_reverse))
    ((builds_reverse h).and_yields (hs.right.reverse.and hs.right.toList_reverse)) ?_
  rintro w' g' h' hw ⟨-, hg, he⟩ ⟨-, hh, he'⟩
  refine ⟨hg, hh, ?_⟩
  rw [he, he']
  exact List.rel_reverse (same_mono hw hs.parts)

theorem toMapBy_eq {σ : Type} [BEq σ] {hashing : Option (ElementHash σ)}
    (held : σ → Sequence α) {g : Sequence σ} (h : g.WellFormed hashing) : g.toMapBy held =
      match g.toList with
      | [keys, values] => SequenceMap.pair (held keys) (held values)
      | _ => .error (.invalidArgument .mapEncodingShape) := by
  rw [toMapBy, ← h.length_toList, h.get?_eq, h.get?_eq]
  match g.toList with
  | [] | [_] | [_, _] | _ :: _ :: _ :: _ => rfl

theorem SameParts.toMap {g h : Sequence (Sequence K.Element)} (hs : K.SameParts w g h) :
    Outcome (K.SameMap w) g.toMap h.toMap := by
  rw [Sequence.toMap, Sequence.toMap, toMapBy_eq id hs.left, toMapBy_eq id hs.right]
  have hp := hs.parts
  revert hp
  generalize g.toList = ps, h.toList = qs
  rintro (- | ⟨h₁, - | ⟨h₂, - | -⟩⟩)
  · exact rfl
  · exact rfl
  · exact h₁.pair h₂
  · exact rfl

theorem agree_map (c : MapCommand K.Element) (hv : ∀ x ∈ c.literals, K.Valid x) :
    Agree w c.run c.run K.Shows := by
  cases c with
  | pair a b target =>
    refine .bind (.readSequence a) ?_
    intro w₁ s t _ hs
    refine .bind (.readSequence b) ?_
    intro w₂ u v hw hu
    refine .bind (.checked ((hs.mono hw).pair hu)) ?_
    intro w₃ m n _ hm
    exact agree_keepMap target hm
  | copy map target =>
    refine .bind (.readMap map) ?_
    intro w₁ m n _ hm
    exact agree_keepMap target hm
  | get map key =>
    refine .bind (.readMap map) ?_
    intro w₁ m n _ hm
    exact .pure (seen_element (hm.entries.get? (alike_self (hv key (List.mem_singleton_self key)))))
  | contains map value =>
    have hx := alike_self (hv value (List.mem_singleton_self value))
    refine .bind (.readMap map) ?_
    intro w₁ m n _ hm
    refine .pure (congrArg₂ Answer.mapContains ?_ ?_)
    · exact hm.keys.elements.contains_eq hx
    · exact hm.values.elements.contains_eq hx
  | entries map =>
    refine .bind (.readMap map) ?_
    intro w₁ m n _ hm
    refine .pure (congrArg Answer.entries (hm.entries.entries_map_eq ?_))
    intro p q hp hq
    exact Prod.ext hp.2.2 hq.2.2
  | keys map target =>
    refine .bind (.readMap map) ?_
    intro w₁ m n _ hm
    exact agree_keep target hm.keys
  | values map target =>
    refine .bind (.readMap map) ?_
    intro w₁ m n _ hm
    exact agree_keep target hm.values
  | parts map keysTo valuesTo =>
    refine .bind (.readMap map) ?_
    intro w₁ m n _ hm
    refine .bind (.writeSequence keysTo hm.keys) ?_
    intro w₂ _ _ hw _
    refine .bind (.writeSequence valuesTo (hm.values.mono hw)) ?_
    intro w₃ _ _ _ _
    refine .pure (congrArg₂ Answer.mapParts ?_ ?_)
    · exact seen_summary hm.keys.elements
    · exact seen_summary hm.values.elements
  | recode map target =>
    refine .bind (.readMap map) ?_
    intro w₁ m n _ hm
    have hboth := List.Forall₂.cons hm.keys (.cons hm.values .nil)
    refine .bind (agree_gather hboth none) ?_
    intro w₂ g h _ hg
    refine .bind (.checked hg.toMap) ?_
    intro w₃ m' n' _ hm'
    refine .bind (.writeMap target hm') ?_
    intro w₄ _ _ _ _
    have hl : g.length = h.length := by
      rw [← hg.left.length_toList, ← hg.right.length_toList, hg.parts.length_eq]
    exact .pure (congrArg₂ (fun length => Answer.mapRecoded length false) hl
      (seen_mapSummary hm'.entries))
  | ofSequences registers copies reversed target =>
    refine .bind (.readSequences registers) ?_
    intro w₁ ps qs _ hps
    refine .bind (agree_gather hps copies) ?_
    intro w₂ g h _ hg
    have hkeep (w₃ : Worlds K) (g h : Sequence (Sequence K.Element)) (hg : K.SameParts w₃ g h) :
        Agree w₃ (do keepMap target (← checked g.toMap)) (do keepMap target (← checked h.toMap))
          K.Shows := by
      refine .bind (.checked hg.toMap) ?_
      intro w₄ m n _ hm
      exact agree_keepMap target hm
    cases reversed with
    | true => exact .bind hg.reverse fun w₃ g h _ hg => hkeep w₃ g h hg
    | false => exact .bind (.pure hg) fun w₃ g h _ hg => hkeep w₃ g h hg

/-- Commands for elements of any kind agree, if they ask for values. -/
theorem agree_command (c : Command K.Element) (hc : c.AsksValues K)
    (hv : ∀ x ∈ c.literals, K.Valid x) : Agree w c.run c.run K.Shows := by
  cases c with
  | construct construction target =>
    refine .bind (agree_construction construction hv) ?_
    intro w₁ s t _ hs
    exact agree_keep target hs
  | reduceAll parts target =>
    refine .bind (.readSequences parts) ?_
    intro w₁ ps qs _ h
    cases h with
    | nil => exact .pure rfl
    | cons hp hps =>
      have hall := List.Forall₂.cons hp hps
      refine .bind (.makes (makes_reduceAll (sound_left hall) rfl)
        (makes_reduceAll (sound_right hall) rfl) (alike_flatMap hall)) ?_
      intro w₂ s t _ hs
      exact agree_keep target hs
  | query question => exact agree_query question hc hv
  | map command => exact agree_map command hv

end ElementKind

end SharedSequence
