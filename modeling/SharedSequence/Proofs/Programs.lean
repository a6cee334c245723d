import SharedSequence.Proofs.KindCommands

namespace SharedSequence

open Sequence Session

namespace ElementKind

/-- The function sees only the values of elements. -/
def SeesValues (K : ElementKind) {β : Type} (f : K.Element → β) : Prop :=
  ∀ x y, K.Alike x y → f x = f y

/-- Instructions that ask for values, with elements that programs of the kind may hold. Collectors,
folds and comparisons are any that see values only. -/
inductive Instruction : ElementKind → Type 1 where
  | command {K : ElementKind} (c : Command K.Element) (hc : c.AsksValues K)
      (hv : ∀ x ∈ c.literals, K.Valid x) : Instruction K
  | hashed {K : ElementKind} (c : HashedCommand K.Element) (hc : c.AsksValues)
      (hv : ∀ x ∈ c.literals, K.Valid x) : Instruction K
  | text (c : TextCommand) : Instruction chars
  | bytes (c : ByteCommand) : Instruction bytes
  | nested {K : ElementKind} {wordHash : UInt32 → UInt64} {owners : Owners K.Element}
      (c : NestedCommand K.Element) (hv : ∀ x ∈ nestedLiterals c, K.Valid x) :
      Instruction (K.nested wordHash owners)
  | extract {K : ElementKind} {σ : Type} (a : String) (offset length : Nat)
      (direction : Direction) (push : Collector σ K.Element) (initial : σ)
      (hp : ∀ state, K.SeesValues (push state)) : Instruction K
  | fold {K : ElementKind} {σ : Type} (a : String) (step : σ → K.Element → σ) (initial : σ)
      (hs : ∀ state, K.SeesValues (step state)) : Instruction K
  | compareBy {K : ElementKind} (a b : String) (order : K.Element → K.Element → Ordering)
      (ho : ∀ w x y z, K.Alike w x → K.Alike y z → order w y = order x z) : Instruction K

variable {K : ElementKind}

def Instruction.Result : {K : ElementKind} → Instruction K → Type
  | K, command _ _ _ | K, hashed _ _ _ => Answer K.Value
  | _, text _ => Answer Char
  | _, bytes _ => Answer UInt8
  | _, nested (K := K) _ _ => MapContents K.Value
  | _, extract (σ := σ) _ _ _ _ _ _ _ => ForInStep σ
  | _, fold (σ := σ) _ _ _ _ => σ
  | _, compareBy _ _ _ _ => Ordering

/-- Answers what is seen of values. -/
def Instruction.run : {K : ElementKind} → (i : Instruction K) → SessionM K.Element i.Result
  | K, command c _ _ => do return (← c.run).seen K.value
  | K, hashed c _ _ => do return (← c.run).seen K.value
  | _, text c => do return (← c.run).seen id
  | _, bytes c => do return (← c.run).seen id
  | _, nested (K := K) c _ => do return K.seenContents (← c.run)
  | _, extract a offset length direction push initial _ => do
    checked ((← readSequence a).extractRange push offset length direction initial)
  | _, fold a step initial _ => do return (← readSequence a).fold step initial
  | _, compareBy a b order _ => do
    let a ← readSequence a
    let b ← readSequence b
    return a.compareWith order b

/-- Forms that a sequence may be put into: compact without or with an index, or made anew of a copy
of its elements. -/
inductive Form where
  | flat
  | indexed
  | copied

/-- A sequence of the same elements in a form. -/
def Form.rebuild {α : Type} [BEq α] [ElementHash α] : Form → Sequence α → StoreM (Sequence α)
  | flat, s => s.compact false
  | indexed, s => s.compact true
  | copied, s => Sequence.ofArray s.toArray

def replace (K : ElementKind) (name : String) (form : Form) : SessionM K.Element Unit := do
  writeSequence name (← allocating (form.rebuild (← readSequence name)))

/-- Steps of a program: its instructions, and what may happen between them. -/
inductive Step (K : ElementKind) where
  | instruction (i : Instruction K)
  | replace (name : String) (form : Form)
  /-- A sequence of other elements takes a cell. -/
  | elsewhere

abbrev Reply := Σ β : Type, Except Failure β

namespace Step

def isInstruction : Step K → Bool
  | instruction _ => true
  | replace _ _ | elsewhere => false

def after (a : Session K.Element) : Step K → Session K.Element
  | instruction i => (outcome i.run a).2
  | replace name form => (outcome (K.replace name form) a).2
  | elsewhere => (outcome (allocating allocate) a).2

/-- What a step answers; only instructions do. -/
def reply? (a : Session K.Element) : Step K → Option Reply
  | instruction i => some ⟨i.Result, (outcome i.run a).1⟩
  | replace _ _ | elsewhere => none

end Step

def after (a : Session K.Element) (program : List (Step K)) : Session K.Element :=
  program.foldl Step.after a

def replies : Session K.Element → List (Step K) → List Reply
  | _, [] => []
  | a, step :: rest => (step.reply? a).toList ++ replies (step.after a) rest

def values (a : Session K.Element) (name : String) : Option (List K.Value) :=
  (a.sequences.lookup name).map fun s => s.toList.map K.value

def mapValues (a : Session K.Element) (name : String) : Option (List K.Value × List K.Value) :=
  (a.maps.lookup name).map fun m => (m.keys.toList.map K.value, m.values.toList.map K.value)

/-- All registers of both sessions hold the same values. -/
def SameValues (a b : Session K.Element) : Prop :=
  (∀ name, values a name = values b name) ∧ ∀ name, mapValues a name = mapValues b name

variable {w w' : Worlds K} {a b c d : Session K.Element}

theorem eq_of_outcome {β : Type} {x y : Except Failure β} (h : Outcome Eq x y) : x = y := by
  rcases x with e | b <;> rcases y with f | c
  · exact congrArg Except.error h
  · exact h.elim
  · exact h.elim
  · exact congrArg Except.ok h

theorem eq_of_stepRel {σ : Type} {p q : ForInStep σ} (h : StepRel Eq p q) : p = q := by
  rcases p with x | x <;> rcases q with y | y
  · exact congrArg ForInStep.done h
  · exact h.elim
  · exact h.elim
  · exact congrArg ForInStep.yield h

theorem stepRel_refl {σ : Type} (p : ForInStep σ) : StepRel Eq p p := by
  cases p with
  | done x => exact rfl
  | yield x => exact rfl

theorem Instruction.agree (i : Instruction K) : Agree w i.run i.run fun _ => Eq := by
  cases i with
  | command c hc hv =>
    refine .bind (agree_command c hc hv) ?_
    intro w₁ x y _ hxy
    exact .pure hxy
  | hashed c hc hv =>
    refine .bind (agree_hashed c hc hv) ?_
    intro w₁ x y _ hxy
    exact .pure hxy
  | text c =>
    refine .bind (agree_text c) ?_
    intro w₁ x y _ hxy
    exact .pure hxy
  | bytes c =>
    refine .bind (agree_bytes c) ?_
    intro w₁ x y _ hxy
    exact .pure hxy
  | nested c hv =>
    refine .bind (agree_nested c hv) ?_
    intro w₁ x y _ hxy
    exact .pure hxy
  | extract a offset length direction push initial hp =>
    refine .bind (.readSequence a) ?_
    intro w₁ s t _ hs
    have hstep (p q x y) (hpq : p = q) (hx : K.Alike x y) : StepRel Eq (push p x) (push q y) := by
      rw [hpq, hp q x y hx]
      exact stepRel_refl _
    refine .checked ((hs.elements.extractRange hstep rfl offset length direction).mono ?_)
    intro p q hpq
    exact eq_of_stepRel hpq
  | fold a step initial hf =>
    refine .bind (.readSequence a) ?_
    intro w₁ s t _ hs
    exact .pure (hs.elements.fold_eq hf initial)
  | compareBy a b order ho =>
    refine .bind (.readSequence a) ?_
    intro w₁ s t _ hs
    refine .bind (.readSequence b) ?_
    intro w₂ u v _ hu
    exact .pure (hs.elements.compareWith_eq ho hu.elements)

theorem built_rebuild {owners : Owners K.Element} {s : Sequence K.Element}
    (h : s.Sound (some K.hash) owners) (hv : ∀ x ∈ s.toList, K.Valid x) (form : Form) :
    K.Built owners (form.rebuild s) s.toList := by
  cases form with
  | flat => exact .compact h hv false
  | indexed => exact .compact h hv true
  | copied =>
    have hm : Makes (some K.hash) owners (ofArray s.toArray) s.toArray.toList := makes_ofArray _
    have he : s.toArray.toList = s.toList := by rw [h.wellFormed.toArray_eq]
    rw [he] at hm
    exact .of_makes hm hv

theorem outcome_replace_of_unset {name : String} (h : a.sequences.lookup name = none)
    (form : Form) : (outcome (K.replace name form) a).2 = a := by
  rw [replace, outcome_bind, outcome_readSequence, h]

theorem outcome_replace_of_set {name : String} {s : Sequence K.Element}
    (h : a.sequences.lookup name = some s) (form : Form) :
    (outcome (K.replace name form) a).2 =
      { a with
        store := ((form.rebuild s).run a.store).2
        sequences := (name, ((form.rebuild s).run a.store).1) :: a.sequences } := by
  rw [replace, outcome_bind, outcome_readSequence, h]
  rfl

theorem SameSessions.replace (h : K.SameSessions w a b) (name : String) (form : Form) :
    ∃ w', K.SameSessions w' (outcome (K.replace name form) a).2 b := by
  have hname := h.sequences name
  cases hs : a.sequences.lookup name with
  | none =>
    rw [outcome_replace_of_unset hs]
    exact ⟨w, h⟩
  | some s =>
    rw [outcome_replace_of_set hs]
    rw [hs] at hname
    cases ht : b.sequences.lookup name with
    | none =>
      rw [ht] at hname
      cases hname
    | some t =>
      rw [ht] at hname
      obtain ⟨hst⟩ := hname
      obtain ⟨left, hle, hleft, hsound, halike⟩ :=
        built_rebuild hst.left (valid_left hst.alike) form a.store h.left
      have hw : w ≤ ⟨left, w.right⟩ := ⟨hle, List.prefix_rfl⟩
      have hstores := h.stores hw hleft h.right
      refine ⟨⟨left, w.right⟩, hleft, h.right, ?_, hstores.maps⟩
      intro other
      rw [List.lookup_cons]
      split
      · rename_i hother
        rw [eq_of_beq hother, ht]
        exact .some ⟨hsound, hst.right, alike_trans (alike_symm halike) hst.alike⟩
      · exact hstores.sequences other

theorem SameSessions.elsewhere (h : K.SameSessions w a b) :
    ∃ w', K.SameSessions w' (outcome (allocating allocate) a).2 b := by
  have hw : w ≤ ⟨w.left ++ [none], w.right⟩ := ⟨List.prefix_append _ _, List.prefix_rfl⟩
  exact ⟨_, h.stores hw (h.left.extend none) h.right⟩

/-- A program has the replies of its instructions alone, and leaves the same elements. -/
theorem SameSessions.program (h : K.SameSessions w a b) (program : List (Step K)) :
    replies a program = replies b (program.filter Step.isInstruction) ∧
      ∃ w', K.SameSessions w' (after a program) (after b (program.filter Step.isInstruction)) := by
  -- Between instructions only the first session moves on, into another world.
  induction program generalizing w a b with
  | nil => exact ⟨rfl, w, h⟩
  | cons step rest ih =>
    cases step with
    | instruction i =>
      obtain ⟨w', -, hs, ho⟩ := i.agree a b h
      obtain ⟨hr, hlast⟩ := ih hs
      refine ⟨?_, hlast⟩
      have hreply : (outcome i.run a).1 = (outcome i.run b).1 := eq_of_outcome ho
      exact congrArg₂ List.cons (congrArg (Sigma.mk i.Result) hreply) hr
    | replace name form =>
      obtain ⟨w', hs⟩ := h.replace name form
      exact ih hs
    | elsewhere =>
      obtain ⟨w', hs⟩ := h.elsewhere
      exact ih hs

theorem sameSessions_empty : K.SameSessions ⟨[], []⟩ {} {} where
  left := .empty
  right := .empty
  sequences _ := .none
  maps _ := .none

theorem SameSessions.sameValues (h : K.SameSessions w a b) : SameValues a b := by
  constructor
  · intro name
    exact option_map_eq (h.sequences name) fun _ _ hs => values_eq hs.alike
  · intro name
    exact option_map_eq (h.maps name) fun _ _ hm =>
      Prod.ext (values_eq hm.keys.alike) (values_eq hm.values.alike)

theorem Same.of_values {s t u v : Sequence K.Element} (h : K.Same w s t) (h' : K.Same w' u v)
    (hv : s.toList.map K.value = u.toList.map K.value) : K.Same ⟨w.left, w'.left⟩ s u :=
  ⟨h.left, h'.left, alike_of_values (valid_left h.alike) (valid_left h'.alike) hv⟩

theorem option_rel_of_map {β γ : Type} {P Q R : β → β → Prop} {f : β → γ} {p q x y : Option β}
    (hp : Option.Rel P p q) (hx : Option.Rel Q x y) (he : p.map f = x.map f)
    (h : ∀ b c d e, P b c → Q d e → f b = f d → R b d) : Option.Rel R p x := by
  cases hp with
  | some hp =>
    cases hx with
    | some hx => exact .some (h _ _ _ _ hp hx (Option.some.inj he))
    | none => cases he
  | none =>
    cases hx with
    | some hx => cases he
    | none => exact .none

/-- What two sessions hold can be told by values from what is held beside each of them. -/
theorem SameSessions.of_values (h : K.SameSessions w a b) (h' : K.SameSessions w' c d)
    (hv : SameValues a c) : K.SameSessions ⟨w.left, w'.left⟩ a c where
  left := h.left
  right := h'.left
  sequences name := by
    refine option_rel_of_map (h.sequences name) (h'.sequences name) (hv.1 name) ?_
    intro s t u v hs hu he
    exact hs.of_values hu he
  maps name := by
    refine option_rel_of_map (h.maps name) (h'.maps name) (hv.2 name) ?_
    intro m m' n n' hm hn he
    obtain ⟨hk, hv⟩ := Prod.mk.inj he
    exact ⟨hm.keys.of_values hn.keys hk, hm.values.of_values hn.values hv⟩

theorem SameValues.symm (h : SameValues a b) : SameValues b a :=
  ⟨fun name => (h.1 name).symm, fun name => (h.2 name).symm⟩

theorem SameValues.trans (h : SameValues a b) (h' : SameValues b c) : SameValues a c :=
  ⟨fun name => (h.1 name).trans (h'.1 name), fun name => (h.2 name).trans (h'.2 name)⟩

/-- Neither the forms that registers are put into nor other sequences change a reply of a program
or a value it leaves; and what follows has the same replies after programs that leave the same
values. -/
theorem compaction_invisible (K : ElementKind) :
    (∀ program : List (Step K),
      replies {} program = replies {} (program.filter Step.isInstruction) ∧
        SameValues (after {} program) (after {} (program.filter Step.isInstruction))) ∧
      ∀ first second : List (Step K), SameValues (after {} first) (after {} second) →
        ∀ rest : List (Step K), replies (after {} first) rest = replies (after {} second) rest ∧
          SameValues (after (after {} first) rest) (after (after {} second) rest) := by
  constructor
  · intro program
    obtain ⟨hr, w, hs⟩ := sameSessions_empty.program program
    exact ⟨hr, hs.sameValues⟩
  · intro first second hv rest
    obtain ⟨-, w, h⟩ := sameSessions_empty.program first
    obtain ⟨-, w', h'⟩ := sameSessions_empty.program second
    obtain ⟨hr, v, hs⟩ := (h.of_values h' hv).program rest
    obtain ⟨hr', v', hs'⟩ := (h'.of_values h' ⟨fun _ => rfl, fun _ => rfl⟩).program rest
    exact ⟨hr.trans hr'.symm, hs.sameValues.trans hs'.sameValues.symm⟩

def runOfFives : Sequence Int64 :=
  .run 0 5 2

def bufferOfFives : Sequence Int64 :=
  .flat 1 #[5, 5] 0 2

def one : Sequence Int64 :=
  .run 2 1 1

/-- The sequences that own these cells, as elements. -/
abbrev owned : ElementKind :=
  (plain Int64).nested WordHash.ofUInt32 [some runOfFives, some bufferOfFives, some one]

theorem valid_runOfFives : owned.Valid runOfFives.hashed :=
  ⟨⟨wellFormed_run.mpr (by decide), everywhere_run.mpr rfl⟩, fun _ _ => trivial⟩

theorem valid_bufferOfFives : owned.Valid bufferOfFives.hashed :=
  ⟨⟨wellFormed_flat.mpr (by decide), everywhere_flat.mpr rfl⟩, fun _ _ => trivial⟩

theorem valid_one : owned.Valid one.hashed :=
  ⟨⟨wellFormed_run.mpr (by decide), everywhere_run.mpr rfl⟩, fun _ _ => trivial⟩

/-- The kinds of numbers, texts and sequences. -/
example : List ElementKind :=
  [plain Int64, plain Int32, bytes, chars, plain String, owned]

def listed : List (Step owned) :=
  [.instruction (.command
    (.construct (.ofArray #[runOfFives.hashed, one.hashed, runOfFives.hashed]) "a") trivial
    (List.forall_mem_cons.mpr ⟨valid_runOfFives,
      List.forall_mem_cons.mpr ⟨valid_one, List.forall_mem_singleton.mpr valid_runOfFives⟩⟩))]

/-- The same values with other trees, joined from parts and then indexed. -/
def joined : List (Step owned) :=
  [.instruction (.command (.construct (.replicate 1 bufferOfFives.hashed) "a") trivial
      (List.forall_mem_singleton.mpr valid_bufferOfFives)),
    .instruction (.command
      (.construct (.appendEach "a" [one.hashed, bufferOfFives.hashed]) "a") trivial
      (List.forall_mem_cons.mpr
        ⟨valid_one, List.forall_mem_singleton.mpr valid_bufferOfFives⟩)),
    .replace "a" .indexed]

def search : Step owned :=
  .instruction (.command (.query (.find "a" runOfFives.hashed 1)) trivial
    (List.forall_mem_singleton.mpr valid_runOfFives))

/-- The search has the same answer whichever program made the sequence of sequences. -/
theorem compaction_invisible_sequences :
    SameValues (after {} listed) (after {} joined) ∧
      replies (after {} listed) [search] = [⟨Answer (List Int64), .ok (.position (some 2))⟩] ∧
      replies (after {} joined) [search] = [⟨Answer (List Int64), .ok (.position (some 2))⟩] := by
  have hv : SameValues (after {} listed) (after {} joined) := by
    constructor
    · intro name
      by_cases hn : name = "a"
      · subst hn
        rfl
      · have hb : (name == "a") = false := beq_eq_false_iff_ne.mpr hn
        change Option.map _ (List.lookup name [("a", _)]) =
          Option.map _ (List.lookup name [("a", _), ("a", _), ("a", _)])
        simp only [List.lookup_cons, hb, List.lookup_nil]
    · intro name
      rfl
  obtain ⟨hr, -⟩ := (compaction_invisible owned).2 listed joined hv [search]
  have hs : replies (after {} listed) [search] =
      [⟨Answer (List Int64), .ok (.position (some 2))⟩] := by rfl
  exact ⟨hv, hs, hr.symm.trans hs⟩

end ElementKind

end SharedSequence
