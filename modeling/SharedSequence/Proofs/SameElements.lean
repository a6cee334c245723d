import SharedSequence.Proofs.ElementKind
import SharedSequence.Proofs.Extraction
import SharedSequence.Proofs.Search

namespace SharedSequence

open Sequence

/-- Both fail with one error, or both give results that are related. -/
def Outcome {ε β γ : Type} (R : β → γ → Prop) : Except ε β → Except ε γ → Prop
  | .ok b, .ok c => R b c
  | .error e, .error f => e = f
  | _, _ => False

theorem Outcome.mono {ε β γ : Type} {P Q : β → γ → Prop} {x : Except ε β} {y : Except ε γ}
    (h : Outcome P x y) (hpq : ∀ b c, P b c → Q b c) : Outcome Q x y := by
  rcases x with e | b <;> rcases y with f | c
  · exact h
  · exact h
  · exact h
  · exact hpq b c h

theorem Outcome.refl {ε β : Type} {R : β → β → Prop} (hr : ∀ b, R b b) (x : Except ε β) :
    Outcome R x x := by
  cases x with
  | error e => exact rfl
  | ok b => exact hr b

/-- Both steps go on or both end, with related states. -/
def StepRel {σ τ : Type} (R : σ → τ → Prop) : ForInStep σ → ForInStep τ → Prop
  | .yield a, .yield b | .done a, .done b => R a b
  | _, _ => False

section

variable {β γ : Type} {R : β → γ → Prop} {xs : List β} {ys : List γ}

theorem rel_getElem? (h : List.Forall₂ R xs ys) (i : Nat) : Option.Rel R xs[i]? ys[i]? := by
  induction h generalizing i with
  | nil => exact .none
  | cons hx _ ih =>
    cases i with
    | zero => exact .some hx
    | succ i => exact ih i

theorem rel_set {x : β} {y : γ} (h : List.Forall₂ R xs ys) (i : Nat) (hx : R x y) :
    List.Forall₂ R (xs.set i x) (ys.set i y) := by
  induction h generalizing i with
  | nil => exact .nil
  | cons hz hzs ih =>
    cases i with
    | zero => exact .cons hx hzs
    | succ i => exact .cons hz (ih i)

theorem rel_zip {δ ε : Type} {S : δ → ε → Prop} {us : List δ} {vs : List ε}
    (h : List.Forall₂ R xs ys) (h' : List.Forall₂ S us vs) :
    List.Forall₂ (fun p q => R p.1 q.1 ∧ S p.2 q.2) (xs.zip us) (ys.zip vs) := by
  induction h generalizing us vs with
  | nil =>
    rw [List.zip_nil_left, List.zip_nil_left]
    exact .nil
  | cons hx _ ih =>
    cases h' with
    | nil =>
      rw [List.zip_nil_right, List.zip_nil_right]
      exact .nil
    | cons hy hys =>
      rw [List.zip_cons_cons, List.zip_cons_cons]
      exact .cons ⟨hx, hy⟩ (ih hys)

end

namespace ElementKind

variable {K : ElementKind} {x y : K.Element} {xs ys : List K.Element}
  {s t u v : Sequence K.Element}

theorem option_map_eq {β γ : Type} {P : β → β → Prop} {f : β → γ} {a b : Option β}
    (h : Option.Rel P a b) (hf : ∀ b c, P b c → f b = f c) : a.map f = b.map f := by
  cases h with
  | some h => exact congrArg some (hf _ _ h)
  | none => rfl

theorem option_value_eq {a b : Option K.Element} (h : Option.Rel K.Alike a b) :
    a.map K.value = b.map K.value :=
  option_map_eq h fun _ _ hx => hx.2.2

theorem option_beq_eq {a b c d : Option K.Element} (h : Option.Rel K.Alike a b)
    (h' : Option.Rel K.Alike c d) : (a == c) = (b == d) := by
  cases h with
  | some h =>
    cases h' with
    | some h' => exact h.beq_eq h'
    | none => rfl
  | none =>
    cases h' with
    | some _ => rfl
    | none => rfl

namespace SameElements

theorem symm (h : K.SameElements s t) : K.SameElements t s :=
  ⟨h.right, h.left, h.alike.flip.imp fun _ _ => Alike.symm⟩

theorem get? (h : K.SameElements s t) (i : Nat) :
    Option.Rel K.Alike (s.get? i) (t.get? i) := by
  rw [h.left.get?_eq, h.right.get?_eq]
  exact rel_getElem? h.alike i

theorem get (h : K.SameElements s t) (i : Nat) : Outcome K.Alike (s.get i) (t.get i) := by
  have hi := h.get? i
  rw [Sequence.get, Sequence.get, h.length_eq]
  revert hi
  generalize s.get? i = a, t.get? i = b
  rintro (hx | -)
  · exact hx
  · exact rfl

theorem elementAt (h : K.SameElements s t) (i : Nat) :
    Outcome K.Alike (s.asList.elementAt i) (t.asList.elementAt i) := by
  have hi := h.get? i
  rw [ListView.elementAt, ListView.elementAt, asList, asList, h.length_eq]
  revert hi
  generalize s.get? i = a, t.get? i = b
  rintro (hx | -)
  · exact hx
  · exact rfl

theorem last? (h : K.SameElements s t) : Option.Rel K.Alike s.last? t.last? := by
  rw [Sequence.last?, Sequence.last?, h.length_eq]
  split
  · exact .none
  · exact h.get? _

theorem elementsAt (h : K.SameElements s t) (start count : Nat) :
    List.Forall₂ K.Alike (s.elementsAt start count) (t.elementsAt start count) := by
  refine List.rel_filterMap (R := Eq) ?_ (List.forall₂_same.mpr fun _ _ => rfl)
  rintro i _ rfl
  exact h.get? i

theorem toArray (h : K.SameElements s t) :
    List.Forall₂ K.Alike s.toArray.toList t.toArray.toList := by
  rw [h.left.toArray_eq, h.right.toArray_eq]
  exact h.alike

theorem hashAgreesIn (h : K.SameElements s t) (hx : K.Valid x) (offset length : Nat) :
    HashAgreesIn (some K.hash) x s offset length := by
  intro hash hh p z _ _ hz hzx
  obtain rfl := Option.mem_some.mp hh
  rw [h.left.get?_eq] at hz
  have hv := valid_left h.alike z (List.mem_of_getElem? hz)
  exact K.hash_eq hv hx ((K.beq_iff hv hx).mp hzx)

theorem holds_eq (h : K.SameElements s t) (hx : K.Alike x y) : s.holds x = t.holds y := by
  funext p
  have hp := h.get? p
  rw [holds, holds]
  revert hp
  generalize s.get? p = a, t.get? p = b
  rintro (hz | -)
  · exact hz.beq_eq hx
  · rfl

theorem findWindow_eq (h : K.SameElements s t) (hx : K.Alike x y) {offset length : Nat}
    (hw : offset + length ≤ s.length) (direction : Direction) :
    s.findWindow x offset length direction = t.findWindow y offset length direction := by
  rw [h.left.findWindow_eq_scan (h.hashAgreesIn hx.1 _ _) hw, h.holds_eq hx,
    h.right.findWindow_eq_scan (h.symm.hashAgreesIn hx.2.1 _ _) (by rw [← h.length_eq]; exact hw)]

theorem find_eq (h : K.SameElements s t) (hx : K.Alike x y) (offset : Nat) :
    s.find x offset = t.find y offset := by
  rw [find, find, lengthFrom, lengthFrom, h.length_eq]
  split
  · rename_i ho
    exact congrArg Except.ok (h.findWindow_eq hx (by rw [h.length_eq]; omega) .forward)
  · rfl

theorem findLast_eq (h : K.SameElements s t) (hx : K.Alike x y) :
    s.findLast x = t.findLast y := by
  rw [findLast, findLast, ← h.length_eq]
  exact h.findWindow_eq hx (Nat.le_of_eq (Nat.zero_add _)) .backward

theorem findFirst_eq (h : K.SameElements s t) (hx : K.Alike x y) :
    s.findWindow x 0 s.length .forward = t.findWindow y 0 t.length .forward := by
  rw [← h.length_eq]
  exact h.findWindow_eq hx (Nat.le_of_eq (Nat.zero_add _)) .forward

theorem contains_eq (h : K.SameElements s t) (hx : K.Alike x y) : s.contains x = t.contains y := by
  rw [contains, contains, h.findFirst_eq hx]

theorem positions_eq (h : K.SameElements s t) (hx : K.Alike x y) :
    s.positions x = t.positions y := by
  have hfrom (budget offset : Nat) :
      s.positionsFrom x budget offset = t.positionsFrom y budget offset := by
    induction budget generalizing offset with
    | zero => rfl
    | succ budget ih => simp only [positionsFrom, h.find_eq hx, ih]
  rw [positions, positions, h.length_eq, hfrom]

theorem matchesAt_eq (h : K.SameElements s t) (h' : K.SameElements u v) (position : Nat) :
    s.matchesAt u position = t.matchesAt v position := by
  have hfrom (index count : Nat) :
      s.matchesFrom u position index count = t.matchesFrom v position index count := by
    induction count generalizing index with
    | zero => rfl
    | succ count ih =>
      rw [matchesFrom, matchesFrom, option_beq_eq (h.get? _) (h'.get? _), ih]
  rw [matchesAt, matchesAt, h'.length_eq, hfrom]

theorem findCandidate_eq (h : K.SameElements s t) (h' : K.SameElements u v) (hx : K.Alike x y)
    {lastStart : Nat} (hl : lastStart < s.length) (start tries : Nat) :
    s.findCandidate u x lastStart start tries = t.findCandidate v y lastStart start tries := by
  induction tries generalizing start with
  | zero => rfl
  | succ tries ih =>
    rw [findCandidate, findCandidate]
    split
    · rw [h.findWindow_eq hx (by omega)]
      split
      · rfl
      · rw [h.matchesAt_eq h', ih]
    · rfl

theorem findSequence_eq (h : K.SameElements s t) (h' : K.SameElements u v) (offset : Nat) :
    s.findSequence u offset = t.findSequence v offset := by
  have hfirst : Option.Rel K.Alike u.first? v.first? := h'.get? 0
  have hlast (hv : 0 < v.length) (hr : ¬ t.length - offset < v.length) :
      t.length - v.length < s.length := by
    rw [h.length_eq]
    omega
  have hcandidate {x y : K.Element} (hx : K.Alike x y) (hv : 0 < v.length)
      (hr : ¬ t.length - offset < v.length) :=
    h.findCandidate_eq h' hx (hlast hv hr) offset (t.length - v.length + 1 - offset)
  rw [findSequence, findSequence, isEmpty, isEmpty, lengthFrom, lengthFrom, h.length_eq,
    h'.length_eq]
  revert hfirst hcandidate
  generalize v.length = n, u.first? = a, v.first? = b
  rintro (hx | -) hcandidate
  · rcases n with _ | _ | n
    · rfl
    · exact h.find_eq hx offset
    · by_cases ho : offset ≤ t.length
      · by_cases hr : t.length - offset < n + 2
        · simp only [if_pos ho, bind, Except.bind, if_pos hr]
        · simp only [if_pos ho, hcandidate hx (Nat.succ_pos _) hr]
      · simp only [if_neg ho, bind, Except.bind]
  · rcases n with _ | _ | n
    · rfl
    · rfl
    · rfl

end SameElements

theorem isUniform_iff (h : s.WellFormed (some K.hash)) (hv : ∀ x ∈ s.toList, K.Valid x) :
    s.isUniform = true ↔ ∀ x ∈ s.toList, ∀ y ∈ s.toList, K.value x = K.value y := by
  constructor
  · intro hu
    apply h.view_eq_of_isUniform K.value hu
    intro x hx y hy
    exact (K.beq_iff (hv x hx) (hv y hy)).mp
  · intro hall
    cases hu : s.isUniform with
    | true => rfl
    | false =>
      obtain ⟨x, hx, y, hy, hxy⟩ := h.varied hu
      rw [List.mem_toArray] at hx hy
      rw [(K.beq_iff (hv x hx) (hv y hy)).mpr (hall x hx y hy)] at hxy
      cases hxy

theorem SameElements.isUniform_eq (h : K.SameElements s t) : s.isUniform = t.isUniform := by
  have hvalues (items : List K.Element) :
      (∀ x ∈ items, ∀ y ∈ items, K.value x = K.value y) ↔
        ∀ v ∈ items.map K.value, ∀ w ∈ items.map K.value, v = w := by
    simp only [List.forall_mem_map]
  rw [Bool.eq_iff_iff, isUniform_iff h.left (valid_left h.alike),
    isUniform_iff h.right (valid_right h.alike), hvalues, hvalues, values_eq h.alike]

section

variable {σ τ : Type} {R : σ → τ → Prop} {push : Collector σ K.Element}
  {push' : Collector τ K.Element} {a : σ} {b : τ}

theorem pushList_rel
    (hp : ∀ a b x y, R a b → K.Alike x y → StepRel R (push a x) (push' b y))
    (h : List.Forall₂ K.Alike xs ys) (hR : R a b) :
    StepRel R (Collector.pushList push xs a) (Collector.pushList push' ys b) := by
  induction h generalizing a b with
  | nil => exact hR
  | @cons x y xs ys hx _ ih =>
    have hstep := hp a b x y hR hx
    rw [Collector.pushList, Collector.pushList]
    revert hstep
    rcases push a x with a' | a' <;> rcases push' b y with b' | b'
    · exact id
    · exact False.elim
    · exact False.elim
    · exact ih

theorem SameElements.extract (h : K.SameElements s t)
    (hp : ∀ a b x y, R a b → K.Alike x y → StepRel R (push a x) (push' b y)) (hR : R a b) :
    StepRel R (s.extract push a) (t.extract push' b) := by
  rw [h.left.extract_eq, h.right.extract_eq]
  exact pushList_rel hp h.alike hR

theorem alike_orient (direction : Direction) (h : List.Forall₂ K.Alike xs ys) :
    List.Forall₂ K.Alike (direction.orient xs) (direction.orient ys) := by
  cases direction with
  | forward => exact h
  | backward => exact List.rel_reverse h

theorem alike_slots (offset length : Nat) (h : List.Forall₂ K.Alike xs ys) :
    List.Forall₂ K.Alike (slots xs offset length) (slots ys offset length) :=
  List.forall₂_take length (List.forall₂_drop offset h)

theorem SameElements.extractRange (h : K.SameElements s t)
    (hp : ∀ a b x y, R a b → K.Alike x y → StepRel R (push a x) (push' b y)) (hR : R a b)
    (offset length : Nat) (direction : Direction) :
    Outcome (StepRel R) (s.extractRange push offset length direction a)
      (t.extractRange push' offset length direction b) := by
  by_cases hw : offset + length ≤ s.length
  · rw [h.left.extractRange_eq hw, h.right.extractRange_eq (by rw [← h.length_eq]; exact hw)]
    exact pushList_rel hp (alike_orient direction (alike_slots offset length h.alike)) hR
  · have hs : s.length < offset + length := Nat.lt_of_not_le hw
    rw [extractRange_eq_error hs, extractRange_eq_error (by rw [← h.length_eq]; exact hs)]
    exact rfl

theorem alike_push {a b : Array K.Element} (h : List.Forall₂ K.Alike a.toList b.toList)
    (hx : K.Alike x y) : List.Forall₂ K.Alike (a.push x).toList (b.push y).toList := by
  rw [Array.toList_push, Array.toList_push]
  exact List.rel_append h (.cons hx .nil)

theorem recorder_rel (stop : Nat) (a b : Array K.Element) (x y : K.Element)
    (h : List.Forall₂ K.Alike a.toList b.toList) (hx : K.Alike x y) :
    StepRel (fun a b : Array K.Element => List.Forall₂ K.Alike a.toList b.toList)
      (Collector.recorder stop a x) (Collector.recorder stop b y) := by
  have hpush := alike_push h hx
  have hsize : (a.push x).size = (b.push y).size := hpush.length_eq
  simp only [Collector.recorder, hsize]
  split
  · exact hpush
  · exact hpush

theorem sliceWriter_rel (a b : Array K.Element × Nat) (x y : K.Element)
    (h : List.Forall₂ K.Alike a.1.toList b.1.toList ∧ a.2 = b.2) (hx : K.Alike x y) :
    StepRel (fun a b : Array K.Element × Nat =>
        List.Forall₂ K.Alike a.1.toList b.1.toList ∧ a.2 = b.2)
      (Collector.sliceWriter a x) (Collector.sliceWriter b y) := by
  obtain ⟨a, i⟩ := a
  obtain ⟨b, j⟩ := b
  obtain ⟨h, rfl⟩ := h
  have hsize : a.size = b.size := h.length_eq
  simp only [Collector.sliceWriter, hsize]
  split
  · refine ⟨?_, rfl⟩
    simp only [Array.toList_setIfInBounds]
    exact rel_set h i hx
  · exact ⟨h, rfl⟩

theorem StepRel.state {p q : ForInStep σ} {R : σ → σ → Prop} (h : StepRel R p q) :
    R (Collector.state p) (Collector.state q) := by
  rcases p with a | a <;> rcases q with b | b
  · exact h
  · exact h.elim
  · exact h.elim
  · exact h

theorem SameElements.writeInto (h : K.SameElements s t) {target : Array K.Element}
    (hv : ∀ x ∈ target.toList, K.Valid x) (offset : Nat) :
    (s.writeInto target offset).1 = (t.writeInto target offset).1 ∧
      List.Forall₂ K.Alike (s.writeInto target offset).2.toList
        (t.writeInto target offset).2.toList := by
  rw [Sequence.writeInto, Sequence.writeInto, h.length_eq]
  split
  · exact ⟨rfl, (StepRel.state (h.extract sliceWriter_rel ⟨alike_refl hv, rfl⟩)).1⟩
  · exact ⟨rfl, alike_refl hv⟩

end

theorem SameElements.fold_eq {β : Type} {step : β → K.Element → β} (h : K.SameElements s t)
    (hf : ∀ b x y, K.Alike x y → step b x = step b y) (initial : β) :
    s.fold step initial = t.fold step initial := by
  rw [h.left.fold_eq, h.right.fold_eq]
  refine List.rel_foldl (P := Eq) ?_ rfl h.alike
  rintro b _ rfl x y hx
  exact hf b x y hx

end ElementKind

def CursorAnswer.map {α β : Type} (f : α → β) : CursorAnswer α → CursorAnswer β
  | .element value => .element (value.map f)
  | .count left => .count left
  | .bounds lower upper => .bounds lower upper
  | .elements values => .elements (values.map f)

theorem CursorMove.popAll_map {α β : Type} (f : α → β) (script : List CursorMove)
    (items : List α) :
    (popAll script items).map (CursorAnswer.map f) = popAll script (items.map f) := by
  induction script generalizing items with
  | nil => rfl
  | cons move script ih =>
    have hpop : (move.pop (items.map f)) =
        ((move.pop items).1.map f, (move.pop items).2.map f) := by
      cases move with
      | nthBack count =>
        simp only [pop, CursorAnswer.map, ← List.map_reverse, List.getElem?_map, ← List.map_drop]
      | next | back | nth | remaining | sizeHint | rest | drain | drainBack =>
        simp [pop, CursorAnswer.map]
    rw [popAll, popAll, hpop, List.map_cons, ih]

namespace ElementKind

variable {K : ElementKind} {s t u v : Sequence K.Element}

theorem SameElements.performAll_eq (h : K.SameElements s t) (skipping : Skipping)
    (script : List CursorMove) :
    (s.cursor.performAll skipping script).map (CursorAnswer.map K.value) =
      (t.cursor.performAll skipping script).map (CursorAnswer.map K.value) := by
  rw [h.left.pending_cursor.performAll_eq, h.right.pending_cursor.performAll_eq,
    CursorMove.popAll_map, CursorMove.popAll_map, values_eq h.alike]

theorem zipWith_eq_of_alike {β : Type} {f : K.Element → K.Element → β}
    {ws xs ys zs : List K.Element}
    (hf : ∀ w x y z, K.Alike w x → K.Alike y z → f w y = f x z)
    (hx : List.Forall₂ K.Alike ws xs) (hy : List.Forall₂ K.Alike ys zs) :
    List.zipWith f ws ys = List.zipWith f xs zs := by
  induction hx generalizing ys zs with
  | nil => rw [List.zipWith_nil_left, List.zipWith_nil_left]
  | cons hx _ ih =>
    cases hy with
    | nil => rw [List.zipWith_nil_right, List.zipWith_nil_right]
    | cons hy hys => rw [List.zipWith_cons_cons, List.zipWith_cons_cons, hf _ _ _ _ hx hy, ih hys]

theorem elementOrder_eq (order : ElementOrder) (w x y z : K.Element) (hx : K.Alike w x)
    (hy : K.Alike y z) : order.compare w y = order.compare x z := by
  cases order with
  | natural => exact hx.compare_eq hy
  | reversed => exact hy.compare_eq hx
  | allEqual => rfl

theorem SameElements.compareWith_eq {order : K.Element → K.Element → Ordering}
    (ho : ∀ w x y z, K.Alike w x → K.Alike y z → order w y = order x z)
    (h : K.SameElements s t) (h' : K.SameElements u v) :
    s.compareWith order u = t.compareWith order v := by
  rw [h.left.compareWith_eq _ h'.left, h.right.compareWith_eq _ h'.right, h.alike.length_eq,
    h'.alike.length_eq, zipWith_eq_of_alike ho h.alike h'.alike]

theorem SameElements.partialCompare_eq (h : K.SameElements s t) (h' : K.SameElements u v) :
    s.partialCompare totalOrder u = t.partialCompare totalOrder v := by
  have hs : s.partialCompare totalOrder u = some (s.lexCompare u) := partialCompare_some s u
  have ht : t.partialCompare totalOrder v = some (t.lexCompare v) := partialCompare_some t v
  rw [hs, ht, h.lexCompare_eq h']

end ElementKind

theorem Cursor.Pending.zipWithin_eq {κ ν : Type} {c : Cursor κ} {d : Cursor ν} {xs : List κ}
    {ys : List ν} (hc : c.Pending xs) (hd : d.Pending ys) {moves : Nat}
    (hm : xs.length ≤ moves) : SequenceMap.zipWithin moves c d = xs.zip ys := by
  induction moves generalizing c d xs ys with
  | zero =>
    rw [List.eq_nil_of_length_eq_zero (Nat.le_zero.mp hm)]
    rfl
  | succ moves ih =>
    cases xs with
    | nil =>
      have hcn : c.next = (none, c) := hc.next_nil
      rw [SequenceMap.zipWithin, hcn, List.zip_nil_left]
    | cons x xs =>
      obtain ⟨c', hcn, hc'⟩ := hc.next_cons
      cases ys with
      | nil =>
        have hdn : d.next = (none, d) := hd.next_nil
        rw [SequenceMap.zipWithin, hcn, hdn, List.zip_nil_right]
      | cons y ys =>
        obtain ⟨d', hdn, hd'⟩ := hd.next_cons
        rw [SequenceMap.zipWithin, hcn, hdn, List.zip_cons_cons,
          ← ih hc' hd' (Nat.le_of_succ_le_succ hm)]

namespace ElementKind

variable {K : ElementKind} {x y : K.Element} {m n : SequenceMap K.Element K.Element}

structure SameEntries (K : ElementKind) (m n : SequenceMap K.Element K.Element) : Prop where
  keys : K.SameElements m.keys n.keys
  values : K.SameElements m.values n.values

namespace SameEntries

theorem get? (h : K.SameEntries m n) (hx : K.Alike x y) :
    Option.Rel K.Alike (m.get? x) (n.get? y) := by
  rw [SequenceMap.get?, SequenceMap.get?, SequenceMap.length, SequenceMap.length,
    h.keys.findFirst_eq hx]
  split
  · exact h.values.get? _
  · exact .none

theorem entries (h : K.SameEntries m n) :
    List.Forall₂ (fun p q => K.Alike p.1 q.1 ∧ K.Alike p.2 q.2) m.entries n.entries := by
  have hm : m.keys.toList.length ≤ m.length := Nat.le_of_eq h.keys.left.length_toList
  have hn : n.keys.toList.length ≤ n.length := Nat.le_of_eq h.keys.right.length_toList
  rw [SequenceMap.entries, SequenceMap.entries,
    h.keys.left.pending_cursor.zipWithin_eq h.values.left.pending_cursor hm,
    h.keys.right.pending_cursor.zipWithin_eq h.values.right.pending_cursor hn]
  exact rel_zip h.keys.alike h.values.alike

theorem entries_map_eq {β : Type} {f : K.Element × K.Element → β} (h : K.SameEntries m n)
    (hf : ∀ p q, K.Alike p.1 q.1 → K.Alike p.2 q.2 → f p = f q) :
    m.entries.map f = n.entries.map f :=
  map_eq_iff_forall₂.mpr (h.entries.imp fun p q hp => hf p q hp.1 hp.2)

theorem debugLine_eq (h : K.SameEntries m n) : m.debugLine = n.debugLine := by
  have hf (p q : K.Element × K.Element) (h₁ : K.Alike p.1 q.1) (h₂ : K.Alike p.2 q.2) :
      debugText .line p.1 ++ ": " ++ debugText .line p.2 =
        debugText .line q.1 ++ ": " ++ debugText .line q.2 := by
    rw [K.debug_eq h₁.1 h₁.2.1 h₁.2.2, K.debug_eq h₂.1 h₂.2.1 h₂.2.2]
  exact congrArg (fun texts => "\x7b" ++ ", ".intercalate texts ++ "\x7d") (h.entries_map_eq hf)

end SameEntries

end ElementKind

end SharedSequence
