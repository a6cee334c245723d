import SharedSequence.Proofs.FaultFree
import SharedSequence.Proofs.SameElements

namespace SharedSequence

variable {α β σ τ : Type}

namespace CursorMove

/-- The end at which a move consumes. -/
def side? : CursorMove → Option Direction
  | .next | .nth _ | .drain => some .forward
  | .back | .nthBack _ | .drainBack => some .backward
  | .remaining | .sizeHint | .rest => none

/-- How many elements a move passes over. -/
def skipped : CursorMove → Nat
  | .nth count | .nthBack count => count
  | .next | .back | .remaining | .sizeHint | .rest | .drain | .drainBack => 0

/-- The elements that a move does not pass over. -/
def reached : CursorMove → List α → List α
  | .nth count, items => items.drop count
  | .nthBack count, items => (items.reverse.drop count).reverse
  | .next, items | .back, items | .remaining, items | .sizeHint, items | .rest, items
  | .drain, items | .drainBack, items => items

/-- The answer when no element is left. -/
def ended : CursorMove → CursorAnswer α
  | .next | .back | .nth _ | .nthBack _ => .element none
  | .remaining => .count 0
  | .sizeHint => .bounds 0 0
  | .rest | .drain | .drainBack => .elements []

def left (script : List CursorMove) (items : List α) : List α :=
  script.foldl (fun items move => (move.pop items).2) items

end CursorMove

def CursorAnswer.given : CursorAnswer α → List α
  | .element value => value.toList
  | .elements values => values
  | .count _ | .bounds _ _ => []

namespace CursorMove

/-- The elements that a move consumes at an end. -/
def gives (side : Direction) (move : CursorMove) (items : List α) : List α :=
  if move.side? = some side then (move.pop items).1.given else []

/-- The elements that a script consumes at an end, in the order of the moves. -/
def givesAll (side : Direction) : List CursorMove → List α → List α
  | [], _ => []
  | move :: script, items => gives side move items ++ givesAll side script (move.pop items).2

variable {items : List α} {move : CursorMove} {script : List CursorMove}

theorem getElem?_append_drop (items : List α) (count : Nat) :
    items[count]?.toList ++ items.drop (count + 1) = items.drop count := by
  rw [← List.head?_drop, ← List.tail_drop]
  cases items.drop count with
  | nil => rfl
  | cons x rest => rfl

/-- What a move gives at the two ends, and what it leaves between them. -/
theorem pop_partition (move : CursorMove) (items : List α) :
    gives .forward move items ++ (move.pop items).2 ++ (gives .backward move items).reverse =
      move.reached items := by
  cases move with
  | next =>
    have h := getElem?_append_drop items 0
    rw [← List.head?_eq_getElem?, List.drop_one] at h
    simpa [gives, side?, pop, CursorAnswer.given, reached] using h
  | back =>
    have h := congrArg List.reverse (getElem?_append_drop items.reverse 0)
    rw [← List.head?_eq_getElem?, List.drop_one, List.head?_reverse, List.tail_reverse] at h
    simpa [gives, side?, pop, CursorAnswer.given, reached] using h
  | nth count =>
    have h := getElem?_append_drop items count
    simpa [gives, side?, pop, CursorAnswer.given, reached] using h
  | nthBack count =>
    have h := congrArg List.reverse (getElem?_append_drop items.reverse count)
    rw [List.reverse_append] at h
    simpa [gives, side?, pop, CursorAnswer.given, reached] using h
  | remaining | sizeHint | rest | drain | drainBack =>
    simp [gives, side?, pop, CursorAnswer.given, reached]

theorem reached_sublist (move : CursorMove) (items : List α) :
    (move.reached items).Sublist items := by
  cases move with
  | nth count => exact List.drop_sublist _ _
  | nthBack count =>
    have h := (List.drop_sublist count items.reverse).reverse
    rw [List.reverse_reverse] at h
    exact h
  | next | back | remaining | sizeHint | rest | drain | drainBack => exact List.Sublist.refl _

theorem reached_eq (h : move.skipped = 0) (items : List α) : move.reached items = items := by
  cases move with
  | nth count =>
    obtain rfl : count = 0 := h
    exact List.drop_zero
  | nthBack count =>
    obtain rfl : count = 0 := h
    exact List.reverse_reverse _
  | next | back | remaining | sizeHint | rest | drain | drainBack => rfl

theorem givesAll_cons (move : CursorMove) (script : List CursorMove) (items : List α) :
    givesAll .forward (move :: script) items ++ left (move :: script) items ++
        (givesAll .backward (move :: script) items).reverse =
      gives .forward move items ++
        (givesAll .forward script (move.pop items).2 ++ left script (move.pop items).2 ++
          (givesAll .backward script (move.pop items).2).reverse) ++
        (gives .backward move items).reverse := by
  simp only [givesAll, left, List.foldl_cons, List.reverse_append, List.append_assoc]

/-- What is given at the front, what is left, and what is given at the back read backwards, lie in
this order in the list. -/
theorem script_sublist (script : List CursorMove) (items : List α) :
    (givesAll .forward script items ++ left script items ++
      (givesAll .backward script items).reverse).Sublist items := by
  induction script generalizing items with
  | nil =>
    rw [givesAll, givesAll, List.reverse_nil, List.append_nil, List.nil_append]
    exact List.Sublist.refl _
  | cons move script ih =>
    have hp := reached_sublist move items
    rw [← pop_partition move items] at hp
    rw [givesAll_cons]
    apply List.Sublist.trans _ hp
    exact (((ih _).append_left _).append_right _)

theorem script_partition (h : ∀ move ∈ script, move.skipped = 0) (items : List α) :
    givesAll .forward script items ++ left script items ++
      (givesAll .backward script items).reverse = items := by
  induction script generalizing items with
  | nil =>
    rw [givesAll, givesAll, List.reverse_nil, List.append_nil, List.nil_append]
    rfl
  | cons move script ih =>
    obtain ⟨hm, hs⟩ := List.forall_mem_cons.mp h
    rw [givesAll_cons, ih hs, pop_partition, reached_eq hm]

theorem pairwise_zipIdx (items : List α) (start : Nat) :
    (items.zipIdx start).Pairwise (fun p q => p.2 < q.2) := by
  induction items generalizing start with
  | nil => exact .nil
  | cons x items ih =>
    rw [List.zipIdx_cons]
    apply List.Pairwise.cons _ (ih _)
    intro p hp
    exact List.le_snd_of_mem_zipIdx hp

theorem popAll_append (script more : List CursorMove) (items : List α) :
    popAll (script ++ more) items = popAll script items ++ popAll more (left script items) := by
  induction script generalizing items with
  | nil => rfl
  | cons move script ih =>
    rw [List.cons_append, popAll, popAll, ih, List.cons_append]
    rfl

theorem left_concat (script : List CursorMove) (move : CursorMove) (items : List α) :
    left (script ++ [move]) items = (move.pop (left script items)).2 :=
  List.foldl_concat _ _ _ _

theorem pop_nil (move : CursorMove) : move.pop ([] : List α) = (move.ended, []) := by
  cases move with
  | nthBack count => simp [pop, ended]
  | next | back | nth | remaining | sizeHint | rest | drain | drainBack => simp [pop, ended]

theorem popAll_nil (script : List CursorMove) :
    popAll script ([] : List α) = script.map ended := by
  induction script with
  | nil => rfl
  | cons move script ih => rw [popAll, pop_nil, ih, List.map_cons]

theorem nth_past {count : Nat} (h : items.length ≤ count) :
    (nth count).pop items = (.element none, []) := by
  rw [pop, List.getElem?_eq_none h, List.drop_eq_nil_of_le (Nat.le_succ_of_le h)]

theorem nthBack_past {count : Nat} (h : items.length ≤ count) :
    (nthBack count).pop items = (.element none, []) := by
  rw [← List.length_reverse] at h
  rw [pop, List.getElem?_eq_none h, List.drop_eq_nil_of_le (Nat.le_succ_of_le h),
    List.reverse_nil]

/-- The answer to a move after the moves of a history. -/
def afterHistory (items : List α) (history : List CursorMove) (move : CursorMove) :
    Id (CursorAnswer α × List CursorMove) :=
  ((move.pop (left history items)).1, history ++ [move])

end CursorMove

/-- A step with a pool of cursors. -/
inductive PoolStep where
  | move (cursor : Nat) (move : CursorMove)
  /-- Puts a copy at the end of the pool. -/
  | copy (cursor : Nat)

namespace PoolStep

variable {m : Type → Type} [Monad m]

def perform (move : σ → CursorMove → m (β × σ)) (pool : List σ) :
    PoolStep → m (Option β × List σ)
  | .move i request =>
    match pool[i]? with
    | none => return (none, pool)
    | some state => do
      let (answer, state) ← move state request
      return (some answer, pool.set i state)
  | .copy i => return (none, pool ++ pool[i]?.toList)

def performAll (move : σ → CursorMove → m (β × σ)) :
    List PoolStep → List σ → m (List (Option β))
  | [], _ => return []
  | step :: program, pool => do
    let (answer, pool) ← step.perform move pool
    let answers ← performAll move program pool
    return answer :: answers

variable [LawfulMonad m] {R : σ → τ → Prop} {move : σ → CursorMove → m (β × σ)}
  {other : τ → CursorMove → Id (β × τ)} {pool : List σ} {pool' : List τ}

/-- The moves of related states are answered alike, and lead to related states. -/
def Follows (R : σ → τ → Prop) (move : σ → CursorMove → m (β × σ))
    (other : τ → CursorMove → Id (β × τ)) : Prop :=
  ∀ a b request, R a b →
    ∃ later, move a request = pure ((other b request).1, later) ∧ R later (other b request).2

theorem Follows.perform (h : Follows R move other) (hp : List.Forall₂ R pool pool')
    (step : PoolStep) :
    ∃ later, step.perform move pool = pure ((step.perform other pool').1, later) ∧
      List.Forall₂ R later (step.perform other pool').2 := by
  cases step with
  | move i request =>
    have hi := rel_getElem? hp i
    rw [PoolStep.perform, PoolStep.perform]
    revert hi
    generalize pool[i]? = a, pool'[i]? = b
    rintro (hi | -)
    · obtain ⟨later, he, hr⟩ := h _ _ request hi
      dsimp only
      rw [he, pure_bind]
      exact ⟨_, rfl, rel_set hp i hr⟩
    · exact ⟨pool, rfl, hp⟩
  | copy i =>
    have hi := rel_getElem? hp i
    rw [PoolStep.perform, PoolStep.perform]
    revert hi
    generalize pool[i]? = a, pool'[i]? = b
    rintro (hi | -)
    · exact ⟨_, rfl, List.rel_append hp (.cons hi .nil)⟩
    · exact ⟨_, rfl, List.rel_append hp .nil⟩

theorem Follows.performAll (h : Follows R move other) (hp : List.Forall₂ R pool pool')
    (program : List PoolStep) :
    performAll move program pool = pure (performAll other program pool') := by
  induction program generalizing pool pool' with
  | nil => rfl
  | cons step program ih =>
    obtain ⟨later, hs, hr⟩ := h.perform hp step
    rw [PoolStep.performAll, hs, pure_bind]
    dsimp only
    rw [ih hr, pure_bind]
    rfl

end PoolStep

namespace Cursor

open CursorMove

variable {s : Sequence α} {cursor : Cursor α} {items : List α} {skipping : Skipping}

def after (skipping : Skipping) (script : List CursorMove) (cursor : Cursor α) : Cursor α :=
  script.foldl (fun cursor move => (cursor.perform skipping move).2) cursor

theorem Pending.after (h : cursor.Pending items) (script : List CursorMove) :
    (cursor.after skipping script).Pending (left script items) := by
  induction script generalizing cursor items with
  | nil => exact h
  | cons move script ih =>
    obtain ⟨later, he, hp⟩ := h.perform_eq skipping move
    rw [Cursor.after, List.foldl_cons, he]
    exact ih hp

/-- The two ends enclose positions of the sequence. -/
structure Inside (s : Sequence α) (cursor : Cursor α) : Prop where
  sequence_eq : cursor.sequence = s
  front_le : cursor.front ≤ cursor.back
  back_le : cursor.back ≤ s.length

def Stays (s : Sequence α) (move : Cursor α → β × Cursor α) : Prop :=
  ∀ cursor, cursor.Inside s → (move cursor).2.Inside s

theorem stays_next : Stays s next := by
  intro cursor h
  obtain ⟨he, hf, hb⟩ := h
  rw [next]
  split
  · exact ⟨he, hf, hb⟩
  · rename_i hlt
    exact ⟨he, Nat.lt_of_not_le hlt, hb⟩

theorem stays_nextBack : Stays s nextBack := by
  intro cursor h
  obtain ⟨he, hf, hb⟩ := h
  rw [nextBack]
  split
  · exact ⟨he, hf, hb⟩
  · rename_i hlt
    exact ⟨he, Nat.le_sub_one_of_lt (Nat.lt_of_not_le hlt), (Nat.sub_le _ _).trans hb⟩

theorem stays_nth (count : Nat) : Stays s (nth · count) := by
  intro cursor h
  apply stays_next
  exact ⟨h.sequence_eq, Nat.min_le_right _ _, h.back_le⟩

section

variable {move : Cursor α → Option α × Cursor α}

theorem Stays.advance (h : Stays s move) (count : Nat) : Stays s (advance move count) := by
  induction count with
  | zero => exact fun cursor hc => hc
  | succ count ih =>
    intro cursor hc
    have hm := h cursor hc
    rw [Cursor.advance]
    generalize move cursor = result at hm
    obtain ⟨_ | x, next⟩ := result
    · exact hm
    · exact ih next hm

theorem Stays.nthBy (h : Stays s move) (count : Nat) : Stays s (nthBy move · count) := by
  intro cursor hc
  have ha := h.advance count cursor hc
  dsimp only
  rw [Cursor.nthBy]
  generalize Cursor.advance move count cursor = result at ha
  obtain ⟨_ | _, next⟩ := result
  · exact ha
  · exact h next ha

theorem Stays.collect (h : Stays s move) (count : Nat) : Stays s (collect move count) := by
  induction count with
  | zero => exact fun cursor hc => hc
  | succ count ih =>
    intro cursor hc
    have hm := h cursor hc
    rw [Cursor.collect]
    generalize move cursor = result at hm
    obtain ⟨_ | x, next⟩ := result
    · exact hm
    · exact ih next hm

end

theorem stays_perform (skipping : Skipping) (move : CursorMove) :
    Stays s (perform skipping · move) := by
  intro cursor h
  cases move with
  | next => exact stays_next cursor h
  | back => exact stays_nextBack cursor h
  | nth count =>
    cases skipping with
    | jump => exact stays_nth count cursor h
    | stepwise => exact stays_next.nthBy count cursor h
  | nthBack count => exact stays_nextBack.nthBy count cursor h
  | drain => exact stays_next.collect _ cursor h
  | drainBack => exact stays_nextBack.collect _ cursor h
  | remaining | sizeHint | rest => exact h

theorem Inside.after (h : cursor.Inside s) (script : List CursorMove) :
    (cursor.after skipping script).Inside s := by
  induction script generalizing cursor with
  | nil => exact h
  | cons move script ih => exact ih (stays_perform skipping move cursor h)

def performPlain (skipping : Skipping) (cursor : Cursor α) (move : CursorMove) :
    Id (CursorAnswer α × Cursor α) :=
  cursor.perform skipping move

theorem Pending.follows (skipping : Skipping) (items : List α) :
    PoolStep.Follows (fun (cursor : Cursor α) history => cursor.Pending (left history items))
      (performPlain skipping) (afterHistory items) := by
  intro cursor history move h
  obtain ⟨later, he, hp⟩ := h.perform_eq skipping move
  refine ⟨later, he, ?_⟩
  dsimp only [afterHistory]
  rw [left_concat]
  exact hp

theorem Within.follows [BEq α] (hashing : Option (ElementHash α)) (skipping : Skipping)
    (items : List α) :
    PoolStep.Follows
      (fun (cursor : Cursor α) history =>
        cursor.Within hashing ∧ cursor.Pending (left history items))
      (guardedPerform skipping) (afterHistory items) := by
  intro cursor history move ⟨hw, h⟩
  obtain ⟨hg, hw'⟩ := moves_perform skipping move cursor hw
  obtain ⟨later, he, hp⟩ := h.perform_eq skipping move
  dsimp only at hg hw'
  rw [he] at hg hw'
  refine ⟨later, hg, hw', ?_⟩
  dsimp only [afterHistory]
  rw [left_concat]
  exact hp

end Cursor

open Cursor CursorMove

namespace Sequence

variable {s : Sequence α} {skipping : Skipping}

/-- A cursor over the sequence is a queue of its elements with two ends. -/
structure TwoEnded (skipping : Skipping) (s : Sequence α) : Prop where
  answers (script : List CursorMove) :
    s.cursor.performAll skipping script = popAll script s.toList
  /-- The ends do not cross, and enclose what is left. -/
  ends (script : List CursorMove) :
    (s.cursor.after skipping script).front ≤ (s.cursor.after skipping script).back ∧
      (s.cursor.after skipping script).back ≤ s.toList.length ∧
      left script s.toList = slots s.toList (s.cursor.after skipping script).front
        ((s.cursor.after skipping script).back - (s.cursor.after skipping script).front)
  counts (script : List CursorMove) :
    (s.cursor.after skipping script).remaining = (left script s.toList).length ∧
      (s.cursor.after skipping script).sizeHint =
        ((left script s.toList).length, (left script s.toList).length)
  /-- The answers are those of the elements numbered by position. -/
  numbered (script : List CursorMove) :
    s.cursor.performAll skipping script =
      (popAll script s.toList.zipIdx).map (CursorAnswer.map Prod.fst)
  /-- Positions go up at the front and down at the back, and none is given twice or left. -/
  ordered (script : List CursorMove) :
    (givesAll .forward script s.toList.zipIdx ++ left script s.toList.zipIdx ++
      (givesAll .backward script s.toList.zipIdx).reverse).Pairwise (fun p q => p.2 < q.2)
  /-- Only moves that pass over elements leave positions out. -/
  complete (script : List CursorMove) : (∀ move ∈ script, move.skipped = 0) →
    givesAll .forward script s.toList.zipIdx ++ left script s.toList.zipIdx ++
      (givesAll .backward script s.toList.zipIdx).reverse = s.toList.zipIdx
  past (script : List CursorMove) (count : Nat) : (left script s.toList).length ≤ count →
    ∀ move ∈ [nth count, nthBack count],
      ((s.cursor.after skipping script).perform skipping move).1 = .element none ∧
        left (script ++ [move]) s.toList = []
  ended (script more : List CursorMove) : left script s.toList = [] →
    s.cursor.performAll skipping (script ++ more) =
      s.cursor.performAll skipping script ++ more.map CursorMove.ended
  /-- Every copy answers by the moves made on it, and on what it is a copy of before that. -/
  copies (program : List PoolStep) :
    PoolStep.performAll (performPlain skipping) program [s.cursor] =
      PoolStep.performAll (afterHistory s.toList) program [[]]

/-- The same on words. -/
structure TwoEndedOnWords (skipping : Skipping) (s : Sequence α) : Prop where
  answers (script : List CursorMove) :
    guardedPerformAll skipping script s.cursor = .ok (popAll script s.toList)
  copies (program : List PoolStep) :
    PoolStep.performAll (guardedPerform skipping) program [s.cursor] =
      .ok (PoolStep.performAll (afterHistory s.toList) program [[]]).run

theorem inside_after (s : Sequence α) (skipping : Skipping) (script : List CursorMove) :
    (s.cursor.after skipping script).Inside s := by
  have hc : s.cursor.Inside s := ⟨rfl, Nat.zero_le _, Nat.le_refl _⟩
  exact hc.after script

variable [BEq α] {hashing : Option (ElementHash α)}

theorem WellFormed.pending_after (h : s.WellFormed hashing) (skipping : Skipping)
    (script : List CursorMove) :
    (s.cursor.after skipping script).Pending (left script s.toList) :=
  h.pending_cursor.after script

theorem WellFormed.pending_eq_slots {cursor : Cursor α} {items : List α}
    (h : s.WellFormed hashing) (hc : cursor.Inside s) (hp : cursor.Pending items) :
    items = slots s.toList cursor.front (cursor.back - cursor.front) := by
  obtain ⟨he, hf, hb⟩ := hc
  obtain ⟨hl, hg⟩ := hp
  apply List.ext_getElem?
  intro i
  by_cases hi : i < items.length
  · rw [← hg i hi, he, h.get?_eq, getElem?_slots (by omega)]
  · have hs : (slots s.toList cursor.front (cursor.back - cursor.front)).length ≤ i := by
      rw [length_slots (by rw [h.length_toList]; omega)]
      omega
    rw [List.getElem?_eq_none (Nat.le_of_not_lt hi), List.getElem?_eq_none hs]

theorem WellFormed.twoEnded (h : s.WellFormed hashing) (skipping : Skipping) :
    s.TwoEnded skipping where
  answers script := h.pending_cursor.performAll_eq skipping script
  ends script := by
    have hc := inside_after s skipping script
    refine ⟨hc.front_le, ?_, h.pending_eq_slots hc (h.pending_after skipping script)⟩
    rw [h.length_toList]
    exact hc.back_le
  counts script := by
    have hr := (h.pending_after skipping script).remaining_eq
    exact ⟨hr, by rw [Cursor.sizeHint, hr]⟩
  numbered script := by
    rw [h.pending_cursor.performAll_eq, popAll_map, List.zipIdx_map_fst]
  ordered script := (pairwise_zipIdx s.toList 0).sublist (script_sublist script _)
  complete script hs := script_partition hs _
  past script count hc := by
    intro move hm
    have hp : move.pop (left script s.toList) = (.element none, []) := by
      rcases List.mem_pair.mp hm with rfl | rfl
      · exact nth_past hc
      · exact nthBack_past hc
    obtain ⟨later, he, -⟩ := (h.pending_after skipping script).perform_eq skipping move
    rw [he, left_concat, hp]
    exact ⟨rfl, rfl⟩
  ended script more hl := by
    rw [h.pending_cursor.performAll_eq, h.pending_cursor.performAll_eq, popAll_append, hl,
      popAll_nil]
  copies program := (Pending.follows skipping s.toList).performAll
    (.cons h.pending_cursor .nil) program

theorem Fits.twoEndedOnWords (h : s.Fits hashing) (skipping : Skipping) :
    s.TwoEndedOnWords skipping := by
  have hw : s.cursor.Within hashing := ⟨h, Nat.zero_le _, Nat.le_refl _⟩
  have hp : s.cursor.Pending s.toList := h.wellFormed.pending_cursor
  constructor
  · intro script
    rw [hw.guardedPerformAll_eq, hp.performAll_eq]
  · intro program
    have hs : s.cursor.Within hashing ∧ s.cursor.Pending (left [] s.toList) := ⟨hw, hp⟩
    exact (Within.follows hashing skipping s.toList).performAll (.cons hs .nil) program

end Sequence

/-- However elements are skipped, the cursors of a sequence that a run makes are queues of its
elements with two ends: no element is given twice, and one that is at its end stays there. -/
theorem Reachable.cursor_two_ended [BEq α] {hashing : Option (ElementHash α)} {s : Sequence α}
    (h : Reachable hashing s) (skipping : Skipping) :
    s.TwoEnded skipping ∧ (s.Fits hashing → s.TwoEndedOnWords skipping) :=
  ⟨h.wellFormed.twoEnded skipping, fun hf => hf.twoEndedOnWords skipping⟩

theorem fits_mixed : mixed.Fits (some parity) where
  wellFormed := reachable_mixed.wellFormed
  short := by decide
  buffers := by
    simp [mixed, table, Sequence.Everywhere, Sequence.nodes, Sequence.BufferFits, indexLimit]

theorem cursor_two_ended_mixed :
    mixed.toList = [7, 5, 8, 5, 5] ∧
      Cursor.guardedPerformAll .jump [.nth 1, .back, .sizeHint, .nthBack (wordSize - 1), .next]
          mixed.cursor =
        .ok [.element (some 5), .element (some 5), .bounds 2 2, .element none, .element none] ∧
      mixed.cursor.performAll .stepwise ([.next, .nthBack 3] ++ [.nth 2, .remaining]) =
        mixed.cursor.performAll .stepwise [.next, .nthBack 3] ++ [.element none, .count 0] := by
  obtain ⟨-, hw⟩ := reachable_mixed.cursor_two_ended .jump
  obtain ⟨hs, -⟩ := reachable_mixed.cursor_two_ended .stepwise
  refine ⟨rfl, ?_, ?_⟩
  · rw [(hw fits_mixed).answers]
    rfl
  · exact hs.ended [.next, .nthBack 3] [.nth 2, .remaining] rfl

end SharedSequence
