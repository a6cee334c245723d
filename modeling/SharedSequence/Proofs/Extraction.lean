import SharedSequence.Bytes
import SharedSequence.CodePoints
import SharedSequence.Proofs.Compaction
import SharedSequence.Proofs.Pending

namespace SharedSequence

variable {α σ : Type}

namespace Collector

variable {push : Collector σ α}

/-- From a state, the collector takes the elements one after another, goes on after each of them,
and reaches a state. -/
inductive Takes (push : Collector σ α) : List α → σ → σ → Prop where
  | nil (state : σ) : Takes push [] state state
  | cons {state : σ} (hp : push state x = .yield next) (h : Takes push rest next last) :
      Takes push (x :: rest) state last

/-- The collector receives the elements one after another: all of them, or those up to the first
one after which it ends. -/
def Receives (push : Collector σ α) (items : List α) (state : σ) : ForInStep σ → Prop
  | .yield last => Takes push items state last
  | .done last => ∃ taken x rest reached, items = taken ++ x :: rest ∧
      Takes push taken state reached ∧ push reached x = .done last

theorem receives_pushList (items : List α) (state : σ) :
    push.Receives items state (pushList push items state) := by
  induction items generalizing state with
  | nil => exact .nil state
  | cons x items ih =>
    rw [pushList]
    cases hx : push state x with
    | done last => exact ⟨[], x, items, state, rfl, .nil state, hx⟩
    | yield next =>
      have hrest := ih next
      rw [andThen]
      cases hr : pushList push items next with
      | yield last =>
        rw [hr] at hrest
        exact .cons hx hrest
      | done last =>
        rw [hr] at hrest
        obtain ⟨taken, y, rest, reached, he, ht, hy⟩ := hrest
        exact ⟨x :: taken, y, rest, reached, by rw [he, List.cons_append], .cons hx ht, hy⟩

theorem pushList_textWriter (items : List Char) (text : String) :
    pushList CodePoints.textWriter items text = .yield (text ++ String.ofList items) := by
  induction items generalizing text with
  | nil => simp [pushList]
  | cons c items ih =>
    have hc : text.push c ++ String.ofList items = text ++ String.ofList (c :: items) := by
      apply String.toList_injective
      simp
    rw [pushList, CodePoints.textWriter, andThen, ih, hc]

end Collector

namespace Sequence

theorem extractRange_eq_error {s : Sequence α} {offset length : Nat}
    (hw : s.length < offset + length) (push : Collector σ α) (direction : Direction) (state : σ) :
    s.extractRange push offset length direction state =
      .error (.invalidArgument .windowExceedsSequence) := by
  rw [extractRange, checkWindow, if_neg (by omega)]
  rfl

theorem get_eq_ok_iff {s : Sequence α} {i : Nat} {x : α} : s.get i = .ok x ↔ s.get? i = some x := by
  rw [get]
  cases s.get? i with
  | none => simp
  | some y => simp

variable [BEq α] {hashing : Option (ElementHash α)}

theorem WellFormed.get_eq_ok {s : Sequence α} (h : s.WellFormed hashing) {i : Nat}
    (hi : i < s.toList.length) : s.get i = .ok s.toList[i] := by
  rw [get, h.get?_eq, List.getElem?_eq_getElem hi]

theorem WellFormed.get_eq_error {s : Sequence α} (h : s.WellFormed hashing) {i : Nat}
    (hi : s.length ≤ i) : s.get i = .error (.outOfBounds i s.length) := by
  rw [get, h.get?_eq, List.getElem?_eq_none (by rw [h.length_toList]; exact hi)]

theorem WellFormed.map_get {s : Sequence α} (h : s.WellFormed hashing) {offset length : Nat}
    (hw : offset + length ≤ s.length) :
    (List.range' offset length).map s.get = (slots s.toList offset length).map .ok := by
  have hl := h.length_toList
  apply List.ext_getElem
  · rw [List.length_map, List.length_map, List.length_range', length_slots (by omega)]
  · intro i hi hi'
    rw [List.length_map, List.length_range'] at hi
    have he : slots s.toList offset length = (s.toList.drop offset).take length := rfl
    rw [List.getElem_map, List.getElem_map, List.getElem_range', Nat.one_mul,
      h.get_eq_ok (by omega)]
    simp only [he, List.getElem_take, List.getElem_drop]

theorem WellFormed.extractRange_eq {s : Sequence α} (h : s.WellFormed hashing)
    {offset length : Nat} (hw : offset + length ≤ s.length) (push : Collector σ α)
    (direction : Direction) (state : σ) : s.extractRange push offset length direction state =
      .ok (Collector.pushList push (direction.orient (slots s.toList offset length)) state) := by
  rw [extractRange, checkWindow, if_pos hw, ← h.extractWindow_eq hw direction state]
  rfl

/-- Every way to read the whole sequence gives the listed elements. -/
structure Reads (s : Sequence α) (items : List α) : Prop where
  get : items.map .ok = (List.range s.length).map s.get
  extract {σ : Type} (push : Collector σ α) (state : σ) :
    push.Receives items state (s.extract push state)
  toArray : s.toArray.toList = items
  fold {β : Type} (step : β → α → β) (initial : β) :
    s.fold step initial = items.foldl step initial
  cursor : s.cursor.rest = items

theorem WellFormed.reads {s : Sequence α} (h : s.WellFormed hashing) : s.Reads s.toList where
  get := by
    rw [List.range_eq_range', h.map_get (by omega), ← h.length_toList, slots_all]
  extract push state := by
    rw [h.extract_eq]
    exact Collector.receives_pushList s.toList state
  toArray := by rw [h.toArray_eq]
  fold := h.fold_eq
  cursor := h.pending_cursor.rest_eq

end Sequence

theorem CodePoints.toText_eq {hashing : Option (ElementHash Char)} {s : CodePoints}
    (h : s.WellFormed hashing) : s.toText = String.ofList s.toList := by
  rw [toText, h.extract_eq, Collector.pushList_textWriter, Collector.state, String.empty_append]

open Sequence

/-- A window that exceeds a reachable sequence is refused whatever the collector is; the elements of
any other are received in the direction, each once, until the collector ends. Access to a position,
extraction, copies, folds, cursors and written texts see the same elements. -/
theorem extraction_agrees_with_access :
    (∀ {α : Type} [BEq α] {hashing : Option (ElementHash α)} {s : Sequence α},
      Reachable hashing s →
      (∀ i, i < s.length → ∃ value, s.get i = .ok value) ∧
        (∀ i, s.length ≤ i → s.get i = .error (.outOfBounds i s.length)) ∧
        (∀ {σ : Type} (push : Collector σ α) (state : σ) (offset length : Nat)
          (direction : Direction),
          (s.length < offset + length → s.extractRange push offset length direction state =
            .error (.invalidArgument .windowExceedsSequence)) ∧
          (offset + length ≤ s.length → ∃ items reached,
            items.map .ok = (List.range' offset length).map s.get ∧
              s.extractRange push offset length direction state = .ok reached ∧
              push.Receives (direction.orient items) state reached)) ∧
        ∃ items, s.Reads items) ∧
      (∀ {hashing : Option (ElementHash Char)} {text : CodePoints}, Reachable hashing text →
        ∃ items, text.Reads items ∧ text.toText = String.ofList items ∧
          ∀ room, ∃ reached, (CodePoints.limitedWriter room).Receives items "" reached ∧
            text.display room = (Collector.completed reached, Collector.state reached)) ∧
      ∀ {hashing : Option (ElementHash UInt8)} {bytes : Bytes}, Reachable hashing bytes →
        ∃ items, bytes.Reads items ∧ bytes.toText =
          items.foldl (fun text byte => text ++ String.ofList (Hex.encodeByte byte)) "0x" := by
  refine ⟨?_, ?_, ?_⟩
  · intro α _ hashing s h
    have hw := h.wellFormed
    refine ⟨?_, ?_, ?_, s.toList, hw.reads⟩
    · intro i hi
      exact ⟨_, hw.get_eq_ok (by rw [hw.length_toList]; exact hi)⟩
    · intro i hi
      exact hw.get_eq_error hi
    · intro σ push state offset length direction
      refine ⟨fun hl => extractRange_eq_error hl push direction state, fun hl => ?_⟩
      exact ⟨_, _, (hw.map_get hl).symm, hw.extractRange_eq hl push direction state,
        Collector.receives_pushList _ state⟩
  · intro hashing text h
    have hw := h.wellFormed
    refine ⟨text.toList, hw.reads, CodePoints.toText_eq hw, ?_⟩
    intro room
    exact ⟨_, hw.reads.extract (CodePoints.limitedWriter room) "", rfl⟩
  · intro hashing bytes h
    have hw := h.wellFormed
    exact ⟨bytes.toList, hw.reads, hw.fold_eq _ _⟩

/-- A collector that ends in the first part of a window across a link, met from its end. -/
theorem extraction_agrees_with_access_mixed :
    ∃ items, items.map .ok = (List.range' 1 3).map mixed.get ∧
      mixed.extractRange (fun seen x => if x = 8 then .done seen else .yield (x :: seen)) 1 3
        .backward [] = .ok (.done [5]) ∧
      Collector.Receives (fun seen x => if x = 8 then .done seen else .yield (x :: seen))
        (Direction.backward.orient items) [] (.done [5]) := by
  obtain ⟨items, reached, hi, hr, hrec⟩ :=
    ((extraction_agrees_with_access.1 reachable_mixed).2.2.1
      (fun seen x => if x = 8 then .done seen else .yield (x :: seen)) [] 1 3 .backward).2
      (by decide)
  obtain rfl : .done [5] = reached := Except.ok.inj hr
  exact ⟨items, hi, hr, hrec⟩

end SharedSequence
