import SharedSequence.Proofs.Canonical
import SharedSequence.Proofs.Concatenation
import SharedSequence.Proofs.Extraction
import SharedSequence.Proofs.Search
import SharedSequence.Proofs.Windows

namespace SharedSequence

namespace Sequence

variable {α : Type}

/-- The same node in another cell. -/
def atCell (s : Sequence α) (cell : Cell) : Sequence α :=
  match s with
  | nil _ => nil cell
  | run _ value count => run cell value count
  | flat _ items start count => flat cell items start count
  | indexed _ items index hasher => indexed cell items index hasher
  | window _ base start count => window cell base start count
  | reversed _ base => reversed cell base
  | link _ left right bias count => link cell left right bias count

/-- The root of the tree is the view that a reversal makes. -/
def IsReversal : Sequence α → Prop
  | reversed _ _ => True
  | _ => False

/-- The reversal of a concatenation, and the reversals concatenated in opposite order. -/
def reversals (a b : Sequence α) : StoreM (Sequence α × Sequence α) := do
  let left ← (← a.concat b).reverse
  let right ← (← b.reverse).concat (← a.reverse)
  return (left, right)

/-- A window of the reversal, and the reversal of the window that lies as far from the other end. -/
def mirroredWindows (s : Sequence α) (offset length : Nat) :
    ExceptT SequenceError StoreM (Sequence α × Sequence α) := do
  let left ← ViewStep.applyAll [.reversal, .window offset length] s
  let right ← ViewStep.applyAll [.window (s.length - offset - length) length, .reversal] s
  return (left, right)

variable {s base : Sequence α} {cell : Cell}

theorem reverse_of_short (h : s.length < 2) : s.reverse = return s := by
  unfold reverse
  rw [if_pos h]

theorem reverse_run (cell : Cell) (value : α) (count : Nat) :
    (run cell value count).reverse = return run cell value count := by
  unfold reverse
  split <;> rfl

theorem reverse_reversed (cell : Cell) (h : 2 ≤ base.length) :
    (reversed cell base).reverse = return base := by
  unfold reverse
  rw [if_neg (by rw [length]; omega)]

theorem reverse_of_takesReversal (h : 2 ≤ s.length) (ht : s.TakesReversal) :
    s.reverse = do return .reversed (← allocate) s := by
  unfold reverse
  rw [if_neg (by omega)]
  cases s with
  | nil | run | reversed => exact ht.elim
  | flat | indexed | window | link => rfl

theorem atCell_cell (s : Sequence α) : s.atCell s.cell = s := by
  cases s <;> rfl

variable [BEq α] {hashing : Option (ElementHash α)}

/-- A node that takes a reversal is the base of its own one, and no reversal has another base. -/
theorem WellFormed.reverse_reverse (h : s.WellFormed hashing) :
    Yields (do (← s.reverse).reverse) fun t => t = s.atCell t.cell ∧ (¬ s.IsReversal → t = s) := by
  have hself : s = s.atCell s.cell ∧ (¬ s.IsReversal → s = s) :=
    ⟨s.atCell_cell.symm, fun _ => rfl⟩
  by_cases hs : s.length < 2
  · rw [reverse_of_short hs, pure_bind, reverse_of_short hs]
    exact .pure hself
  · cases s with
    | nil => simp [length] at hs
    | run =>
      rw [reverse_run, pure_bind, reverse_run]
      exact .pure hself
    | reversed cell base =>
      obtain ⟨⟨h2, ht⟩, -⟩ := wellFormed_reversed.mp h
      rw [reverse_reversed cell h2, pure_bind, reverse_of_takesReversal h2 ht]
      exact .bind_any fun cell => .pure ⟨rfl, fun hn => absurd trivial hn⟩
    | flat | indexed | window | link =>
      rw [reverse_of_takesReversal (Nat.le_of_not_lt hs) (by trivial), bind_assoc]
      refine .bind_any fun cell => ?_
      rw [pure_bind, reverse_reversed cell (by omega)]
      exact .pure hself

/-- In a store, the sequences answer alike: by positions, traversal, iteration, search, hash,
equality and order. -/
structure Indistinct (hashing : Option (ElementHash α)) (store : Store) (a b : Sequence α) :
    Prop where
  length_eq : a.length = b.length
  get_eq (i : Nat) : a.get i = b.get i
  toList_eq : a.toList = b.toList
  rest_eq : a.cursor.rest = b.cursor.rest
  extractRange_eq {σ : Type} (push : Collector σ α) (offset length : Nat) (direction : Direction)
    (state : σ) : a.extractRange push offset length direction state =
      b.extractRange push offset length direction state
  findWindow_eq (hh : HashAgrees hashing) (value : α) {offset length : Nat}
    (hw : offset + length ≤ a.length) (direction : Direction) :
    a.findWindow value offset length direction = b.findWindow value offset length direction
  hashCode_eq {hash : ElementHash α} (hh : hash ∈ hashing) :
    (a.hashCode.run store).1 = (b.hashCode.run store).1
  equals {hash : ElementHash α} (hh : hash ∈ hashing) (hr : ReflBEq α) :
    ((a.equals b).run store).1 = true
  lexCompare_eq [Ord α] {c : Sequence α} (hc : Reachable hashing c) :
    a.lexCompare c = b.lexCompare c ∧ c.lexCompare a = c.lexCompare b

end Sequence

open Sequence

variable {α : Type} [BEq α] {hashing : Option (ElementHash α)} {store : Store}
  {made : List (Sequence α)} {a b s : Sequence α}

/-- In a run, the elements decide every answer. -/
theorem Run.indistinct (h : Run hashing store made) (ha : a ∈ made) (hb : b ∈ made)
    (he : a.toList = b.toList) : Indistinct hashing store a b := by
  obtain ⟨owners, hco, hs⟩ := h.sound
  have hsa := hs a ha
  have hsb := hs b hb
  have hwa := hsa.wellFormed
  have hwb := hsb.wellFormed
  have hl : a.length = b.length := by rw [← hwa.length_toList, he, hwb.length_toList]
  have hg (i : Nat) : a.get? i = b.get? i := by rw [hwa.get?_eq, he, hwb.get?_eq]
  constructor
  case length_eq => exact hl
  case toList_eq => exact he
  case get_eq =>
    intro i
    rw [Sequence.get, Sequence.get, hg, hl]
  case rest_eq => rw [hwa.reads.cursor, he, hwb.reads.cursor]
  case extractRange_eq =>
    intro σ push offset length direction state
    -- A range past the end is the same error for both.
    rcases Nat.lt_or_ge a.length (offset + length) with hlt | hle
    · rw [extractRange_eq_error hlt, extractRange_eq_error (hl ▸ hlt)]
    · rw [hwa.extractRange_eq hle, hwb.extractRange_eq (hl ▸ hle), he]
  case findWindow_eq =>
    intro hh value offset length hw direction
    rw [hwa.findWindow_eq hh value hw, hwb.findWindow_eq hh value (hl ▸ hw)]
    exact scan_congr fun p _ _ => by rw [holds, holds, hg]
  case hashCode_eq => exact fun hh => (hsa.hash_and_equality hh hsb he hco).1
  case equals => exact fun hh => (hsa.hash_and_equality hh hsb he hco).2
  case lexCompare_eq => exact fun hc => hwa.lexCompare_of_toList_eq hwb hc.wellFormed he

omit [BEq α] in
theorem ViewStep.run_applyAll_cons {step : ViewStep} {rest : List ViewStep} {t : Sequence α}
    {make : StoreM (Sequence α)} {store' : Store} (hm : step.apply s = .ok make)
    (hr : make.run store = (t, store')) :
    (ViewStep.applyAll (step :: rest) s).run.run store =
      (ViewStep.applyAll rest t).run.run store' := by
  rw [ViewStep.applyAll, hm]
  refine run_bind_ok (b := t) ?_
  change (Except.ok <$> make).run store = _
  rw [StateT.run_map, hr]
  rfl

theorem Run.reversals_indistinct (h : Run hashing store made) (ha : a ∈ made) (hb : b ∈ made) :
    ∃ left right now, (reversals a b).run store = ((left, right), now) ∧
      Indistinct hashing now left right := by
  -- Each step goes on from the store before it, so that both results are made in one run.
  rcases h₁ : (a.concat b).run store with ⟨ab, store₁⟩
  have r₁ := h.step (.concat ha hb) h₁
  rcases h₂ : ab.reverse.run store₁ with ⟨left, store₂⟩
  have r₂ := r₁.step (.reverse (.head _)) h₂
  rcases h₃ : b.reverse.run store₂ with ⟨b', store₃⟩
  have r₃ := r₂.step (.reverse (.tail _ (.tail _ hb))) h₃
  rcases h₄ : a.reverse.run store₃ with ⟨a', store₄⟩
  have r₄ := r₃.step (.reverse (.tail _ (.tail _ (.tail _ ha)))) h₄
  rcases h₅ : (b'.concat a').run store₄ with ⟨right, store₅⟩
  have r₅ := r₄.step (.concat (.tail _ (.head _)) (.head _)) h₅
  refine ⟨left, right, store₅, ?_, r₅.indistinct (by simp) (by simp) ?_⟩
  · rw [reversals, run_bind_eq h₁, run_bind_eq h₂, run_bind_eq h₃, run_bind_eq h₄, run_bind_eq h₅]
    rfl
  · have hab := ((h.wellFormed ha).toList_concat (h.wellFormed hb)).of_run h₁
    have hleft := (r₁.wellFormed (.head _)).toList_reverse.of_run h₂
    have hb' := (h.wellFormed hb).toList_reverse.of_run h₃
    have ha' := (h.wellFormed ha).toList_reverse.of_run h₄
    have hright := ((r₃.wellFormed (.head _)).toList_concat (r₄.wellFormed (.head _))).of_run h₅
    rw [hleft, hab, List.reverse_append, hright, hb', ha']

theorem Run.mirroredWindows_indistinct (h : Run hashing store made) (hs : s ∈ made)
    {offset length : Nat} (hw : offset + length ≤ s.length) :
    ∃ left right now, (mirroredWindows s offset length).run.run store = (.ok (left, right), now) ∧
      Indistinct hashing now left right := by
  have hm : s.length - offset - length + length ≤ s.length := by omega
  have hws := h.wellFormed hs
  rcases h₁ : s.reverse.run store with ⟨t, store₁⟩
  have r₁ := h.step (.reverse hs) h₁
  have ht := hws.toList_reverse.of_run h₁
  have hwt := r₁.wellFormed (.head _)
  have hl : offset + length ≤ t.length := by
    rw [← hwt.length_toList, ht, List.length_reverse, hws.length_toList]
    exact hw
  rcases h₂ : (t.cut offset length).run store₁ with ⟨left, store₂⟩
  have r₂ := r₁.step (.slice (.head _) (slice_eq_ok hl)) h₂
  rcases h₃ : (s.cut (s.length - offset - length) length).run store₂ with ⟨u, store₃⟩
  have r₃ := r₂.step (.slice (.tail _ (.tail _ hs)) (slice_eq_ok hm)) h₃
  rcases h₄ : u.reverse.run store₃ with ⟨right, store₄⟩
  have r₄ := r₃.step (.reverse (.head _)) h₄
  refine ⟨left, right, store₄, ?_, r₄.indistinct (by simp) (by simp) ?_⟩
  · have hcut : (ViewStep.window offset length).apply t = .ok (t.cut offset length) :=
      slice_eq_ok hl
    have hcut' : (ViewStep.window (s.length - offset - length) length).apply s =
        .ok (s.cut (s.length - offset - length) length) := slice_eq_ok hm
    have hleft : (ViewStep.applyAll [.reversal, .window offset length] s).run.run store =
        (.ok left, store₂) := by
      rw [ViewStep.run_applyAll_cons rfl h₁, ViewStep.run_applyAll_cons hcut h₂]
      rfl
    have hright : (ViewStep.applyAll [.window (s.length - offset - length) length, .reversal]
        s).run.run store₂ = (.ok right, store₄) := by
      rw [ViewStep.run_applyAll_cons hcut' h₃, ViewStep.run_applyAll_cons rfl h₄]
      rfl
    rw [mirroredWindows, run_bind_ok hleft, run_bind_ok hright]
    rfl
  · have hleft := (hwt.toList_cut hl).of_run h₂
    have hu := (hws.toList_cut hm).of_run h₃
    have hright := (r₃.wellFormed (.head _)).toList_reverse.of_run h₄
    rw [hleft, ht, slots_reverse (by rw [hws.length_toList]; exact hw), hws.length_toList, hright,
      hu]

/-- In a run, the reversal of a sequence shows its positions from the other end, and is the sequence
itself where that has less than two elements or is a run of one value. Reversed again, it is the
same tree, and the same instance unless the sequence is a reversal. The reversal of a concatenation
and the reversals concatenated in opposite order cannot be told apart, nor can a window of a
reversal and the reversal of the mirrored window. -/
theorem Run.reversal_involutive (h : Run hashing store made) :
    (∀ s ∈ made,
      Yields s.reverse (·.Shows s s.length (s.length - 1 - ·)) ∧
      (s.length < 2 ∨ s.IsRun → s.reverse = return s) ∧
      (Yields (do (← s.reverse).reverse) fun t =>
        t = s.atCell t.cell ∧ (¬ s.IsReversal → t = s)) ∧
      ∀ offset length, offset + length ≤ s.length → ∃ left right now,
        (mirroredWindows s offset length).run.run store = (.ok (left, right), now) ∧
          Indistinct hashing now left right) ∧
    ∀ a ∈ made, ∀ b ∈ made, ∃ left right now,
      (reversals a b).run store = ((left, right), now) ∧ Indistinct hashing now left right := by
  refine ⟨fun s hs => ⟨?_, ?_, (h.wellFormed hs).reverse_reverse,
    fun offset length hw => h.mirroredWindows_indistinct hs hw⟩,
    fun a ha b hb => h.reversals_indistinct ha hb⟩
  · exact (h.wellFormed hs).reverse_shows.mono fun t ht => ht.2
  · rintro (hshort | hrun)
    · exact reverse_of_short hshort
    · cases s with
      | run cell value count => exact reverse_run cell value count
      | nil | flat | indexed | window | reversed | link => exact hrun.elim

theorem reversal_involutive_mixed : ∃ store,
    (Yields (do (← mixed.reverse).reverse) fun t => t = mixed) ∧
      (∃ left right now, (mirroredWindows mixed 1 3).run.run store = (.ok (left, right), now) ∧
        left.toList = right.toList ∧ ((@equals _ _ parity left right).run now).1 = true) ∧
      ∃ left right now, (reversals mixed mixed).run store = ((left, right), now) ∧
        ((@hashCode _ parity left).run now).1 = ((@hashCode _ parity right).run now).1 := by
  obtain ⟨store, made, h, hm⟩ := reachable_mixed
  obtain ⟨hone, htwo⟩ := h.reversal_involutive
  obtain ⟨-, -, hself, hwindows⟩ := hone mixed hm
  obtain ⟨left, right, now, hr, hi⟩ := hwindows 1 3 (by decide)
  obtain ⟨left', right', now', hr', hi'⟩ := htwo mixed hm mixed hm
  refine ⟨store, hself.mono fun t ht => ht.2 id, ⟨left, right, now, hr, hi.toList_eq, ?_⟩,
    left', right', now', hr', ?_⟩
  · exact hi.equals (Option.mem_some_self parity) inferInstance
  · exact hi'.hashCode_eq (Option.mem_some_self parity)

end SharedSequence
