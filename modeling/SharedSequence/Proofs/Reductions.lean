import Mathlib.Algebra.GroupWithZero.Nat
import SharedSequence.Proofs.Concatenation
import SharedSequence.Proofs.GuardedConcat

namespace SharedSequence

open Sequence

variable {α : Type}

namespace Sequence

def guardedConcatAll (parts : List (Sequence α)) : GuardedM (Sequence α) :=
  match parts with
  | [] => empty
  | [part] => return part
  | parts@(_ :: _ :: _) => do
    let low ← guardedConcatAll (parts.take (parts.length / 2))
    let high ← guardedConcatAll (parts.drop (parts.length / 2))
    low.guardedConcat high
termination_by parts.length
decreasing_by all_goals simp_all; omega

def guardedAppendAll (first : Sequence α) (parts : List (Sequence α)) : GuardedM (Sequence α) :=
  parts.foldlM guardedConcat first

def guardedCombineAll (parts : List (Sequence α)) : GuardedM (Sequence α) := do
  guardedAppendAll (← empty) parts

def guardedReduceAll : List (Sequence α) → Option (GuardedM (Sequence α))
  | [] => none
  | first :: rest => some (guardedAppendAll first rest)

/-- The ways to reduce a list of parts, on words and on numbers. -/
inductive Reduction (parts : List (Sequence α)) :
    GuardedM (Sequence α) → StoreM (Sequence α) → Prop where
  /-- The monoid of sequences combines in this way, too. -/
  | halves : Reduction parts (guardedConcatAll parts) (concatAll parts)
  | fromEmpty : Reduction parts (guardedCombineAll parts) (combineAll parts)
  | fromFirst {guarded : GuardedM (Sequence α)} {make : StoreM (Sequence α)}
      (hg : guardedReduceAll parts = some guarded) (hm : reduceAll parts = some make) :
      Reduction parts guarded make

/-- The parts that have elements. -/
def inhabited (parts : List (Sequence α)) : List (Sequence α) :=
  parts.filter fun part => !part.isEmpty

variable [BEq α] {hashing : Option (ElementHash α)} {a b s : Sequence α}
  {low high parts : List (Sequence α)}

/-- The sequence has the elements of the parts, and is the only part that has any. -/
structure Joins (hashing : Option (ElementHash α)) (parts : List (Sequence α)) (s : Sequence α) :
    Prop where
  wellFormed : s.WellFormed hashing
  toList_eq : s.toList = parts.flatMap toList
  length_eq : s.length = (parts.map length).sum
  only (part : Sequence α) : inhabited parts = [part] → s = part

theorem joins_nil (cell : Cell) : Joins hashing [] (nil (α := α) cell) where
  wellFormed := wellFormed_nil
  toList_eq := rfl
  length_eq := rfl
  only _ h := nomatch h

theorem yields_empty : Yields (empty : StoreM (Sequence α)) (Joins hashing []) :=
  .bind_any fun cell => .pure (joins_nil cell)

theorem WellFormed.joins_self (h : s.WellFormed hashing) : Joins hashing [s] s where
  wellFormed := h
  toList_eq := (List.flatMap_singleton ..).symm
  length_eq := (List.sum_singleton ..).symm
  only part hp := by
    have hm : part ∈ inhabited [s] := by
      rw [hp]
      exact List.mem_singleton_self part
    exact (List.mem_singleton.mp (List.mem_filter.mp hm).1).symm

omit [BEq α] in
theorem length_of_inhabited_eq_nil (h : inhabited parts = []) : (parts.map length).sum = 0 := by
  apply List.sum_eq_zero_iff_forall_eq_nat.mpr
  rintro _ hm
  obtain ⟨part, hp, rfl⟩ := List.mem_map.mp hm
  have he := List.filter_eq_nil_iff.mp h part hp
  simpa [Sequence.isEmpty] using he

theorem Joins.isEmpty (h : Joins hashing parts s) (hn : inhabited parts = []) :
    s.isEmpty = true := by
  rw [Sequence.isEmpty, h.length_eq, length_of_inhabited_eq_nil hn]
  rfl

omit [BEq α] in
theorem isEmpty_of_inhabited {part : Sequence α} (h : inhabited parts = [part]) :
    ¬part.isEmpty = true := by
  have hm : part ∈ inhabited parts := by
    rw [h]
    exact List.mem_singleton_self part
  simpa using (List.mem_filter.mp hm).2

theorem Joins.concat_only (ha : Joins hashing low a) (hb : Joins hashing high b)
    {part : Sequence α} (hp : inhabited (low ++ high) = [part]) :
    Yields (a.concat b) fun s => s = part := by
  rw [inhabited, List.filter_append, List.append_eq_singleton_iff] at hp
  rw [Sequence.concat]
  obtain ⟨hl, hh⟩ | ⟨hl, hh⟩ := hp
  · obtain rfl := hb.only part hh
    rw [if_neg (isEmpty_of_inhabited hh), if_pos (ha.isEmpty hl)]
    exact .pure rfl
  · obtain rfl := ha.only part hl
    rw [if_pos (hb.isEmpty hh)]
    exact .pure rfl

theorem Joins.concat (ha : Joins hashing low a) (hb : Joins hashing high b) :
    Yields (a.concat b) (Joins hashing (low ++ high)) := by
  intro store
  have hw := ha.wellFormed.concat hb.wellFormed store
  have he := ha.wellFormed.toList_concat hb.wellFormed store
  refine ⟨hw, ?_, ?_, fun part hp => ha.concat_only hb hp store⟩
  · rw [he, ha.toList_eq, hb.toList_eq, List.flatMap_append]
  · rw [← hw.length_toList, he, List.length_append, ha.wellFormed.length_toList,
      hb.wellFormed.length_toList, ha.length_eq, hb.length_eq, List.map_append, List.sum_append]

theorem Joins.appendAll (ha : Joins hashing low a) (h : ∀ part ∈ parts, part.WellFormed hashing) :
    Yields (a.appendAll parts) (Joins hashing (low ++ parts)) := by
  induction parts generalizing low a with
  | nil =>
    rw [List.append_nil]
    exact .pure ha
  | cons part parts ih =>
    obtain ⟨hp, hps⟩ := List.forall_mem_cons.mp h
    refine .bind (ha.concat hp.joins_self) ?_
    intro s hs
    have hall := ih hs hps
    rwa [List.append_assoc, List.singleton_append] at hall

theorem joins_concatAll (h : ∀ part ∈ parts, part.WellFormed hashing) :
    Yields (concatAll parts) (Joins hashing parts) := by
  induction parts using concatAll.induct with
  | case1 =>
    rw [Sequence.concatAll]
    exact yields_empty
  | case2 part =>
    rw [Sequence.concatAll]
    exact .pure (h part (List.mem_singleton_self part)).joins_self
  | case3 first second rest ihl ihh =>
    rw [Sequence.concatAll]
    refine .bind (ihl fun part hp => h part (List.mem_of_mem_take hp)) ?_
    intro low hl
    refine .bind (ihh fun part hp => h part (List.mem_of_mem_drop hp)) ?_
    intro high hh
    have hall := hl.concat hh
    rwa [List.take_append_drop] at hall

/-- However the parts are reduced, they are joined. -/
theorem Reduction.joins {guarded : GuardedM (Sequence α)} {make : StoreM (Sequence α)}
    (hr : Reduction parts guarded make) (h : ∀ part ∈ parts, part.WellFormed hashing) :
    Yields make (Joins hashing parts) := by
  cases hr with
  | halves => exact joins_concatAll h
  | fromEmpty => exact .bind yields_empty fun s hs => hs.appendAll h
  | fromFirst hg hm =>
    cases parts with
    | nil => cases hm
    | cons first rest =>
      cases hm
      obtain ⟨hf, hrs⟩ := List.forall_mem_cons.mp h
      exact hf.joins_self.appendAll hrs

theorem Joins.faultless_concat (ha : Joins hashing low a) (hb : Joins hashing high b)
    (hl : ((low ++ high).map length).sum < wordSize) :
    Faultless (a.guardedConcat b) (a.concat b) := by
  apply ha.wellFormed.faultless_concat hb.wellFormed
  rwa [ha.length_eq, hb.length_eq, ← List.sum_append, ← List.map_append]

theorem Joins.faultless_appendAll (ha : Joins hashing low a)
    (h : ∀ part ∈ parts, part.WellFormed hashing)
    (hl : ((low ++ parts).map length).sum < wordSize) :
    Faultless (a.guardedAppendAll parts) (a.appendAll parts) := by
  induction parts generalizing low a with
  | nil => exact .pure a
  | cons part parts ih =>
    obtain ⟨hp, hps⟩ := List.forall_mem_cons.mp h
    rw [← List.singleton_append, ← List.append_assoc] at hl
    have hlp : ((low ++ [part]).map length).sum < wordSize := by
      rw [List.map_append, List.sum_append] at hl
      omega
    refine .bind (ha.faultless_concat hp.joins_self hlp) (ha.concat hp.joins_self) ?_
    intro s hs
    exact ih hs hps hl

theorem faultless_concatAll (h : ∀ part ∈ parts, part.WellFormed hashing)
    (hl : (parts.map length).sum < wordSize) :
    Faultless (guardedConcatAll parts) (concatAll parts) := by
  induction parts using concatAll.induct with
  | case1 =>
    rw [Sequence.concatAll, guardedConcatAll]
    exact .lift _
  | case2 part =>
    rw [Sequence.concatAll, guardedConcatAll]
    exact .pure part
  | case3 first second rest ihl ihh =>
    rw [Sequence.concatAll, guardedConcatAll]
    generalize first :: second :: rest = parts at *
    have hlow : ∀ part ∈ parts.take (parts.length / 2), part.WellFormed hashing :=
      fun part hp => h part (List.mem_of_mem_take hp)
    have hhigh : ∀ part ∈ parts.drop (parts.length / 2), part.WellFormed hashing :=
      fun part hp => h part (List.mem_of_mem_drop hp)
    rw [← List.take_append_drop (parts.length / 2) parts] at hl
    have hsum := hl
    rw [List.map_append, List.sum_append] at hsum
    refine .bind (ihl hlow (by omega)) (joins_concatAll hlow) ?_
    intro low hlj
    refine .bind (ihh hhigh (by omega)) (joins_concatAll hhigh) ?_
    intro high hhj
    exact hlj.faultless_concat hhj hl

theorem Reduction.faultless {guarded : GuardedM (Sequence α)} {make : StoreM (Sequence α)}
    (hr : Reduction parts guarded make) (h : ∀ part ∈ parts, part.WellFormed hashing)
    (hl : (parts.map length).sum < wordSize) : Faultless guarded make := by
  cases hr with
  | halves => exact faultless_concatAll h hl
  | fromEmpty => exact .bind (.lift empty) yields_empty fun s hs => hs.faultless_appendAll h hl
  | fromFirst hg hm =>
    cases parts with
    | nil => cases hm
    | cons first rest =>
      cases hg
      cases hm
      obtain ⟨hf, hrs⟩ := List.forall_mem_cons.mp h
      exact hf.joins_self.faultless_appendAll hrs hl

theorem Reduction.operation {guarded : GuardedM (Sequence α)} {make : StoreM (Sequence α)}
    {made : List (Sequence α)} (hr : Reduction parts guarded make)
    (h : ∀ part ∈ parts, part ∈ made) : Operation hashing made make := by
  cases hr with
  | halves => exact .concatAll h
  | fromEmpty => exact .combineAll h
  | fromFirst hg hm => exact .reduceAll h hm

omit [BEq α] in
theorem reduceAll_eq_none_iff : reduceAll parts = none ↔ parts = [] := by
  cases parts with
  | nil => exact ⟨fun _ => rfl, fun _ => rfl⟩
  | cons first rest => exact ⟨nofun, nofun⟩

end Sequence

variable [BEq α] {hashing : Option (ElementHash α)} {store : Store} {made parts : List (Sequence α)}

/-- In a run, every reduction of a list of parts gives the elements of the parts in order, without a
fault where they are a word of elements, and it gives a part that is alone among empty ones as it
is. Two reductions give sequences with one hash, which equal each other where elements equal
themselves. -/
theorem Run.reductions_agree (h : Run hashing store made) (hp : ∀ part ∈ parts, part ∈ made) :
    (reduceAll parts = none ↔ parts = []) ∧
      (∀ guarded make, Reduction parts guarded make →
        ((parts.map length).sum < wordSize → Faultless guarded make) ∧
          ∃ s now, make.run store = (s, now) ∧ s.toList = parts.flatMap toList ∧
            s.length = (parts.map length).sum ∧
            ∀ part, inhabited parts = [part] → s = part) ∧
      ∀ guarded make guarded' make', Reduction parts guarded make →
        Reduction parts guarded' make' →
        ∃ a b now, (do return (← make, ← make')).run store = ((a, b), now) ∧
          a.toList = b.toList ∧ ∀ hash : ElementHash α, hash ∈ hashing →
            (a.hashCode.run now).1 = (b.hashCode.run now).1 ∧
              (ReflBEq α → ((a.equals b).run now).1 = true) := by
  have hw : ∀ part ∈ parts, part.WellFormed hashing :=
    fun part hm => Reachable.wellFormed ⟨_, _, h, hp part hm⟩
  refine ⟨reduceAll_eq_none_iff, ?_, ?_⟩
  · intro guarded make hr
    have hj : Joins hashing parts (make.run store).1 := hr.joins hw store
    exact ⟨hr.faultless hw, _, _, rfl, hj.toList_eq, hj.length_eq, hj.only⟩
  · intro guarded make guarded' make' hr hr'
    have ha : Joins hashing parts (make.run store).1 := hr.joins hw store
    have hb : Joins hashing parts (make'.run (make.run store).2).1 := hr'.joins hw _
    have h₁ := h.make (hr.operation hp)
    have h₂ := h₁.make (hr'.operation fun part hm => .tail _ (hp part hm))
    obtain ⟨owners, hco, hs⟩ := h₂.sound
    refine ⟨_, _, _, rfl, ha.toList_eq.trans hb.toList_eq.symm, ?_⟩
    intro hash hh
    exact Sound.hash_and_equality hh (hs _ (.tail _ (.head _))) (hs _ (.head _))
      (ha.toList_eq.trans hb.toList_eq.symm) hco

/-- Three links of views by halving and from the left, and one of them alone among empty parts. -/
theorem reductions_agree_mixed : ∃ store cell a b now alone now',
    (do return (← concatAll [mixed, mixed, mixed], ← combineAll [mixed, mixed, mixed])).run store =
        ((a, b), now) ∧
      a.toList = b.toList ∧ ((@equals _ _ parity a b).run now).1 = true ∧
      Faultless (guardedConcatAll [nil cell, mixed, nil cell])
        (concatAll [nil cell, mixed, nil cell]) ∧
      (concatAll [nil cell, mixed, nil cell]).run store = (alone, now') ∧ alone = mixed := by
  obtain ⟨before, made, hr, hm⟩ := reachable_mixed
  obtain ⟨cell, store, hc⟩ : ∃ cell store, (empty : StoreM (Sequence Nat)).run before =
      (nil cell, store) := ⟨_, _, rfl⟩
  have h : Run (some parity) store (nil cell :: made) := hr.step .empty hc
  have hthree : ∀ part ∈ [mixed, mixed, mixed], part ∈ nil cell :: made := by
    simp [hm]
  have hone : ∀ part ∈ [nil cell, mixed, nil cell], part ∈ nil cell :: made := by
    simp [hm]
  have hshort : ([nil cell, mixed, nil cell].map length).sum < wordSize := by
    simp [mixed, length, wordSize]
  obtain ⟨-, -, ht⟩ := h.reductions_agree hthree
  obtain ⟨a, b, now, hab, he, hh⟩ := ht _ _ _ _ .halves .fromEmpty
  obtain ⟨-, ho, -⟩ := h.reductions_agree hone
  obtain ⟨hf, alone, now', hrun, -, -, hpart⟩ := ho _ _ .halves
  exact ⟨store, cell, a, b, now, alone, now', hab, he,
    (hh parity (Option.mem_some_self parity)).2 inferInstance, hf hshort, hrun,
    hpart mixed rfl⟩

end SharedSequence
