import SharedSequence.Proofs.Postcondition
import SharedSequence.Sequence.Compact
import SharedSequence.Sequence.Equality
import SharedSequence.Sequence.Slice

namespace SharedSequence

open Sequence

variable {α : Type} [BEq α] {hashing : Option (ElementHash α)} {P : Sequence α → Prop}

/-- The operations that make a sequence out of those made before. Element types without a hash have
no compaction with an index. -/
inductive Operation (hashing : Option (ElementHash α)) (made : List (Sequence α)) :
    StoreM (Sequence α) → Prop where
  | empty : Operation hashing made Sequence.empty
  | replicate (count : Nat) (value : α) : Operation hashing made (replicate count value)
  | ofArray (items : Array α) : Operation hashing made (ofArray items)
  | ofBuffer (items : Array α) : Operation hashing made (ofBuffer items)
  | concat (ha : a ∈ made) (hb : b ∈ made) : Operation hashing made (a.concat b)
  | concatAll (h : ∀ part ∈ parts, part ∈ made) : Operation hashing made (concatAll parts)
  | combineAll (h : ∀ part ∈ parts, part ∈ made) : Operation hashing made (combineAll parts)
  | reduceAll (h : ∀ part ∈ parts, part ∈ made) (hm : reduceAll parts = some make) :
      Operation hashing made make
  | slice {offset length : Nat} (ha : a ∈ made) (hm : a.slice offset length = .ok make) :
      Operation hashing made make
  | reverse (ha : a ∈ made) : Operation hashing made a.reverse
  | compactFlat (ha : a ∈ made) : Operation hashing made a.compactFlat
  | compact {hash : ElementHash α} (hh : hash ∈ hashing) (ha : a ∈ made) (withIndex : Bool) :
      Operation hashing made (a.compact withIndex)

/-- The store and the sequences made so far, the latest first. -/
inductive Run (hashing : Option (ElementHash α)) : Store → List (Sequence α) → Prop where
  | start : Run hashing {} []
  | make (h : Run hashing store made) (hm : Operation hashing made make) :
      Run hashing (make.run store).2 ((make.run store).1 :: made)
  | hashCode {hash : ElementHash α} (h : Run hashing store made) (hh : hash ∈ hashing)
      (ha : a ∈ made) : Run hashing (a.hashCode.run store).2 made
  | equals {hash : ElementHash α} (h : Run hashing store made) (hh : hash ∈ hashing)
      (ha : a ∈ made) (hb : b ∈ made) : Run hashing ((a.equals b).run store).2 made

/-- Some run makes the sequence. -/
def Reachable (hashing : Option (ElementHash α)) (s : Sequence α) : Prop :=
  ∃ store made, Run hashing store made ∧ s ∈ made

theorem Run.step {made : List (Sequence α)} {make : StoreM (Sequence α)}
    (h : Run hashing store made) (hm : Operation hashing made make)
    (he : make.run store = (s, store')) : Run hashing store' (s :: made) := by
  have hs := h.make hm
  rwa [he] at hs

/-- Properties of sequences that all operations keep. -/
structure Kept (hashing : Option (ElementHash α)) (P : Sequence α → Prop) : Prop where
  empty (cell : Cell) : P (nil cell)
  run (cell : Cell) (value : α) {count : Nat} : 0 < count → P (run cell value count)
  buffer (cell : Cell) {items : Array α} : 0 < items.size → P (flat cell items 0 items.size)
  concat {a b : Sequence α} : P a → P b → Yields (a.concat b) P
  cut {s : Sequence α} {offset length : Nat} :
    P s → offset + length ≤ s.length → Yields (s.cut offset length) P
  reverse {s : Sequence α} : P s → Yields s.reverse P
  flatten {s : Sequence α} : P s → Yields s.flatten fun done => P done.result
  index {hash : ElementHash α} {s : Sequence α} :
    hash ∈ hashing → P s → Yields s.index fun done => P done.result

/-- Properties that all operations keep where the buffers and the compacted sequences that they make
are of a kind. -/
structure KeptIf (hashing : Option (ElementHash α)) (kind P : Sequence α → Prop) : Prop where
  empty (cell : Cell) : P (nil cell)
  run (cell : Cell) (value : α) {count : Nat} : 0 < count → P (run cell value count)
  buffer (cell : Cell) {items : Array α} :
    0 < items.size → kind (flat cell items 0 items.size) → P (flat cell items 0 items.size)
  concat {a b : Sequence α} : P a → P b → Yields (a.concat b) P
  cut {s : Sequence α} {offset length : Nat} :
    P s → offset + length ≤ s.length → Yields (s.cut offset length) P
  reverse {s : Sequence α} : P s → Yields s.reverse P
  flatten {s : Sequence α} : P s → Yields s.flatten fun done => kind done.result → P done.result
  index {hash : ElementHash α} {s : Sequence α} :
    hash ∈ hashing → P s → Yields s.index fun done => kind done.result → P done.result

namespace KeptIf

variable {kind : Sequence α → Prop}

theorem replicate (hP : KeptIf hashing kind P) (count : Nat) (value : α) :
    Yields (replicate count value) P := by
  unfold Sequence.replicate
  split
  · exact .bind_any fun cell => .pure (hP.empty cell)
  · exact .bind_any fun cell => .pure (hP.run cell value (by omega))

theorem ofBuffer (hP : KeptIf hashing kind P) (items : Array α) :
    Yields (ofBuffer items) fun s => kind s → P s := by
  unfold Sequence.ofBuffer
  split
  · exact .bind_any fun cell => .pure fun _ => hP.empty cell
  · exact .bind_any fun cell => .pure (hP.buffer cell (by simp_all [Array.size_pos_iff]))

theorem ofArray (hP : KeptIf hashing kind P) (items : Array α) :
    Yields (ofArray items) fun s => kind s → P s := by
  unfold Sequence.ofArray
  split
  · exact (hP.replicate 1 _).mono fun s hs _ => hs
  · exact hP.ofBuffer items

theorem appendAll (hP : KeptIf hashing kind P) {first : Sequence α} {parts : List (Sequence α)}
    (hf : P first) (h : ∀ part ∈ parts, P part) : Yields (appendAll first parts) P := by
  induction parts generalizing first with
  | nil => exact .pure hf
  | cons part parts ih =>
    obtain ⟨hp, hps⟩ := List.forall_mem_cons.mp h
    exact .bind (hP.concat hf hp) fun s hs => ih hs hps

theorem concatAll (hP : KeptIf hashing kind P) {parts : List (Sequence α)}
    (h : ∀ part ∈ parts, P part) : Yields (concatAll parts) P := by
  induction parts using concatAll.induct with
  | case1 =>
    rw [Sequence.concatAll]
    exact .bind_any fun cell => .pure (hP.empty cell)
  | case2 part =>
    rw [Sequence.concatAll]
    exact .pure (h part (by simp))
  | case3 first second rest ihl ihh =>
    rw [Sequence.concatAll]
    have hlow := ihl fun part hm => h part (List.mem_of_mem_take hm)
    have hhigh := ihh fun part hm => h part (List.mem_of_mem_drop hm)
    exact .bind hlow fun low hl => .bind hhigh fun high hh => hP.concat hl hh

theorem slice (hP : KeptIf hashing kind P) {s : Sequence α} {offset length : Nat} (hs : P s)
    (hm : s.slice offset length = .ok make) : Yields make P := by
  unfold Sequence.slice at hm
  split at hm
  · cases hm
    exact .pure hs
  · unfold checkWindow at hm
    split at hm
    · cases hm
      exact hP.cut hs ‹_›
    · cases hm

theorem operation (hP : KeptIf hashing kind P) {make : StoreM (Sequence α)}
    (hm : Operation hashing made make) (h : ∀ s ∈ made, P s) :
    Yields make fun s => kind s → P s := by
  have always {make : StoreM (Sequence α)} (hy : Yields make P) :
      Yields make fun s => kind s → P s :=
    hy.mono fun s hs _ => hs
  cases hm with
  | empty => exact always (.bind_any fun cell => .pure (hP.empty cell))
  | replicate count value => exact always (hP.replicate count value)
  | ofArray items => exact hP.ofArray items
  | ofBuffer items => exact hP.ofBuffer items
  | concat ha hb => exact always (hP.concat (h _ ha) (h _ hb))
  | concatAll hp => exact always (hP.concatAll fun part hm => h part (hp part hm))
  | @combineAll parts hp =>
    have hps := fun part hm => h part (hp part hm)
    exact always (.bind (P := P) (.bind_any fun cell => .pure (hP.empty cell))
      fun s hs => hP.appendAll hs hps)
  | @reduceAll parts _ hp hm =>
    cases parts with
    | nil => cases hm
    | cons first rest =>
      obtain ⟨hf, hr⟩ := List.forall_mem_cons.mp fun part hm => h part (hp part hm)
      cases hm
      exact always (hP.appendAll hf hr)
  | slice ha hm => exact always (hP.slice (h _ ha) hm)
  | reverse ha => exact always (hP.reverse (h _ ha))
  | compactFlat ha => exact .bind (hP.flatten (h _ ha)) fun done hd => .pure hd
  | compact hh ha withIndex =>
    cases withIndex with
    | false => exact .bind (hP.flatten (h _ ha)) fun done hd => .pure hd
    | true => exact .bind (hP.index hh (h _ ha)) fun done hd => .pure hd

theorem run_all (hP : KeptIf hashing kind P) (h : Run hashing store made)
    (hk : ∀ s ∈ made, kind s) : ∀ s ∈ made, P s := by
  induction h with
  | start => simp
  | make _ hm ih =>
    obtain ⟨hk, hks⟩ := List.forall_mem_cons.mp hk
    exact List.forall_mem_cons.mpr ⟨hP.operation hm (ih hks) _ hk, ih hks⟩
  | hashCode _ _ _ ih | equals _ _ _ _ ih => exact ih hk

end KeptIf

namespace Kept

theorem keptIf (hP : Kept hashing P) : KeptIf hashing (fun _ => True) P where
  empty := hP.empty
  run := hP.run
  buffer cell _ hs _ := hP.buffer cell hs
  concat := hP.concat
  cut := hP.cut
  reverse := hP.reverse
  flatten hs := (hP.flatten hs).mono fun _ hd _ => hd
  index hh hs := (hP.index hh hs).mono fun _ hd _ => hd

theorem run_all (hP : Kept hashing P) (h : Run hashing store made) : ∀ s ∈ made, P s :=
  hP.keptIf.run_all h fun _ _ => trivial

/-- A property that all operations keep holds of every sequence that a run makes. -/
theorem reachable (hP : Kept hashing P) {s : Sequence α} (h : Reachable hashing s) : P s := by
  obtain ⟨store, made, hr, hs⟩ := h
  exact hP.run_all hr s hs

end Kept

end SharedSequence
