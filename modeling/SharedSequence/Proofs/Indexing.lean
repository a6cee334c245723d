import SharedSequence.Proofs.Canonical
import SharedSequence.Proofs.Cuts

namespace SharedSequence

namespace Sequence

variable {α : Type}

theorem passedOn_not_isFlat : PassedOn fun node : Sequence α => ¬ node.IsFlat where
  nil _ := id
  run _ _ _ := id
  window _ _ _ _ := id
  link _ _ _ _ _ := id
  flat h := absurd trivial h
  reversed _ := id

theorem isIndexed_iff (s : Sequence α) :
    s.isIndexed = true ↔ s.Everywhere fun node => ¬ node.IsFlat := by
  induction s with
  | nil => exact iff_of_true rfl (everywhere_nil.mpr id)
  | run => exact iff_of_true rfl (everywhere_run.mpr id)
  | flat => exact iff_of_false nofun fun h => everywhere_flat.mp h trivial
  | indexed => exact iff_of_true rfl (everywhere_indexed.mpr id)
  | window cell base start count ih => exact ih.trans (by simp [IsFlat])
  | reversed cell base ih => exact ih.trans (by simp [IsFlat])
  | link cell left right bias count ihl ihr =>
    rw [isIndexed, Bool.and_eq_true, ihl, ihr, everywhere_link]
    exact (and_iff_right id).symm

theorem isIndexed_replicate (count : Nat) (value : α) :
    Yields (replicate count value) fun s => s.isIndexed = true :=
  (passedOn_not_isFlat.everywhere_replicate count value).mono fun s hs => s.isIndexed_iff.mpr hs

theorem isIndexed_reverse (s : Sequence α) :
    Yields s.reverse fun t => t.isIndexed = s.isIndexed := by
  unfold reverse
  split
  · exact .pure rfl
  · cases s with
    | run | reversed => exact .pure rfl
    | nil | flat | indexed | window | link => exact .bind_any fun cell => .pure rfl

variable [BEq α] {hashing : Option (ElementHash α)} {a b s : Sequence α}

theorem isIndexed_index [ElementHash α] (s : Sequence α) :
    Yields s.index fun done => done.result.isIndexed = true := by
  apply yields_index fun t => t.isIndexed = true
  case settled => exact fun _ hi => hi
  case common => exact fun _ value _ => isIndexed_replicate s.length value
  case tabulated => exact fun _ _ _ => rfl

/-- Whatever the join rotates, its leaves are those of the operands. -/
theorem WellFormed.isIndexed_concat (ha : a.WellFormed hashing) (hb : b.WellFormed hashing) :
    Yields (a.concat b) fun t => t.isIndexed = (a.isIndexed && b.isIndexed) := by
  refine (passedOn_not_isFlat.everywhere_concat ha hb).mono ?_
  intro t ht
  rw [Bool.eq_iff_iff, Bool.and_eq_true, isIndexed_iff, isIndexed_iff, isIndexed_iff]
  exact ht

theorem WellFormed.isIndexed_cut (h : s.WellFormed hashing) (hi : s.isIndexed = true)
    {offset length : Nat} (hw : offset + length ≤ s.length) :
    Yields (s.cut offset length) fun t => t.isIndexed = true :=
  (passedOn_not_isFlat.everywhere_cut h (s.isIndexed_iff.mp hi) hw).mono fun t ht =>
    t.isIndexed_iff.mpr ht

theorem keptIf_indexed : KeptIf hashing (fun s => s.isIndexed = true) fun s : Sequence α =>
    s.WellFormed hashing ∧ s.isIndexed = true where
  empty _ := ⟨wellFormed_nil, rfl⟩
  run _ _ _ hc := ⟨wellFormed_run.mpr hc, rfl⟩
  buffer _ _ _ hk := nomatch hk
  concat ha hb := (ha.1.concat hb.1).and <| (ha.1.isIndexed_concat hb.1).mono fun t ht => by
    rw [ht, ha.2, hb.2, Bool.and_true]
  cut h hw := (h.1.cut hw).and (h.1.isIndexed_cut h.2 hw)
  reverse h := h.1.reverse.and ((isIndexed_reverse _).mono fun _ ht => ht.trans h.2)
  flatten h := h.1.flatten.mono fun _ hd hk => ⟨hd, hk⟩
  index hh h := (h.1.index hh).mono fun _ hd hk => ⟨hd, hk⟩

theorem WellFormed.compact_indexed {hash : ElementHash α} (h : s.WellFormed hashing)
    (hh : hash ∈ hashing) :
    Yields (s.compact true) fun t => t.WellFormed hashing ∧ t.isIndexed = true :=
  .bind ((h.index hh).and s.isIndexed_index) fun _ hd => .pure hd

/-- The sequences that concatenations, windows and reversals put together from runs and from indexed
compactions. -/
inductive Assembled (hashing : Option (ElementHash α)) : Sequence α → Prop where
  | replicate (count : Nat) (value : α) (store : Store) :
      Assembled hashing ((replicate count value).run store).1
  | compact {hash : ElementHash α} {s : Sequence α} (hh : hash ∈ hashing)
      (h : Reachable hashing s) (store : Store) :
      Assembled hashing ((s.compact true).run store).1
  | concat {a b : Sequence α} (ha : Assembled hashing a) (hb : Assembled hashing b)
      (store : Store) : Assembled hashing ((a.concat b).run store).1
  | concatAll {parts : List (Sequence α)} (h : ∀ part ∈ parts, Assembled hashing part)
      (store : Store) : Assembled hashing ((concatAll parts).run store).1
  | window {s : Sequence α} {make : StoreM (Sequence α)} (h : Assembled hashing s)
      (hm : s.Grants make) (store : Store) : Assembled hashing (make.run store).1
  | reverse {s : Sequence α} (h : Assembled hashing s) (store : Store) :
      Assembled hashing (s.reverse.run store).1

theorem Assembled.indexed (h : Assembled hashing s) :
    s.WellFormed hashing ∧ s.isIndexed = true := by
  induction h with
  | replicate count value store => exact keptIf_indexed.replicate count value store
  | compact hh h store => exact h.wellFormed.compact_indexed hh store
  | concat _ _ store iha ihb => exact keptIf_indexed.concat iha ihb store
  | concatAll _ store ih => exact keptIf_indexed.concatAll ih store
  | window _ hm store ih =>
    obtain ⟨offset, length, hw, rfl⟩ := hm.eq_cut
    exact keptIf_indexed.cut ih hw store
  | reverse _ store ih => exact keptIf_indexed.reverse ih store

end Sequence

open Sequence

variable {α : Type} [BEq α] {hashing : Option (ElementHash α)} {a b : Sequence α}

/-- A concatenation of reachable sequences is indexed exactly where both are, a reversal exactly
where the sequence is, and the windows of an indexed sequence are indexed. So everything that is put
together from runs and indexed compactions is indexed: it has no flat leaf. -/
theorem Reachable.stays_indexed (ha : Reachable hashing a) (hb : Reachable hashing b) :
    Yields (a.concat b) (fun t => t.isIndexed = (a.isIndexed && b.isIndexed)) ∧
      Yields a.reverse (fun t => t.isIndexed = a.isIndexed) ∧
      (a.isIndexed = true →
        ∀ make, a.Grants make → Yields make fun t => t.isIndexed = true) ∧
      (∀ s, Assembled hashing s → s.isIndexed = true) ∧
      ∀ s : Sequence α, s.isIndexed = true ↔ ∀ node ∈ s.nodes, ¬ node.IsFlat := by
  refine ⟨ha.wellFormed.isIndexed_concat hb.wellFormed, a.isIndexed_reverse, ?_,
    fun s hs => hs.indexed.2, isIndexed_iff⟩
  intro hi make hm
  obtain ⟨offset, length, hw, rfl⟩ := hm.eq_cut
  exact ha.wellFormed.isIndexed_cut hi hw

theorem stays_indexed_mixed :
    Yields (mixed.concat (.flat 0 #[5, 8] 0 2)) (fun t => t.isIndexed = false) ∧
      ∃ make, mixed.slice 1 3 = .ok make ∧
        Yields make fun t => t.isIndexed = true ∧ ∀ node ∈ t.nodes, ¬ node.IsFlat := by
  have hf : Reachable (some parity) (.flat 0 #[5, 8] 0 2) :=
    ⟨_, _, Run.start.step (.ofArray #[5, 8]) rfl, .head _⟩
  obtain ⟨hc, -, hw, -, hi⟩ := reachable_mixed.stays_indexed hf
  have hm : mixed.slice 1 3 = .ok (mixed.cut 1 3) := slice_eq_ok (by decide)
  exact ⟨hc, _, hm, (hw rfl _ (.slice hm)).mono fun t ht => ⟨ht, (hi t).mp ht⟩⟩

end SharedSequence
