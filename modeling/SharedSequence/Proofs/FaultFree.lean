import SharedSequence.Proofs.Compaction
import SharedSequence.Proofs.Cuts
import SharedSequence.Proofs.GuardedConcat
import SharedSequence.Proofs.GuardedCursor
import SharedSequence.Proofs.GuardedSearch

namespace SharedSequence

open Sequence

variable {α : Type} [BEq α] {hashing : Option (ElementHash α)}

namespace Sequence

/-- The length is a word, and every index stands over a buffer up to the limit. -/
def Admitted (s : Sequence α) : Prop :=
  s.length < wordSize ∧ ∀ node ∈ s.nodes, node.IsIndexLeaf → node.length ≤ indexLimit

section

variable {a b s t : Sequence α}

omit [BEq α] in
theorem passedOn_bufferFits : PassedOn fun s : Sequence α => s.BufferFits where
  nil _ := trivial
  run _ _ _ := trivial
  window _ _ _ _ := trivial
  link _ _ _ _ _ := trivial
  flat h := h
  reversed _ := trivial

omit [BEq α] in
theorem Everywhere.reverse_buffersFit (h : s.Everywhere BufferFits) :
    Yields s.reverse (Everywhere BufferFits) :=
  h.reverse fun _ => trivial

theorem WellFormed.flatten_buffersFit (hs : s.WellFormed hashing) (h : s.Everywhere BufferFits) :
    Yields s.flatten fun done => done.result.Admitted → done.result.Everywhere BufferFits := by
  apply yields_flatten fun t => t.Admitted → t.Everywhere BufferFits
  case settled => exact fun _ _ _ => h
  case varied => exact fun _ _ _ _ => h
  case common =>
    intro _ value _
    exact (passedOn_bufferFits.everywhere_replicate s.length value).mono fun t ht _ => ht
  case copied =>
    intro _ _ _ cell hk
    have hsize : s.toArray.size = s.length := by
      rw [hs.toArray_eq, List.size_toArray, hs.length_toList]
    exact everywhere_flat.mpr (hsize.trans_lt hk.1)

theorem Everywhere.index_buffersFit {hash : ElementHash α} (h : s.Everywhere BufferFits) :
    Yields s.index fun done => done.result.Admitted → done.result.Everywhere BufferFits := by
  apply yields_index fun t => t.Admitted → t.Everywhere BufferFits
  case settled => exact fun _ _ _ => h
  case common =>
    intro _ value _
    exact (passedOn_bufferFits.everywhere_replicate s.length value).mono fun t ht _ => ht
  case tabulated =>
    intro _ _ cell hk
    exact everywhere_indexed.mpr (hk.2 _ (mem_nodes_self _) trivial)

theorem keptIf_fits : KeptIf hashing Admitted fun s : Sequence α =>
    s.WellFormed hashing ∧ s.Everywhere BufferFits where
  empty _ := ⟨wellFormed_nil, everywhere_nil.mpr trivial⟩
  run _ _ _ hc := ⟨wellFormed_run.mpr hc, everywhere_run.mpr trivial⟩
  buffer _ _ hs hk :=
    ⟨wellFormed_flat.mpr ⟨hs, Nat.le_of_eq (Nat.zero_add _)⟩, everywhere_flat.mpr hk.1⟩
  concat ha hb := (ha.1.concat hb.1).and
    ((passedOn_bufferFits.everywhere_concat ha.1 hb.1).mono fun _ ht => ht.mpr ⟨ha.2, hb.2⟩)
  cut h hw := (h.1.cut hw).and (passedOn_bufferFits.everywhere_cut h.1 h.2 hw)
  reverse h := h.1.reverse.and h.2.reverse_buffersFit
  flatten h := (h.1.flatten.and (h.1.flatten_buffersFit h.2)).mono
    fun _ hd hk => ⟨hd.1, hd.2 hk⟩
  index hh h := ((h.1.index hh).and (h.2.index_buffersFit)).mono
    fun _ hd hk => ⟨hd.1, hd.2 hk⟩

/-- What is computed for the sequence on words is computed without a fault, and as on numbers. -/
structure FaultFree (s : Sequence α) : Prop where
  get (i : Nat) : s.guardedGet i = .ok (s.get? i)
  extract {σ : Type} (push : Collector σ α) {offset length : Nat}
    (hw : offset + length ≤ s.length) (direction : Direction) (state : σ) :
    s.guardedExtract push offset length direction state =
      .ok (s.extractWindow push offset length direction state)
  search (value : α) {offset length : Nat} (hw : offset + length ≤ s.length)
    (direction : Direction) : s.guardedFindWindow value offset length direction =
      .ok (s.findWindow value offset length direction)
  cut {offset length : Nat} (hw : offset + length ≤ s.length) :
    Faultless (s.guardedCut offset length) (s.cut offset length)
  script (skipping : Skipping) (script : List CursorMove) :
    Cursor.guardedPerformAll skipping script s.cursor =
      .ok (Cursor.performAll skipping script s.cursor)
  build (hl : s.length ≤ indexLimit) (hasher : α → UInt32) :
    HashIndex.guardedBuild s.sharedItems hasher = .ok (.build s.sharedItems hasher)
  bucket {cell : Cell} {items : Array α} {index : HashIndex} {hasher : α → UInt32}
    (hn : indexed cell items index hasher ∈ s.nodes) (hash : UInt32) :
    index.guardedBucket hash = .ok (index.bucket hash)
  lookup {cell : Cell} {items : Array α} {index : HashIndex} {hasher : α → UInt32}
    (hn : indexed cell items index hasher ∈ s.nodes) (hash : UInt32) (value : α)
    {offset length : Nat} (hw : offset + length ≤ items.size) (direction : Direction) :
    index.guardedFind items hash value offset length direction =
      .ok (index.find items hash value offset length direction)

/-- The same for computations with a second sequence: as a needle, and as the operand of a
concatenation whose length is a word. -/
structure FaultFreeWith (s t : Sequence α) : Prop where
  matchesAt {position : Nat} (hw : position + t.length ≤ s.length) :
    s.guardedMatchesAt t position = .ok (s.matchesAt t position)
  findSequence (offset : Nat) : s.guardedFindSequence t offset = .ok (s.findSequence t offset)
  concat (hl : s.length + t.length < wordSize) : Faultless (s.guardedConcat t) (s.concat t)

theorem Fits.index_of_mem {cell : Cell} {items : Array α} {index : HashIndex}
    {hasher : α → UInt32} (h : s.Fits hashing)
    (hn : Sequence.indexed cell items index hasher ∈ s.nodes) :
    items.size ≤ indexLimit ∧ index = .build items hasher :=
  ⟨h.buffers _ hn, (h.wellFormed _ hn).2.1⟩

theorem Fits.faultFree (h : s.Fits hashing) : s.FaultFree where
  get := h.guardedGet_eq
  extract push _ _ hw := h.guardedExtract_eq push hw
  search value _ _ hw := h.guardedFindWindow_eq value hw
  cut hw := h.faultless_cut hw
  script skipping script := by
    have hc : s.cursor.Within hashing := ⟨h, Nat.zero_le _, Nat.le_refl _⟩
    exact hc.guardedPerformAll_eq skipping script
  build hl hasher := by
    apply HashIndex.guardedBuild_eq
    rw [h.wellFormed.sharedItems_eq, List.size_toArray, h.wellFormed.length_toList]
    exact hl
  bucket hn hash := by
    obtain ⟨hs, rfl⟩ := h.index_of_mem hn
    apply HashIndex.guardedBucket_eq
    rw [List.length_map, Array.length_toList]
    exact hs
  lookup hn hash value _ _ hw direction := by
    obtain ⟨hs, rfl⟩ := h.index_of_mem hn
    exact HashIndex.guardedFind_eq _ _ hash value hs hw direction

theorem Fits.reverse (h : s.Fits hashing) : Yields s.reverse (Fits hashing) := by
  intro store
  have hw := h.wellFormed.reverse store
  have hl : (s.reverse.run store).1.length = s.length := by
    rw [← hw.length_toList, h.wellFormed.toList_reverse store, List.length_reverse,
      h.wellFormed.length_toList]
  exact ⟨hw, hl.trans_lt h.short, h.buffers.reverse_buffersFit store⟩

theorem Fits.faultFreeWith (hs : s.Fits hashing) (ht : t.Fits hashing) : s.FaultFreeWith t where
  matchesAt hw := hs.guardedMatchesFrom_eq ht hw
  findSequence := hs.guardedFindSequence_eq ht
  concat hl := hs.wellFormed.faultless_concat ht.wellFormed hl

end

end Sequence

variable {store : Store} {made : List (Sequence α)}

theorem Run.fits (h : Run hashing store made) (hk : ∀ s ∈ made, s.Admitted) :
    ∀ s ∈ made, s.Fits hashing := by
  intro s hs
  obtain ⟨hw, hb⟩ := keptIf_fits.run_all h hk s hs
  exact ⟨hw, (hk s hs).1, hb⟩

/-- In a run whose lengths are words and whose indexes stand over buffers up to the limit, nothing
that is computed for the sequences of the run and for their reversals ends in a fault; a reversal
itself computes no position. -/
theorem Run.fault_free (h : Run hashing store made) (hk : ∀ s ∈ made, s.Admitted) :
    ∀ s ∈ made, s.FaultFree ∧ Yields s.reverse FaultFree ∧ ∀ t ∈ made, s.FaultFreeWith t := by
  intro s hs
  have hf := h.fits hk
  exact ⟨(hf s hs).faultFree, (hf s hs).reverse.mono fun _ hr => hr.faultFree,
    fun t ht => (hf s hs).faultFreeWith (hf t ht)⟩

/-- A run that is as long as a sequence beside a leaf with an index can be. -/
def longRun : Sequence Nat :=
  .run 2 5 0xfffffffffffffffb

def longLink : Sequence Nat :=
  .link 3 longRun table .neutral 0xffffffffffffffff

theorem run_long : Run (some parity) ⟨#[0, 0, 0, 0]⟩
    [longLink, longRun, table, .flat 0 #[5, 8, 5, 7] 0 4] := by
  have h₁ : Run (some parity) ⟨#[0]⟩ [.flat 0 #[5, 8, 5, 7] 0 4] :=
    Run.start.step (.ofArray #[5, 8, 5, 7]) rfl
  have h₂ : Run (some parity) ⟨#[0, 0]⟩ [table, .flat 0 #[5, 8, 5, 7] 0 4] :=
    h₁.step (.compact (Option.mem_some_self parity) (.head _) true) rfl
  have h₃ : Run (some parity) ⟨#[0, 0, 0]⟩ [longRun, table, .flat 0 #[5, 8, 5, 7] 0 4] :=
    h₂.step (.replicate 0xfffffffffffffffb 5) rfl
  exact h₃.step (.concat (.head _) (.tail _ (.head _))) rfl

theorem admitted_long :
    ∀ s ∈ [longLink, longRun, table, .flat 0 #[5, 8, 5, 7] 0 4], s.Admitted := by
  simp [Admitted, longLink, longRun, table, nodes, IsIndexLeaf, length, wordSize, indexLimit]

/-- The longest sequence: a search and a script that go over all positions, a window that leaves out
both ends, and the table below the link. -/
theorem fault_free_long :
    longLink.length = wordSize - 1 ∧
      longLink.guardedFindWindow 8 0 longLink.length .forward =
        .ok (longLink.findWindow 8 0 longLink.length .forward) ∧
      Cursor.guardedPerformAll .jump [.nth (wordSize - 1), .back, .sizeHint] longLink.cursor =
        .ok (Cursor.performAll .jump [.nth (wordSize - 1), .back, .sizeHint] longLink.cursor) ∧
      Faultless (longLink.guardedCut 1 (wordSize - 3)) (longLink.cut 1 (wordSize - 3)) ∧
      longLink.guardedFindSequence table 0 = .ok (longLink.findSequence table 0) := by
  obtain ⟨hf, -, hw⟩ := run_long.fault_free admitted_long longLink (.head _)
  have hl : longLink.length = wordSize - 1 := rfl
  exact ⟨hl, hf.search 8 (Nat.le_of_eq (Nat.zero_add _)) .forward,
    hf.script .jump _, hf.cut (by decide), (hw table (.tail _ (.tail _ (.head _)))).findSequence 0⟩

end SharedSequence
