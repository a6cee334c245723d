import SharedSequence.Proofs.Uniformity

namespace SharedSequence

open Sequence

variable {α : Type} [BEq α]

namespace Sequence

def AllEqual (s : Sequence α) : Prop :=
  ∀ i j x y, s.get? i = some x → s.get? j = some y → (x == y) = true

def IsNil : Sequence α → Prop
  | nil _ => True
  | _ => False

def IsRun : Sequence α → Prop
  | run _ _ _ => True
  | _ => False

def IsFlat : Sequence α → Prop
  | flat _ _ _ _ => True
  | _ => False

/-- What a compaction gives, by the elements and the request. -/
inductive CompactsTo (hash : ElementHash α) (s : Sequence α) (withIndex : Bool) :
    Sequence α → Prop where
  | nil (cell : Cell) (h : s.length = 0) : CompactsTo hash s withIndex (nil cell)
  | run (cell : Cell) {value : α} (hs : 0 < s.length) (hu : s.isUniform = true)
      (hv : s.get? 0 = some value) : CompactsTo hash s withIndex (run cell value s.length)
  | flat (cell : Cell) {items : Array α} {start : Nat} (hs : 0 < s.length)
      (hu : s.isUniform = false) (hf : ¬(withIndex = true ∨ s.IsIndexLeaf))
      (hl : (items.toList.drop start).take s.length = s.toList) :
      CompactsTo hash s withIndex (flat cell items start s.length)
  | indexed (cell : Cell) (hs : 0 < s.length) (hu : s.isUniform = false)
      (hf : withIndex = true ∨ s.IsIndexLeaf) : CompactsTo hash s withIndex
        (indexed cell s.toList.toArray (.ofHashes (s.toList.map hash.hash32)) hash.hash32)

section

variable {hash : ElementHash α} {hashing : Option (ElementHash α)} {s t c : Sequence α}
  {withIndex : Bool}

theorem WellFormed.get?_zero (h : s.WellFormed hashing) (hs : 0 < s.length) :
    ∃ value, s.get? 0 = some value := by
  rw [← h.length_toList] at hs
  exact ⟨_, (h.get?_eq 0).trans (List.getElem?_eq_getElem hs)⟩

theorem commonValue?_eq_some {value : α} (hv : s.commonValue? = some value) :
    s.isUniform = true ∧ s.get? 0 = some value := by
  unfold commonValue? at hv
  split at hv
  · exact ⟨‹_›, hv⟩
  · cases hv

theorem WellFormed.commonValue?_eq_none (h : s.WellFormed hashing) (hs : 0 < s.length)
    (hv : s.commonValue? = none) : s.isUniform = false := by
  obtain ⟨value, he⟩ := h.get?_zero hs
  rw [commonValue?, he] at hv
  cases hu : s.isUniform with
  | true =>
    rw [hu] at hv
    cases hv
  | false => rfl

theorem CompactsTo.yields_run {value : α} (hs : 0 < s.length) (hv : s.commonValue? = some value) :
    Yields (replicate s.length value) (CompactsTo hash s withIndex) := by
  obtain ⟨hu, he⟩ := commonValue?_eq_some hv
  rw [replicate, if_neg (Nat.ne_of_gt hs)]
  exact .bind_any fun cell => .pure (.run cell hs hu he)

theorem CompactsTo.length_eq (hc : CompactsTo hash s withIndex c) (h : s.WellFormed hashing) :
    c.length = s.length := by
  cases hc with
  | nil cell h0 => exact h0.symm
  | run | flat => rfl
  | indexed => rw [length, List.size_toArray, h.length_toList]

/-- The table depends on the elements alone. -/
theorem CompactsTo.hashIndex?_eq (hc : CompactsTo hash s true c) (h : s.WellFormed hashing) :
    c.hashIndex? =
      if s.isUniform then none else some (.ofHashes (s.toList.map hash.hash32)) := by
  cases hc with
  | nil cell h0 =>
    obtain ⟨cell, rfl⟩ := h.length_eq_zero_iff.mp h0
    rfl
  | run cell hs hu hv =>
    rw [if_pos hu]
    rfl
  | flat cell hs hu hf => exact absurd (.inl rfl) hf
  | indexed cell hs hu hf =>
    rw [hu]
    rfl

theorem CompactsTo.isIndexed (hc : CompactsTo hash s true c) : c.isIndexed = true := by
  cases hc with
  | nil | run | indexed => rfl
  | flat cell hs hu hf => exact absurd (.inl rfl) hf

theorem flatten_flat {cell : Cell} {items : Array α} {start count : Nat}
    (hu : (flat cell items start count).isUniform = false) :
    (flat cell items start count).flatten = return ⟨flat cell items start count, []⟩ := by
  rw [flatten, commonValue?, hu]
  rfl

section

variable [EquivBEq α]

theorem WellFormed.isUniform_iff_toList (h : s.WellFormed hashing) :
    s.isUniform = true ↔ ∀ x ∈ s.toList, ∀ y ∈ s.toList, (x == y) = true := by
  rw [h.isUniform_iff_or, or_iff_left s.not_isUnequalRun, h.equalsFirst_iff]

theorem WellFormed.isUniform_iff (h : s.WellFormed hashing) :
    s.isUniform = true ↔ s.AllEqual := by
  simp only [h.isUniform_iff_toList, List.mem_iff_getElem?, AllEqual, h.get?_eq]
  constructor
  · intro hall i j x y hx hy
    exact hall x ⟨i, hx⟩ y ⟨j, hy⟩
  · rintro hall x ⟨i, hx⟩ y ⟨j, hy⟩
    exact hall i j x y hx hy

theorem WellFormed.isUniform_of_beq (hs : s.WellFormed hashing) (ht : t.WellFormed hashing)
    (h : (s.toList == t.toList) = true) (hu : s.isUniform = true) : t.isUniform = true := by
  obtain ⟨hl, hi⟩ := list_beq_iff.mp h
  apply ht.isUniform_iff.mpr
  intro i j x y hx hy
  rw [ht.get?_eq] at hx hy
  have hxl : i < s.toList.length := hl ▸ (List.getElem?_eq_some_iff.mp hx).1
  have hyl : j < s.toList.length := hl ▸ (List.getElem?_eq_some_iff.mp hy).1
  have hsx := List.getElem?_eq_getElem hxl
  have hsy := List.getElem?_eq_getElem hyl
  have hxy := hs.isUniform_iff_toList.mp hu _ (List.getElem_mem hxl) _ (List.getElem_mem hyl)
  exact BEq.trans (BEq.trans (BEq.symm (hi i _ x hsx hx)) hxy) (hi j _ y hsy hy)

theorem WellFormed.isUniform_congr (hs : s.WellFormed hashing) (ht : t.WellFormed hashing)
    (h : (s.toList == t.toList) = true) : s.isUniform = t.isUniform := by
  rw [Bool.eq_iff_iff]
  exact ⟨hs.isUniform_of_beq ht h, ht.isUniform_of_beq hs (BEq.symm h)⟩

theorem WellFormed.isUniform_indexed {cell : Cell} {items : Array α} {index : HashIndex}
    {hasher : α → UInt32} (h : (indexed cell items index hasher).WellFormed hashing) :
    (indexed cell items index hasher).isUniform = false := by
  obtain ⟨⟨x, hx, y, hy, hxy⟩, -⟩ := wellFormed_indexed.mp h
  apply Bool.eq_false_iff.mpr
  intro hu
  rw [h.isUniform_iff_toList.mp hu x hx.val y hy.val] at hxy
  cases hxy

theorem WellFormed.compactsTo_self (h : s.WellFormed (some hash)) (hi : s.isIndexed = true)
    (hc : s.isCompact = true) : CompactsTo hash s withIndex s := by
  cases s with
  | flat => cases hi
  | window | reversed | link => cases hc
  | nil cell => exact .nil cell rfl
  | run cell value count =>
    have hs : 0 < count := wellFormed_run.mp h
    exact .run cell hs rfl (if_pos hs)
  | indexed cell items index hasher =>
    obtain ⟨hv, rfl, _, ⟨⟩, rfl⟩ := wellFormed_indexed.mp h
    exact .indexed cell hv.size_pos h.isUniform_indexed (.inr trivial)

theorem WellFormed.flatten_to (h : s.WellFormed (some hash)) :
    Yields s.flatten fun done => CompactsTo hash s false done.result := by
  apply yields_flatten (CompactsTo hash s false)
  case settled => exact fun hc hi => h.compactsTo_self hi hc
  case varied =>
    intro hc hi hv
    cases s with
    | nil | run | indexed => cases hi
    | window | reversed | link => cases hc
    | flat cell items start count =>
      have hs : 0 < count := (wellFormed_flat.mp h).1
      exact .flat cell hs (h.commonValue?_eq_none hs hv) (by simp [IsIndexLeaf]) rfl
  case common => exact fun hn _ hv => CompactsTo.yields_run (h.length_pos hn) hv
  case copied =>
    intro hn hc hv cell
    have hf : ¬(false = true ∨ s.IsIndexLeaf) := by
      cases s with
      | indexed => cases hc
      | nil | run | flat | window | reversed | link => simp [IsIndexLeaf]
    exact .flat cell (h.length_pos hn) (h.commonValue?_eq_none (h.length_pos hn) hv) hf
      (h.toList_copied cell)

theorem WellFormed.index_to (h : s.WellFormed (some hash)) :
    Yields s.index fun done => CompactsTo hash s true done.result := by
  apply yields_index (CompactsTo hash s true)
  case settled => exact fun hc hi => h.compactsTo_self hi hc
  case common => exact fun hn _ hv => CompactsTo.yields_run (h.length_pos hn) hv
  case tabulated =>
    intro hn hv cell
    rw [h.sharedItems_eq]
    exact .indexed cell (h.length_pos hn) (h.commonValue?_eq_none (h.length_pos hn) hv) (.inl rfl)

theorem WellFormed.compact_to (h : s.WellFormed (some hash)) :
    Yields (s.compact withIndex) (CompactsTo hash s withIndex) := by
  cases withIndex with
  | false => exact h.flatten_to.bind fun done hd => .pure hd
  | true => exact h.index_to.bind fun done hd => .pure hd

theorem CompactsTo.toList_beq (hc : CompactsTo hash s withIndex c) (h : s.WellFormed hashing) :
    (c.toList == s.toList) = true := by
  cases hc with
  | nil cell h0 =>
    rw [← h.length_toList, List.length_eq_zero_iff] at h0
    rw [h0]
    rfl
  | run cell hs hu hv =>
    apply list_beq_iff.mpr
    apply And.intro ((List.length_replicate ..).trans h.length_toList.symm)
    intro i x y hx hy
    rw [List.eq_of_mem_replicate (List.mem_of_getElem? hx)]
    rw [h.get?_eq] at hv
    exact h.isUniform_iff_toList.mp hu _ (List.mem_of_getElem? hv) _ (List.mem_of_getElem? hy)
  | flat cell hs hu hf hl => rw [toList, hl, BEq.rfl]
  | indexed => exact BEq.rfl

theorem CompactsTo.kind (hc : CompactsTo hash s withIndex c) (h : s.WellFormed hashing) :
    (c.IsNil ↔ s.length = 0) ∧ (c.IsRun ↔ 0 < s.length ∧ s.AllEqual) ∧
      (c.IsIndexLeaf ↔ ¬s.AllEqual ∧ (withIndex = true ∨ s.IsIndexLeaf)) ∧
      (c.IsFlat ↔ ¬s.AllEqual ∧ ¬(withIndex = true ∨ s.IsIndexLeaf)) := by
  rw [← h.isUniform_iff]
  cases hc with
  | nil cell h0 =>
    obtain ⟨cell, rfl⟩ := h.length_eq_zero_iff.mp h0
    simp [IsNil, IsRun, IsIndexLeaf, IsFlat, isUniform, length]
  | run cell hs hu hv =>
    change (False ↔ _) ∧ (True ↔ _) ∧ (False ↔ _) ∧ (False ↔ _)
    simp [hu, hs, Nat.ne_of_gt hs]
  | flat cell hs hu hf hl =>
    change (False ↔ _) ∧ (False ↔ _) ∧ (False ↔ _) ∧ (True ↔ _)
    simp only [hu, Nat.ne_of_gt hs, hf]
    simp
  | indexed cell hs hu hf =>
    change (False ↔ _) ∧ (False ↔ _) ∧ (True ↔ _) ∧ (False ↔ _)
    simp only [hu, Nat.ne_of_gt hs, hf]
    simp

/-- A compacted sequence is not compacted further, with no more asked for than before. -/
theorem CompactsTo.compact_eq (hc : CompactsTo hash s withIndex c) (h : s.WellFormed hashing)
    (hw : c.WellFormed hashing) {again : Bool} (ha : again = true → withIndex = true)
    (store : Store) : (c.compact again).run store = (c, store) := by
  have hb : (c.toList == s.toList) = true := hc.toList_beq h
  cases hc with
  | nil | run | indexed => cases again <;> rfl
  | flat cell hs hu hf hl =>
    cases again with
    | true => exact absurd (.inl (ha rfl)) hf
    | false =>
      have hcu := (hw.isUniform_congr h hb).trans hu
      rw [compact, compactTraced, if_neg Bool.false_ne_true, flatten_flat hcu]
      rfl

end

end

end Sequence

variable [EquivBEq α] {hash : ElementHash α} {store : Store} {made : List (Sequence α)}
  {s : Sequence α}

/-- Over elements with lawful equality and hash, a compaction of any sequence of a run gives a leaf
with its length, elements, hash and value. The kind of the leaf, and the table where one was asked
for, depend on the elements alone, but for a table that the sequence already had. To compact the
leaf again changes nothing. -/
theorem Run.compact_canonical (hh : HashAgrees (some hash)) (h : Run (some hash) store made)
    (hs : s ∈ made) (withIndex : Bool) :
    ∃ c now, (s.compact withIndex).run store = (c, now) ∧
      (c.length = s.length ∧ c.Matches s ∧ (c.hashCode.run now).1 = (s.hashCode.run store).1 ∧
        ((c.equals s).run now).1 = true) ∧
      ((c.IsNil ↔ s.length = 0) ∧ (c.IsRun ↔ 0 < s.length ∧ s.AllEqual) ∧
        (c.IsIndexLeaf ↔ ¬s.AllEqual ∧ (withIndex = true ∨ s.IsIndexLeaf)) ∧
        (c.IsFlat ↔ ¬s.AllEqual ∧ ¬(withIndex = true ∨ s.IsIndexLeaf))) ∧
      (withIndex = true → c.isIndexed = true) ∧
      (∀ t, Reachable (some hash) t → s.Matches t → ∀ before before',
        ((s.compact true).run before).1.hashIndex? =
          ((t.compact true).run before').1.hashIndex?) ∧
      (∀ later, (c.compact withIndex).run later = (c, later)) ∧
      (withIndex = true → ∀ later, (c.compact false).run later = (c, later)) := by
  have hw : s.WellFormed (some hash) := Reachable.wellFormed ⟨_, _, h, hs⟩
  have go := h.make (.compact (Option.mem_some_self hash) hs withIndex)
  have hc : CompactsTo hash s withIndex ((s.compact withIndex).run store).1 := hw.compact_to store
  have hcw : ((s.compact withIndex).run store).1.WellFormed (some hash) :=
    Reachable.wellFormed ⟨_, _, go, .head _⟩
  generalize (s.compact withIndex).run store = done at go hc hcw ⊢
  obtain ⟨c, now⟩ := done
  have hb : (c.toList == s.toList) = true := hc.toList_beq hw
  refine ⟨c, now, rfl, ⟨hc.length_eq hw, (hcw.matches_iff hw).mpr hb, ?_, ?_⟩, hc.kind hw, ?_, ?_,
    ?_, ?_⟩
  · rw [go.hashCode_eq (.head _) c.mem_nodes_self, h.hashCode_eq hs s.mem_nodes_self]
    exact hashOf_eq_of_beq hh hb
  · obtain ⟨owners, hco, hsound⟩ := go.sound
    obtain ⟨-, -, -, he⟩ := (hsound _ (.head _)).equals_eq hh (hsound _ (.tail _ hs)) _ hco
    exact he.trans hb
  · rintro rfl
    exact hc.isIndexed
  · intro t ht hm before before'
    have hwt := ht.wellFormed
    have hbt := (hw.matches_iff hwt).mp hm
    rw [(hw.compact_to before).hashIndex?_eq hw, (hwt.compact_to before').hashIndex?_eq hwt,
      hw.isUniform_congr hwt hbt, map_hash32_eq_of_beq hh hbt]
  · exact hc.compact_eq hw hcw id
  · rintro rfl
    exact hc.compact_eq hw hcw nofun

theorem compact_canonical_pairs :
    ∃ c now, (ElementType.linkOfTwo.compact true).run ⟨#[0, 0, 0, 0]⟩ = (c, now) ∧
      c.Matches ElementType.linkOfTwo ∧ c.IsIndexLeaf ∧
      c.hashIndex? = ((ElementType.leafOfTwo.compact true).run {}).1.hashIndex? ∧
      (c.compact false).run now = (c, now) := by
  have : EquivBEq ElementType.residues.Element := ElementType.lawful_residues.equiv
  have hleaf : Reachable (some ElementType.residues.hash) ElementType.leafOfTwo :=
    ⟨_, _, ElementType.run_pairs, ElementType.leafElement.2⟩
  have hlink : Reachable (some ElementType.residues.hash) ElementType.linkOfTwo :=
    ⟨_, _, ElementType.run_pairs, .head _⟩
  have hm : ElementType.linkOfTwo.Matches ElementType.leafOfTwo :=
    (hlink.wellFormed.matches_iff hleaf.wellFormed).mpr rfl
  have hd : ¬ElementType.linkOfTwo.AllEqual := fun h => absurd (h 0 1 ⟨1⟩ ⟨4⟩ rfl rfl) nofun
  obtain ⟨c, now, hc, ⟨-, hcm, -, -⟩, ⟨-, -, hk, -⟩, -, ht, -, ha⟩ :=
    ElementType.run_pairs.compact_canonical ElementType.lawful_residues.hash_eq (.head _) true
  have hi := ht _ hleaf hm ⟨#[0, 0, 0, 0]⟩ {}
  rw [hc] at hi
  exact ⟨c, now, hc, hcm, hk.mpr ⟨hd, .inl rfl⟩, hi, ha rfl now⟩

end SharedSequence
