import Mathlib.Data.List.Induction
import SharedSequence.HashIndex
import SharedSequence.Proofs.Scan
import SharedSequence.Proofs.Slots

namespace SharedSequence

section

variable {α : Type} {q : α → Bool} {items : List α}

theorem takeWhile_eq_filter (h : items.Pairwise fun x y => q y → q x) :
    items.takeWhile q = items.filter q := by
  induction items with
  | nil => rfl
  | cons x rest ih =>
    obtain ⟨hx, hr⟩ := List.pairwise_cons.mp h
    by_cases hq : q x
    · rw [List.takeWhile_cons_of_pos hq, List.filter_cons_of_pos hq, ih hr]
    · rw [List.takeWhile_cons_of_neg hq, List.filter_cons_of_neg hq]
      exact (List.filter_eq_nil_iff.mpr fun y hy hqy => hq (hx y hy hqy)).symm

theorem dropWhile_eq_filter (h : items.Pairwise fun x y => q y → q x) :
    items.dropWhile q = items.filter (!q ·) := by
  induction items with
  | nil => rfl
  | cons x rest ih =>
    obtain ⟨hx, hr⟩ := List.pairwise_cons.mp h
    by_cases hq : q x
    · rw [List.dropWhile_cons_of_pos hq, List.filter_cons_of_neg (by simpa using hq), ih hr]
    · rw [List.dropWhile_cons_of_neg hq]
      refine (List.filter_eq_self.mpr fun y hy => ?_).symm
      rcases List.mem_cons.mp hy with rfl | hy
      · simpa using hq
      · simpa using fun hqy => hq (hx y hy hqy)

end

namespace HashIndex

variable {buckets : List Nat} {count b i k : Nat}

/-- The number of entries in the buckets before a bucket. -/
def before (buckets : List Nat) (b : Nat) : Nat :=
  buckets.countP (· < b)

theorem before_succ (buckets : List Nat) (b : Nat) :
    before buckets (b + 1) = before buckets b + buckets.count b := by
  induction buckets with
  | nil => rfl
  | cons bucket rest ih =>
    simp only [before, List.countP_cons, List.count_cons, beq_iff_eq, decide_eq_true_eq] at *
    split <;> split <;> split <;> omega

theorem before_mono {buckets : List Nat} (h : b ≤ k) : before buckets b ≤ before buckets k := by
  apply List.countP_mono_left
  intro bucket _ hb
  simp only [decide_eq_true_eq] at *
  omega

theorem getElem?_count_foldl (counts : Array Nat) :
    (buckets.foldl (fun counts bucket => counts.modify (bucket + 1) (· + 1)) counts)[i]? =
      counts[i]?.map (· + buckets.countP (· + 1 = i)) := by
  induction buckets generalizing counts with
  | nil => simp
  | cons bucket rest ih =>
    rw [List.foldl_cons, ih, Array.getElem?_modify, List.countP_cons]
    by_cases hi : bucket + 1 = i
    · simp only [hi, if_true, Option.map_map, decide_true]
      congr 1
      funext n
      simp only [Function.comp_apply]
      omega
    · simp [hi]

theorem getElem?_countBuckets (hi : i ≤ count) :
    (countBuckets buckets count)[i]? = some (buckets.countP (· + 1 = i)) := by
  rw [countBuckets, getElem?_count_foldl, Array.getElem?_replicate, if_pos (by omega)]
  simp

theorem sumCounts_succ (counts : Array Nat) (k : Nat) :
    sumCounts counts (k + 1) =
      (sumCounts counts k).modify (k + 1) (· + (sumCounts counts k).getD k 0) := by
  simp [sumCounts, List.range_succ]

theorem countP_add_one (buckets : List Nat) (k : Nat) :
    buckets.countP (· + 1 = k + 1) = buckets.count k := by
  rw [List.count]
  exact List.countP_congr fun bucket _ => by simp

/-- After `k` steps the places up to `k` are added up and the others still hold counts. -/
theorem getElem?_sumCounts (hk : k ≤ count) (hi : i ≤ count) :
    (sumCounts (countBuckets buckets count) k)[i]? =
      some (if i ≤ k then before buckets i else buckets.countP (· + 1 = i)) := by
  induction k generalizing i with
  | zero =>
    change (countBuckets buckets count)[i]? = _
    rw [getElem?_countBuckets hi]
    split
    · obtain rfl : i = 0 := by omega
      simp [before]
    · rfl
  | succ k ih =>
    have hstep := ih (by omega) hi
    rw [sumCounts_succ, Array.getElem?_modify, hstep]
    by_cases hki : k + 1 = i
    · subst hki
      have hk' : (sumCounts (countBuckets buckets count) k).getD k 0 = before buckets k := by
        rw [Array.getD_eq_getD_getElem?, ih (by omega) (by omega), if_pos (Nat.le_refl _)]
        rfl
      rw [if_pos rfl, if_neg (by omega), if_pos (Nat.le_refl _), hk', countP_add_one, before_succ,
        Nat.add_comm]
      rfl
    · rw [if_neg hki]
      congr 1
      split <;> split <;> first | rfl | omega

theorem size_sumCounts (counts : Array Nat) (k : Nat) :
    (sumCounts counts k).size = counts.size := by
  induction k with
  | zero => rfl
  | succ k ih => rw [sumCounts_succ, Array.size_modify, ih]

theorem size_countBuckets : (countBuckets buckets count).size = count + 1 := by
  have hf (counts : Array Nat) :
      (buckets.foldl (fun counts bucket => counts.modify (bucket + 1) (· + 1)) counts).size =
        counts.size := by
    induction buckets generalizing counts with
    | nil => rfl
    | cons bucket rest ih => rw [List.foldl_cons, ih, Array.size_modify]
  rw [countBuckets, hf, Array.size_replicate]

theorem getElem?_ranges (hb : b ≤ count) :
    (sumCounts (countBuckets buckets count) count)[b]? = some (before buckets b) := by
  rw [getElem?_sumCounts (Nat.le_refl _) hb, if_pos hb]

theorem getElem?_pop_ranges (hb : b < count) :
    (sumCounts (countBuckets buckets count) count).pop[b]? = some (before buckets b) := by
  rw [Array.getElem?_pop, size_sumCounts, size_countBuckets, if_pos (by omega),
    getElem?_ranges (Nat.le_of_lt hb)]

/-- The positions of the entries in a bucket, in the order of the entries. -/
def block (b : Nat) (entries : List (Nat × Nat)) : List Nat :=
  (entries.filter (·.1 == b)).map (·.2)

theorem block_append (b : Nat) (done rest : List (Nat × Nat)) :
    block b (done ++ rest) = block b done ++ block b rest := by
  simp [block]

theorem length_block_zipIdx (b : Nat) (buckets : List Nat) :
    (block b buckets.zipIdx).length = buckets.count b := by
  calc
    (block b buckets.zipIdx).length = (buckets.zipIdx.map Prod.fst).countP (· == b) := by
      rw [block, List.length_map, ← List.countP_eq_length_filter, List.countP_map]
      rfl
    _ = buckets.count b := by rw [List.zipIdx_map_fst, List.count]

theorem block_zipIdx (b : Nat) (buckets : List Nat) :
    block b buckets.zipIdx =
      (List.range buckets.length).filter fun position => buckets[position]? == some b := by
  induction buckets using List.reverseRecOn with
  | nil => rfl
  | append_singleton rest bucket ih =>
    have hp : (List.range rest.length).filter (fun position => rest[position]? == some b) =
        (List.range rest.length).filter fun position => (rest ++ [bucket])[position]? == some b :=
      List.filter_congr fun position hm => by
        rw [List.getElem?_append_left (List.mem_range.mp hm)]
    rw [List.zipIdx_append, block_append, ih, List.length_append, List.length_singleton,
      List.range_succ, List.filter_append, hp]
    by_cases hb : bucket = b <;> simp [block, hb]

/-- After the entries, every cursor stands behind the places of its bucket, and these hold the
positions of the bucket. -/
structure Placed (buckets : List Nat) (count : Nat) (entries : List (Nat × Nat))
    (state : Array Nat × Array Nat) : Prop where
  cursor : ∀ b < count, state.1[b]? = some (before buckets b + (block b entries).length)
  filled : ∀ b < count,
    slots state.2.toList (before buckets b) (block b entries).length = block b entries
  size : state.2.size = buckets.length

theorem Placed.start (hr : ∀ b < count, cursors[b]? = some (before buckets b)) :
    Placed buckets count [] (cursors, Array.replicate buckets.length 0) where
  cursor := hr
  filled _ _ := List.take_zero
  size := Array.size_replicate

theorem block_self (b position : Nat) : block b [(b, position)] = [position] := by
  simp [block]

theorem block_other {bucket : Nat} (position : Nat) (h : bucket ≠ b) :
    block b [(bucket, position)] = [] := by
  simp [block, h]

theorem block_room {entries rest : List (Nat × Nat)} {entry : Nat × Nat}
    (hz : buckets.zipIdx = entries ++ [entry] ++ rest) (b : Nat) :
    before buckets b + (block b entries).length + (block b [entry]).length ≤
      before buckets (b + 1) := by
  have hl := length_block_zipIdx b buckets
  simp only [hz, block_append, List.length_append] at hl
  rw [before_succ]
  omega

theorem before_le_length (buckets : List Nat) (b : Nat) : before buckets b ≤ buckets.length :=
  List.countP_le_length

theorem Placed.place {entries rest : List (Nat × Nat)} {entry : Nat × Nat}
    {state : Array Nat × Array Nat} (h : Placed buckets count entries state)
    (hz : buckets.zipIdx = entries ++ [entry] ++ rest) (he : entry.1 < count) :
    Placed buckets count (entries ++ [entry]) (place state entry) := by
  obtain ⟨bucket, position⟩ := entry
  obtain ⟨cursors, positions⟩ := state
  have hroom := block_room hz
  have hcursor : cursors.getD bucket 0 = before buckets bucket + (block bucket entries).length := by
    rw [Array.getD_eq_getD_getElem?, h.cursor bucket he]
    rfl
  have hset : (HashIndex.place (cursors, positions) (bucket, position)).2.toList =
      positions.toList.set (before buckets bucket + (block bucket entries).length) position := by
    rw [← hcursor]
    exact Array.toList_setIfInBounds
  have hown := hroom bucket
  rw [block_self, List.length_singleton] at hown
  constructor
  · intro b hb
    change (cursors.modify bucket (· + 1))[b]? = _
    rw [Array.getElem?_modify, h.cursor b hb, block_append, List.length_append]
    by_cases hbb : bucket = b
    · subst hbb
      rw [if_pos rfl, block_self]
      rfl
    · rw [if_neg hbb, block_other position hbb]
      rfl
  · intro b hb
    have hf := h.filled b hb
    rw [hset, block_append]
    by_cases hbb : bucket = b
    · subst hbb
      have hn := before_le_length buckets (bucket + 1)
      have hs : positions.toList.length = buckets.length := h.size
      rw [block_self, List.length_append, List.length_singleton, slots_set_end (by omega), hf]
    · rw [block_other position hbb, List.append_nil]
      -- The blocks of two buckets do not overlap.
      rcases Nat.lt_or_gt_of_ne hbb with hlt | hlt
      · have hm : before buckets (bucket + 1) ≤ before buckets b := before_mono hlt
        rw [slots_set_before (by omega)]
        exact hf
      · have hm : before buckets (b + 1) ≤ before buckets bucket := before_mono hlt
        have hr := hroom b
        rw [slots_set_after (by omega)]
        exact hf
  · exact Array.size_setIfInBounds.trans h.size

theorem Placed.foldl {entries rest : List (Nat × Nat)} {state : Array Nat × Array Nat}
    (h : Placed buckets count entries state) (hz : buckets.zipIdx = entries ++ rest)
    (hr : ∀ entry ∈ rest, entry.1 < count) :
    Placed buckets count buckets.zipIdx (rest.foldl HashIndex.place state) := by
  induction rest generalizing entries state with
  | nil =>
    rw [hz, List.append_nil]
    exact h
  | cons entry rest ih =>
    obtain ⟨he, hr⟩ := List.forall_mem_cons.mp hr
    have hz' : buckets.zipIdx = entries ++ [entry] ++ rest := by rw [hz, List.append_cons]
    exact ih (h.place hz' he) hz' hr

theorem placed_all (hb : ∀ bucket ∈ buckets, bucket < count) :
    Placed buckets count buckets.zipIdx (buckets.zipIdx.foldl HashIndex.place
      ((sumCounts (countBuckets buckets count) count).pop, Array.replicate buckets.length 0)) :=
  (Placed.start fun _ => getElem?_pop_ranges).foldl rfl fun _ he =>
    hb _ (List.fst_mem_of_mem_zipIdx he)

theorem size_scatter (hb : ∀ bucket ∈ buckets, bucket < count) :
    (scatter buckets (sumCounts (countBuckets buckets count) count)).size = buckets.length :=
  (placed_all hb).size

/-- The places between two boundaries hold the positions of the bucket. -/
theorem slots_scatter (hb : ∀ bucket ∈ buckets, bucket < count) (h : b < count) :
    slots (scatter buckets (sumCounts (countBuckets buckets count) count)).toList
        (before buckets b) (buckets.count b) =
      (List.range buckets.length).filter fun position => buckets[position]? == some b := by
  rw [← length_block_zipIdx, ← block_zipIdx]
  exact (placed_all hb).filled b h

theorem mask_ofHashes (hashes : List UInt32) : (ofHashes hashes).mask = hashMask hashes.length := by
  simp only [mask, bucketCount, ofHashes, size_sumCounts, size_countBuckets]
  omega

theorem bucket_ofHashes (hashes : List UInt32) (hash : UInt32) :
    (ofHashes hashes).bucket hash =
      (List.range hashes.length).filter fun position => hashes[position]?.any fun h =>
        h.toNat &&& hashMask hashes.length == hash.toNat &&& hashMask hashes.length := by
  let mask := hashMask hashes.length
  let buckets := hashes.map (·.toNat &&& mask)
  let ranges := sumCounts (countBuckets buckets (mask + 1)) (mask + 1)
  have hrange {b : Nat} (hb : b ≤ mask + 1) : ranges[b]? = some (before buckets b) :=
    getElem?_ranges hb
  have hlt (h : UInt32) : h.toNat &&& mask < mask + 1 := Nat.lt_succ_of_le Nat.and_le_right
  have hb : ∀ bucket ∈ buckets, bucket < mask + 1 := List.forall_mem_map.mpr fun h _ => hlt h
  have hs := slots_scatter hb (hlt hash)
  have hd : before buckets ((hash.toNat &&& mask) + 1) - before buckets (hash.toNat &&& mask) =
      buckets.count (hash.toNat &&& mask) := by
    rw [before_succ, Nat.add_sub_cancel_left]
  unfold bucket
  simp only [mask_ofHashes, Array.getD_eq_getD_getElem?]
  change ((scatter buckets ranges).extract (ranges[hash.toNat &&& mask]?.getD 0)
    (ranges[(hash.toNat &&& mask) + 1]?.getD 0)).toList = _
  rw [hrange (Nat.le_of_lt (hlt hash)), hrange (hlt hash), Option.getD_some, Option.getD_some,
    Array.toList_extract, List.extract_eq_take_drop, hd, ← slots, hs]
  simp only [buckets, List.length_map, List.getElem?_map]
  apply List.filter_congr
  intro position _
  cases hashes[position]? <;> simp [mask]

/-- The bucket of a hash holds the positions of all elements that fall into it, ascending. -/
theorem bucket_build {α : Type} (items : Array α) (hasher : α → UInt32) (hash : UInt32) :
    (build items hasher).bucket hash =
      (List.range items.size).filter fun position => items[position]?.any fun x =>
        (hasher x).toNat &&& hashMask items.size == hash.toNat &&& hashMask items.size := by
  rw [build, bucket_ofHashes, List.length_map, Array.length_toList]
  apply List.filter_congr
  intro position _
  rw [List.getElem?_map, Array.getElem?_toList, Option.any_map]

variable {offset length n : Nat} {q : Nat → Bool}

theorem filter_window (h : offset + length ≤ n) :
    ((List.range n).filter q).filter (fun p => offset ≤ p && p < offset + length) =
      (List.range' offset length).filter q := by
  obtain ⟨m, rfl⟩ := Nat.exists_eq_add_of_le h
  have hr : List.range (offset + length + m) =
      List.range' 0 offset ++ (List.range' offset length ++ List.range' (offset + length) m) := by
    rw [List.range'_append_1, Nat.add_assoc, List.range_eq_range', ← List.range'_append_1,
      Nat.zero_add]
  have hlow : (List.range' 0 offset).filter (fun p => (offset ≤ p && p < offset + length) && q p) =
      [] := by
    apply List.filter_eq_nil_iff.mpr
    intro p hp
    have hlt := (List.mem_range'_1.mp hp).2
    simp
    omega
  have hhigh : (List.range' (offset + length) m).filter
      (fun p => (offset ≤ p && p < offset + length) && q p) = [] := by
    apply List.filter_eq_nil_iff.mpr
    intro p hp
    have hle := (List.mem_range'_1.mp hp).1
    simp
    omega
  rw [List.filter_filter, hr, List.filter_append, List.filter_append, hlow, hhigh,
    List.nil_append, List.append_nil]
  apply List.filter_congr
  intro p hp
  obtain ⟨ho, hl⟩ := List.mem_range'_1.mp hp
  simp [ho, hl]

/-- Skipping and taking stop at the ends of the window, since positions ascend. -/
theorem forward_window (h : offset + length ≤ n) :
    (((List.range n).filter q).dropWhile (· < offset)).takeWhile (· < offset + length) =
      (List.range' offset length).filter q := by
  have hs : ((List.range n).filter q).Pairwise (· < ·) := List.pairwise_lt_range.filter q
  rw [dropWhile_eq_filter (hs.imp fun hxy => by simp; omega),
    takeWhile_eq_filter ((hs.filter _).imp fun hxy => by simp; omega), List.filter_filter,
    ← filter_window h]
  apply List.filter_congr
  intro p _
  rw [Bool.eq_iff_iff]
  simp only [Bool.and_eq_true, Bool.not_eq_true', decide_eq_true_eq, decide_eq_false_iff_not]
  omega

theorem backward_window (h : offset + length ≤ n) :
    (((List.range n).filter q).reverse.dropWhile (offset + length ≤ ·)).takeWhile (offset ≤ ·) =
      ((List.range' offset length).filter q).reverse := by
  have hs : ((List.range n).filter q).reverse.Pairwise (· > ·) :=
    List.pairwise_reverse.mpr (List.pairwise_lt_range.filter q)
  rw [dropWhile_eq_filter (hs.imp fun hxy => by simp; omega),
    takeWhile_eq_filter ((hs.filter _).imp fun hxy => by simp; omega), List.filter_filter,
    ← filter_window h, List.filter_reverse, List.reverse_inj]
  apply List.filter_congr
  intro p _
  rw [Bool.eq_iff_iff]
  simp only [Bool.and_eq_true, Bool.not_eq_true', decide_eq_true_eq, decide_eq_false_iff_not]
  omega

variable {α : Type} [BEq α] {hasher : α → UInt32}

/-- A search of the bucket is the scan of the buffer, where the elements of the window that are
equal to the value have its hash. -/
theorem find_build (items : Array α) (value : α) (direction : Direction)
    (hh : ∀ p x, offset ≤ p → p < offset + length → items[p]? = some x → (x == value) = true →
      hasher x = hasher value)
    (h : offset + length ≤ items.size) :
    (build items hasher).find items (hasher value) value offset length direction =
      scan direction offset length fun p => items[p]?.any (· == value) := by
  have hf (direction : Direction) :
      (direction.orient ((List.range' offset length).filter fun p => items[p]?.any fun x =>
        (hasher x).toNat &&& hashMask items.size ==
          (hasher value).toNat &&& hashMask items.size)).find?
        (fun p => items[p]?.any (· == value)) =
      scan direction offset length fun p => items[p]?.any (· == value) := by
    rw [Direction.orient_filter, List.find?_filter, scan]
    apply List.find?_congr
    intro p hm
    obtain ⟨ho, hl⟩ := List.mem_range'_1.mp (Direction.mem_orient.mp hm)
    cases hp : items[p]? with
    | none => rfl
    | some x =>
      cases hx : x == value with
      | false => simp [hx]
      | true => simp [hx, hh p x ho hl hp hx]
  unfold find
  rw [bucket_build]
  cases direction with
  | forward =>
    simp only [forward_window h]
    exact hf .forward
  | backward =>
    simp only [backward_window h]
    exact hf .backward

end HashIndex

end SharedSequence
