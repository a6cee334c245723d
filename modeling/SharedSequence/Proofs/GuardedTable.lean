import SharedSequence.Proofs.HashTable
import SharedSequence.Proofs.Words

namespace SharedSequence

namespace Guarded

def increase (items : Array Nat) (i amount : Nat) : Guarded (Array Nat) := do
  let sum ← add (← item items i) amount
  return items.modify i fun _ => sum

def put (items : Array Nat) (i value : Nat) : Guarded (Array Nat) :=
  if i < items.size then .ok (items.setIfInBounds i value) else .error .outOfRange

theorem increase_eq {items : Array Nat} {i amount x : Nat} (hx : items[i]? = some x)
    (h : x + amount < wordSize) : increase items i amount = .ok (items.modify i (· + amount)) := by
  rw [increase, item_eq hx, ok_bind, add_eq h, ok_bind, pure_eq_ok]
  congr 1
  apply Array.ext_getElem?
  intro j
  rw [Array.getElem?_modify, Array.getElem?_modify]
  split
  · rename_i hj
    rw [← hj, hx]
    rfl
  · rfl

end Guarded

namespace HashIndex

open Guarded

variable {α : Type}

/-- `hashMask` on words: there is no power of two above the limit. -/
def guardedMask (entries : Nat) : Guarded Nat :=
  if entries ≤ 1 then return 0
  else if entries ≤ indexLimit then sub (Nat.pow 2 ((entries - 1).log2 + 1)) 1
  else return wordSize - 1

def guardedCount (counts : Array Nat) (bucket : Nat) : Guarded (Array Nat) := do
  increase counts (← add bucket 1) 1

def guardedSum (ranges : Array Nat) (bucket : Nat) : Guarded (Array Nat) := do
  increase ranges bucket (← item ranges (← sub bucket 1))

def guardedPlace (state : Array Nat × Array Nat) (entry : Nat × Nat) :
    Guarded (Array Nat × Array Nat) := do
  let (cursors, positions) := state
  let (bucket, position) := entry
  let positions ← put positions (← item cursors bucket) position
  return (← increase cursors bucket 1, positions)

def guardedSort (buckets : List Nat) (bucketCount : Nat) : Guarded HashIndex := do
  let counts ← buckets.foldlM guardedCount (Array.replicate (← add bucketCount 1) 0)
  let ranges ← (List.range' 1 bucketCount).foldlM guardedSum counts
  let cursors ← span ranges 0 bucketCount
  let state ← buckets.zipIdx.foldlM guardedPlace (cursors, Array.replicate buckets.length 0)
  return { ranges, positions := state.2 }

def guardedBuild (items : Array α) (hasher : α → UInt32) : Guarded HashIndex := do
  let mask ← guardedMask items.size
  guardedSort (items.toList.map fun x => (hasher x).toNat &&& mask) (← add mask 1)

section

variable {buckets : List Nat} {count : Nat}

theorem guardedMask_eq (entries : Nat) : guardedMask entries = .ok (hashMask entries) := by
  unfold guardedMask hashMask
  split
  · rfl
  · split
    · have hp : 1 ≤ Nat.pow 2 ((entries - 1).log2 + 1) := Nat.one_le_two_pow
      rw [sub_eq hp, if_pos ‹entries ≤ 0x8000000000000000›]
    · rw [if_neg ‹¬entries ≤ 0x8000000000000000›]
      rfl

theorem foldlM_guardedCount (hb : ∀ bucket ∈ buckets, bucket < count)
    (hc : count < wordSize) (hs : buckets.length < wordSize) :
    buckets.foldlM guardedCount (Array.replicate (count + 1) 0) =
      .ok (countBuckets buckets count) := by
  induction buckets using List.reverseRecOn with
  | nil => rfl
  | append_singleton done bucket ih =>
    have hbucket : bucket < count := hb bucket (by simp)
    rw [List.length_append, List.length_singleton] at hs
    have hdone := ih (fun b hm => hb b (List.mem_append_left _ hm)) (Nat.lt_of_succ_lt hs)
    have hle : done.countP (· + 1 = bucket + 1) ≤ done.length := List.countP_le_length
    have hstep : guardedCount (countBuckets done count) bucket =
        .ok ((countBuckets done count).modify (bucket + 1) (· + 1)) := by
      rw [guardedCount, add_eq (by omega), ok_bind,
        increase_eq (getElem?_countBuckets (by omega)) (by omega)]
    rw [List.foldlM_append, hdone, ok_bind, List.foldlM_cons, hstep, countBuckets, countBuckets,
      List.foldl_append]
    rfl

theorem foldlM_guardedSum {k : Nat} (hk : k ≤ count) (hs : buckets.length < wordSize) :
    (List.range' 1 k).foldlM guardedSum (countBuckets buckets count) =
      .ok (sumCounts (countBuckets buckets count) k) := by
  induction k with
  | zero => rfl
  | succ k ih =>
    have hk' : k ≤ count := by omega
    have hbefore : (sumCounts (countBuckets buckets count) k)[k]? = _ := getElem?_sumCounts hk' hk'
    have hnext : (sumCounts (countBuckets buckets count) k)[k + 1]? = _ := getElem?_sumCounts hk' hk
    rw [if_pos (Nat.le_refl _)] at hbefore
    rw [if_neg (by omega), countP_add_one] at hnext
    have hle := before_le_length buckets (k + 1)
    rw [before_succ] at hle
    have hstep : guardedSum (sumCounts (countBuckets buckets count) k) (1 + k) =
        .ok (sumCounts (countBuckets buckets count) (k + 1)) := by
      rw [Nat.add_comm, guardedSum, sub_eq (Nat.le_add_left 1 k), ok_bind, Nat.add_sub_cancel,
        item_eq hbefore, ok_bind, increase_eq hnext (by omega), sumCounts_succ,
        Array.getD_eq_getD_getElem?, hbefore]
      rfl
    rw [List.range'_1_concat, List.foldlM_append, ih hk', ok_bind, List.foldlM_cons, hstep]
    rfl

/-- The cursor of a bucket that has an entry to come stands inside the buffer. -/
theorem foldlM_guardedPlace {entries rest : List (Nat × Nat)} {state : Array Nat × Array Nat}
    (h : Placed buckets count entries state) (hz : buckets.zipIdx = entries ++ rest)
    (hr : ∀ entry ∈ rest, entry.1 < count) (hs : buckets.length < wordSize) :
    rest.foldlM guardedPlace state = .ok (rest.foldl place state) := by
  induction rest generalizing entries state with
  | nil => rfl
  | cons entry rest ih =>
    obtain ⟨he, hr⟩ := List.forall_mem_cons.mp hr
    have hz' : buckets.zipIdx = entries ++ [entry] ++ rest := by rw [hz, List.append_cons]
    have hstep : guardedPlace state entry = .ok (place state entry) := by
      obtain ⟨bucket, position⟩ := entry
      obtain ⟨cursors, positions⟩ := state
      have hroom := block_room hz' bucket
      have hle := before_le_length buckets (bucket + 1)
      rw [block_self, List.length_singleton] at hroom
      have hcursor : cursors[bucket]? = _ := h.cursor bucket he
      have hsize : positions.size = buckets.length := h.size
      rw [guardedPlace, item_eq hcursor, ok_bind, put, if_pos (by omega), ok_bind,
        increase_eq hcursor (by omega), place, Array.getD_eq_getD_getElem?, hcursor]
      rfl
    rw [List.foldlM_cons, hstep]
    exact ih (h.place hz' he) hz' hr

theorem hashMask_lt {entries : Nat} (h : entries ≤ indexLimit) : hashMask entries < indexLimit := by
  unfold hashMask
  split
  · decide
  · have hlog : (entries - 1).log2 < 63 := by
      apply (Nat.log2_lt (by omega)).mpr
      change entries - 1 < indexLimit
      omega
    have hpow : Nat.pow 2 ((entries - 1).log2 + 1) ≤ Nat.pow 2 63 :=
      Nat.pow_le_pow_right Nat.two_pos hlog
    have hlimit : Nat.pow 2 63 = indexLimit := rfl
    have hpos : 0 < indexLimit := by decide
    rw [if_pos (show entries ≤ 0x8000000000000000 from h)]
    omega

theorem indexLimit_lt : indexLimit < wordSize := by
  decide

theorem span_ranges : span (sumCounts (countBuckets buckets count) count) 0 count =
    .ok (sumCounts (countBuckets buckets count) count).pop := by
  have hsize : (sumCounts (countBuckets buckets count) count).size = count + 1 := by
    rw [size_sumCounts, size_countBuckets]
  rw [span, if_pos ⟨Nat.zero_le _, by omega⟩, Array.extract_eq_pop (by omega)]

theorem guardedSort_eq (hb : ∀ bucket ∈ buckets, bucket < count) (hc : count + 1 < wordSize)
    (hs : buckets.length < wordSize) : guardedSort buckets count =
      .ok ⟨sumCounts (countBuckets buckets count) count,
        scatter buckets (sumCounts (countBuckets buckets count) count)⟩ := by
  have hstart : Placed buckets count [] ((sumCounts (countBuckets buckets count) count).pop, _) :=
    .start fun b => getElem?_pop_ranges
  have hplace := foldlM_guardedPlace hstart rfl
    (fun entry he => hb _ (List.fst_mem_of_mem_zipIdx he)) hs
  rw [guardedSort, add_eq hc, ok_bind, foldlM_guardedCount hb (by omega) hs, ok_bind,
    foldlM_guardedSum (Nat.le_refl count) hs, ok_bind, span_ranges, ok_bind, hplace]
  rfl

theorem guardedBuild_eq (items : Array α) (hasher : α → UInt32) (h : items.size ≤ indexLimit) :
    guardedBuild items hasher = .ok (build items hasher) := by
  have hmask := hashMask_lt h
  have hlimit : indexLimit + 1 < wordSize := by decide
  have hb : ∀ bucket ∈ items.toList.map fun x => (hasher x).toNat &&& hashMask items.size,
      bucket < hashMask items.size + 1 :=
    List.forall_mem_map.mpr fun x _ => Nat.lt_succ_of_le Nat.and_le_right
  have hs : items.size < wordSize := by omega
  rw [guardedBuild, guardedMask_eq, ok_bind, add_eq (by omega), ok_bind,
    guardedSort_eq hb (by omega) (by simpa using hs), build, ofHashes, List.map_map,
    List.length_map, Array.length_toList]
  rfl

end

def guardedBucket (index : HashIndex) (hash : UInt32) : Guarded (List Nat) := do
  let bucketCount ← sub index.ranges.size 1
  let mask ← sub bucketCount 1
  let low ← item index.ranges (hash.toNat &&& mask)
  let high ← item index.ranges (← add (hash.toNat &&& mask) 1)
  return (← span index.positions low high).toList

/-- The first of the candidates that holds the value; each is read from the buffer. -/
def guardedPick [BEq α] (items : Array α) (value : α) : List Nat → Guarded (Option Nat)
  | [] => return none
  | candidate :: rest => do
    if (← item items candidate) == value then return some candidate
    else guardedPick items value rest

def guardedFind [BEq α] (index : HashIndex) (items : Array α) (hash : UInt32) (value : α)
    (offset length : Nat) (direction : Direction) : Guarded (Option Nat) := do
  let candidates ← index.guardedBucket hash
  let stop ← add offset length
  match direction with
  | .forward =>
    guardedPick items value ((candidates.dropWhile (· < offset)).takeWhile (· < stop))
  | .backward =>
    guardedPick items value ((candidates.reverse.dropWhile (stop ≤ ·)).takeWhile (offset ≤ ·))

theorem guardedBucket_eq {hashes : List UInt32} (h : hashes.length ≤ indexLimit) (hash : UInt32) :
    (ofHashes hashes).guardedBucket hash = .ok ((ofHashes hashes).bucket hash) := by
  let mask := hashMask hashes.length
  let buckets := hashes.map (·.toNat &&& mask)
  let ranges := sumCounts (countBuckets buckets (mask + 1)) (mask + 1)
  have hmask : mask < indexLimit := hashMask_lt h
  have hlimit := indexLimit_lt
  have hlt (hash : UInt32) : hash.toNat &&& mask < mask + 1 := Nat.lt_succ_of_le Nat.and_le_right
  have hbucket := hlt hash
  have hb : ∀ bucket ∈ buckets, bucket < mask + 1 := List.forall_mem_map.mpr fun h _ => hlt h
  have hranges : (ofHashes hashes).ranges = ranges := rfl
  have hpositions : (ofHashes hashes).positions = scatter buckets ranges := rfl
  have hsize : ranges.size = mask + 1 + 1 := by rw [size_sumCounts, size_countBuckets]
  have hlow : ranges[hash.toNat &&& mask]? = some _ := getElem?_ranges (Nat.le_of_lt hbucket)
  have hhigh : ranges[(hash.toNat &&& mask) + 1]? = some _ := getElem?_ranges hbucket
  have hstop : before buckets ((hash.toNat &&& mask) + 1) ≤ (scatter buckets ranges).size := by
    rw [size_scatter hb]
    exact before_le_length buckets _
  rw [guardedBucket, bucket, mask_ofHashes, hranges, hpositions, hsize,
    sub_eq (Nat.le_add_left 1 _), ok_bind, Nat.add_sub_cancel, sub_eq (Nat.le_add_left 1 _),
    ok_bind, Nat.add_sub_cancel, item_eq hlow, ok_bind, add_eq (by omega), ok_bind, item_eq hhigh,
    ok_bind, span, if_pos ⟨before_mono (Nat.le_succ _), hstop⟩, ok_bind,
    Array.getD_eq_getD_getElem?, Array.getD_eq_getD_getElem?, hlow, hhigh]
  rfl

variable [BEq α]

theorem guardedPick_eq {items : Array α} (value : α) {candidates : List Nat}
    (h : ∀ p ∈ candidates, p < items.size) : guardedPick items value candidates =
      .ok (candidates.find? fun p => items[p]?.any (· == value)) := by
  induction candidates with
  | nil => rfl
  | cons p rest ih =>
    obtain ⟨hp, hr⟩ := List.forall_mem_cons.mp h
    have hi := Array.getElem?_eq_getElem hp
    rw [guardedPick, item_eq hi, ok_bind, ih hr, List.find?_cons, hi, Option.any_some]
    cases items[p] == value <;> rfl

theorem guardedFind_eq (items : Array α) (hasher : α → UInt32) (hash : UInt32) (value : α)
    (h : items.size ≤ indexLimit) {offset length : Nat} (hw : offset + length ≤ items.size)
    (direction : Direction) :
    (build items hasher).guardedFind items hash value offset length direction =
      .ok ((build items hasher).find items hash value offset length direction) := by
  have hl : (items.toList.map hasher).length ≤ indexLimit := by simpa using h
  have hlimit := indexLimit_lt
  have hc : (build items hasher).guardedBucket hash = .ok ((build items hasher).bucket hash) :=
    guardedBucket_eq hl hash
  have hlt : ∀ p ∈ (build items hasher).bucket hash, p < items.size := by
    intro p hp
    rw [bucket_build] at hp
    exact List.mem_range.mp (List.mem_filter.mp hp).1
  rw [guardedFind, hc, ok_bind, add_eq (by omega), ok_bind]
  cases direction with
  | forward =>
    apply guardedPick_eq
    intro p hp
    exact hlt p ((List.dropWhile_sublist _).mem ((List.takeWhile_sublist _).mem hp))
  | backward =>
    apply guardedPick_eq
    intro p hp
    exact hlt p (List.mem_reverse.mp
      ((List.dropWhile_sublist _).mem ((List.takeWhile_sublist _).mem hp)))

end HashIndex

end SharedSequence
