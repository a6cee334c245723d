import Mathlib.Algebra.Group.Nat.Defs
import Mathlib.Data.List.Perm.Subperm
import Mathlib.Order.Bounds.Basic
import SharedSequence.Proofs.GuardedTable

namespace SharedSequence

namespace HashIndex

open Guarded

variable {α : Type} {n p : Nat}

/-- The powers of two that are not below a number of entries, nor below one. -/
def Capacities (n : Nat) : Set Nat :=
  {count | (∃ k, count = 2 ^ k) ∧ max n 1 ≤ count}

theorem hashMask_add_one {n : Nat} (h2 : 2 ≤ n) (h : n ≤ indexLimit) :
    hashMask n + 1 = 2 ^ ((n - 1).log2 + 1) := by
  have hpos : 0 < 2 ^ ((n - 1).log2 + 1) := Nat.two_pow_pos _
  rw [hashMask, if_neg (by omega), if_pos (show n ≤ 0x8000000000000000 from h)]
  change 2 ^ ((n - 1).log2 + 1) - 1 + 1 = _
  omega

theorem isLeast_hashMask (h : n ≤ indexLimit) : IsLeast (Capacities n) (hashMask n + 1) := by
  rcases Nat.lt_or_ge n 2 with h1 | h2
  · rw [hashMask, if_pos (by omega)]
    refine ⟨⟨⟨0, rfl⟩, by omega⟩, ?_⟩
    rintro count ⟨-, hc⟩
    omega
  · rw [hashMask_add_one h2 h]
    have hlow : 2 ^ (n - 1).log2 ≤ n - 1 := Nat.log2_self_le (by omega)
    have hhigh : n - 1 < 2 ^ ((n - 1).log2 + 1) := Nat.lt_log2_self
    refine ⟨⟨⟨_, rfl⟩, by omega⟩, ?_⟩
    rintro count ⟨⟨k, rfl⟩, hk⟩
    have hlt : 2 ^ (n - 1).log2 < 2 ^ k := by omega
    exact Nat.pow_le_pow_right Nat.two_pos ((Nat.pow_lt_pow_iff_right Nat.one_lt_two).mp hlt)

section

variable (hashes : List UInt32)

def bucketsOf : List Nat :=
  hashes.map (·.toNat &&& hashMask hashes.length)

theorem bucketsOf_lt : ∀ bucket ∈ bucketsOf hashes, bucket < hashMask hashes.length + 1 :=
  List.forall_mem_map.mpr fun _ _ => Nat.lt_succ_of_le Nat.and_le_right

theorem length_bucketsOf : (bucketsOf hashes).length = hashes.length :=
  List.length_map _

theorem bucketCount_ofHashes : (ofHashes hashes).bucketCount = hashMask hashes.length + 1 := by
  simp only [bucketCount, ofHashes, size_sumCounts, size_countBuckets]
  omega

theorem size_ranges_ofHashes :
    (ofHashes hashes).ranges.size = (ofHashes hashes).bucketCount + 1 := by
  rw [bucketCount_ofHashes]
  exact (size_sumCounts _ _).trans size_countBuckets

theorem ranges_ofHashes {b : Nat} (hb : b ≤ (ofHashes hashes).bucketCount) :
    (ofHashes hashes).ranges[b]? = some (before (bucketsOf hashes) b) := by
  rw [bucketCount_ofHashes] at hb
  exact getElem?_ranges hb

theorem before_zero (buckets : List Nat) : before buckets 0 = 0 := by
  simp [before]

theorem before_bucketCount :
    before (bucketsOf hashes) (ofHashes hashes).bucketCount = hashes.length := by
  rw [bucketCount_ofHashes, before, List.countP_eq_length.mpr, length_bucketsOf]
  intro bucket hm
  exact decide_eq_true (bucketsOf_lt hashes bucket hm)

theorem ranges_ascend : (ofHashes hashes).ranges.toList.Pairwise (· ≤ ·) := by
  rw [List.pairwise_iff_getElem]
  intro i j hi hj hij
  have hsize := size_ranges_ofHashes hashes
  have hrange {b : Nat} (hb : b < (ofHashes hashes).ranges.toList.length) :
      (ofHashes hashes).ranges.toList[b] = before (bucketsOf hashes) b := by
    have hr := ranges_ofHashes hashes (b := b) (by rw [Array.length_toList] at hb; omega)
    rw [← Array.getElem?_toList] at hr
    exact (List.getElem?_eq_some_iff.mp hr).2
  rw [hrange hi, hrange hj]
  exact before_mono (Nat.le_of_lt hij)

theorem size_positions_ofHashes : (ofHashes hashes).positions.size = hashes.length := by
  rw [← length_bucketsOf]
  exact size_scatter (bucketsOf_lt hashes)

end

theorem mem_positions_of_mem_bucket {index : HashIndex} {hash : UInt32}
    (h : p ∈ index.bucket hash) : p ∈ index.positions.toList := by
  rw [bucket, Array.toList_extract, List.extract_eq_take_drop] at h
  exact List.mem_of_mem_drop (List.mem_of_mem_take h)

variable (items : Array α) (hasher : α → UInt32)

theorem mask_build : (build items hasher).mask = hashMask items.size := by
  rw [build, mask_ofHashes, List.length_map, Array.length_toList]

theorem mem_bucket_build (hash : UInt32) :
    let index := build items hasher
    p ∈ index.bucket hash ↔
      ∃ x, items[p]? = some x ∧ (hasher x).toNat &&& index.mask = hash.toNat &&& index.mask := by
  dsimp only
  rw [bucket_build, List.mem_filter, List.mem_range, Option.any_eq_true, mask_build]
  simp only [beq_iff_eq]
  constructor
  · exact fun h => h.2
  · rintro ⟨x, hx, hb⟩
    exact ⟨(Array.getElem?_eq_some_iff.mp hx).1, x, hx, hb⟩

theorem bucket_ascends (hash : UInt32) : ((build items hasher).bucket hash).Pairwise (· < ·) := by
  rw [bucket_build]
  exact List.pairwise_lt_range.filter _

theorem size_positions_build : (build items hasher).positions.size = items.size := by
  rw [build, size_positions_ofHashes, List.length_map, Array.length_toList]

/-- Every position stands in the bucket of its own element, so that none is missing; and there is
room for each one only once. -/
theorem positions_perm :
    (build items hasher).positions.toList.Perm (List.range items.size) := by
  have hsub : List.range items.size ⊆ (build items hasher).positions.toList := by
    intro p hp
    have hx := Array.getElem?_eq_getElem (List.mem_range.mp hp)
    exact mem_positions_of_mem_bucket ((mem_bucket_build items hasher (hasher _)).mpr ⟨_, hx, rfl⟩)
  have hsubperm := List.subperm_of_subset List.nodup_range hsub
  refine (hsubperm.perm_of_length_le ?_).symm
  rw [Array.length_toList, size_positions_build, List.length_range]

/-- The table is a stable counting sort of a buffer by the masked hashes of its elements. -/
structure Tabulates (index : HashIndex) (items : Array α) (hasher : α → UInt32) : Prop where
  bucketCount : IsLeast (Capacities items.size) index.bucketCount
  size : index.ranges.size = index.bucketCount + 1
  first : index.ranges[0]? = some 0
  last : index.ranges[index.bucketCount]? = some items.size
  ascends : index.ranges.toList.Pairwise (· ≤ ·)
  positions : index.positions.toList.Perm (List.range items.size)
  bucket (hash : UInt32) : ∃ bucket, index.guardedBucket hash = .ok bucket ∧
    bucket.Pairwise (· < ·) ∧ ∀ p, p ∈ bucket ↔ ∃ x, items[p]? = some x ∧
      (hasher x).toNat &&& index.mask = hash.toNat &&& index.mask

/-- Up to the limit, the build of a table ends without a fault, and the table is a stable counting
sort of the buffer. -/
theorem build_tabulates (h : items.size ≤ indexLimit) :
    guardedBuild items hasher = .ok (build items hasher) ∧
      (build items hasher).Tabulates items hasher := by
  have hlength : (items.toList.map hasher).length = items.size := by
    rw [List.length_map, Array.length_toList]
  refine ⟨guardedBuild_eq items hasher h, ?_, ?_, ?_, ?_, ?_, ?_, ?_⟩
  · rw [build, bucketCount_ofHashes, hlength]
    exact isLeast_hashMask h
  · exact size_ranges_ofHashes _
  · rw [build, ranges_ofHashes _ (Nat.zero_le _), before_zero]
  · rw [build, ranges_ofHashes _ (Nat.le_refl _), before_bucketCount, hlength]
  · exact ranges_ascend _
  · exact positions_perm items hasher
  · intro hash
    refine ⟨_, guardedBucket_eq (hlength.trans_le h) hash, bucket_ascends items hasher hash, ?_⟩
    exact fun p => mem_bucket_build items hasher hash

/-- Five elements take eight buckets, of which one holds two positions that are not adjacent. -/
theorem build_tabulates_five :
    guardedBuild #[6, 9, 2, 5, 1] Nat.toUInt32 = .ok (build #[6, 9, 2, 5, 1] Nat.toUInt32) ∧
      (build #[6, 9, 2, 5, 1] Nat.toUInt32).Tabulates #[6, 9, 2, 5, 1] Nat.toUInt32 :=
  build_tabulates #[6, 9, 2, 5, 1] Nat.toUInt32 (by decide)

example : build #[6, 9, 2, 5, 1] Nat.toUInt32 =
    ⟨#[0, 0, 2, 3, 3, 3, 4, 5, 5], #[1, 4, 2, 3, 0]⟩ := by
  decide +kernel

end HashIndex

end SharedSequence
