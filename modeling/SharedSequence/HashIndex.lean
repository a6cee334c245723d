import SharedSequence.Direction

namespace SharedSequence

/-- One less than the smallest power of two that is not below the number of entries. -/
def hashMask (entries : Nat) : Nat :=
  if entries ≤ 1 then 0
  else if entries ≤ 0x8000000000000000 then Nat.pow 2 ((entries - 1).log2 + 1) - 1
  else 0xffffffffffffffff

/-- Bucket `b` holds the positions between the boundaries `ranges[b]` and `ranges[b + 1]`. -/
structure HashIndex where
  ranges : Array Nat
  positions : Array Nat
deriving DecidableEq, Repr

namespace HashIndex

/-- Counts each bucket one place after its own. -/
def countBuckets (buckets : List Nat) (bucketCount : Nat) : Array Nat :=
  buckets.foldl (fun counts bucket => counts.modify (bucket + 1) (· + 1))
    (Array.replicate (bucketCount + 1) 0)

/-- Adds up the counts, so that place `b` holds the number of elements in the buckets before `b`.
-/
def sumCounts (counts : Array Nat) (bucketCount : Nat) : Array Nat :=
  (List.range bucketCount).foldl
    (fun ranges bucket =>
      let before := ranges.getD bucket 0
      ranges.modify (bucket + 1) (· + before))
    counts

/-- Puts a position at the cursor of its bucket and advances the cursor. -/
def place (state : Array Nat × Array Nat) (entry : Nat × Nat) : Array Nat × Array Nat :=
  let (cursors, positions) := state
  let (bucket, position) := entry
  let cursor := cursors.getD bucket 0
  (cursors.modify bucket (· + 1), positions.setIfInBounds cursor position)

/-- Places all positions in ascending order, each bucket starting at its boundary. -/
def scatter (buckets : List Nat) (ranges : Array Nat) : Array Nat :=
  (buckets.zipIdx.foldl place (ranges.pop, Array.replicate buckets.length 0)).2

def ofHashes (hashes : List UInt32) : HashIndex :=
  let mask := hashMask hashes.length
  let buckets := hashes.map (·.toNat &&& mask)
  let ranges := sumCounts (countBuckets buckets (mask + 1)) (mask + 1)
  { ranges, positions := scatter buckets ranges }

def build (items : Array α) (hasher : α → UInt32) : HashIndex :=
  ofHashes (items.toList.map hasher)

def bucketCount (index : HashIndex) : Nat :=
  index.ranges.size - 1

def mask (index : HashIndex) : Nat :=
  index.bucketCount - 1

def bucket (index : HashIndex) (hash : UInt32) : List Nat :=
  let bucket := hash.toNat &&& index.mask
  (index.positions.extract (index.ranges.getD bucket 0) (index.ranges.getD (bucket + 1) 0)).toList

/-- The first position met in the direction, inside the window, whose element equals the value. -/
def find [BEq α] (index : HashIndex) (items : Array α) (hash : UInt32) (value : α)
    (offset length : Nat) (direction : Direction) : Option Nat :=
  let candidates := index.bucket hash
  let found (position : Nat) : Bool := items[position]?.any (· == value)
  match direction with
  | .forward =>
    ((candidates.dropWhile (· < offset)).takeWhile (· < offset + length)).find? found
  | .backward =>
    ((candidates.reverse.dropWhile (offset + length ≤ ·)).takeWhile (offset ≤ ·)).find? found

end HashIndex

end SharedSequence
