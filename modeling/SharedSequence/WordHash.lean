import SharedSequence.ElementHash

namespace SharedSequence

namespace WordHash

def step (state word : UInt64) : UInt64 :=
  (state + word) * 0xf1357aea2e62a9c5

/-- The state turned left by 26 bits. -/
def finish (state : UInt64) : UInt64 :=
  (state <<< 26) ||| (state >>> 38)

def ofWords (words : List UInt64) : UInt64 :=
  finish (words.foldl step 0)

def ofWord (word : UInt64) : UInt64 :=
  finish (step 0 word)

def ofUInt32 (word : UInt32) : UInt64 :=
  ofWord word.toUInt64

end WordHash

namespace ByteHash

/-- The two halves of the 128-bit product, laid over each other. -/
def mix (x y : UInt64) : UInt64 :=
  let product := x.toNat * y.toNat
  UInt64.ofNat product ^^^ UInt64.ofNat (product >>> 64)

/-- The number written little-endian in `count` bytes from a position on. -/
def read (bytes : Array UInt8) (position : Nat) : Nat → UInt64
  | 0 => 0
  | count + 1 => (read bytes (position + 1) count <<< 8) ||| (bytes.getD position 0).toUInt64

def start : UInt64 × UInt64 :=
  (0x243f6a8885a308d3, 0x13198a2e03707344)

def absorbChunk (bytes : Array UInt8) (state : UInt64 × UInt64) (chunk : Nat) : UInt64 × UInt64 :=
  let low := read bytes (16 * chunk) 8
  let high := read bytes (16 * chunk + 8) 8
  (state.2, mix (state.1 ^^^ low) (0xa4093822299f31d0 ^^^ high))

def absorbPair (state : UInt64 × UInt64) (low high : UInt64) : UInt64 × UInt64 :=
  (state.1 ^^^ low, state.2 ^^^ high)

/-- Takes in all bytes. Up to 16 are covered by two reads that may overlap; of more, every chunk
before the last byte is taken in first and the two reads cover the end. -/
def absorb (bytes : Array UInt8) : UInt64 × UInt64 :=
  let size := bytes.size
  if 16 < size then
    let state := (List.range ((size - 1) / 16)).foldl (absorbChunk bytes) start
    absorbPair state (read bytes (size - 16) 8) (read bytes (size - 8) 8)
  else if 8 ≤ size then absorbPair start (read bytes 0 8) (read bytes (size - 8) 8)
  else if 4 ≤ size then absorbPair start (read bytes 0 4) (read bytes (size - 4) 4)
  else if 0 < size then
    absorbPair start (read bytes 0 1) ((read bytes (size - 1) 1 <<< 8) ||| read bytes (size / 2) 1)
  else start

def ofBytes (bytes : Array UInt8) : UInt64 :=
  let (first, second) := absorb bytes
  mix first second ^^^ UInt64.ofNat bytes.size

end ByteHash

instance : ElementHash Int64 where
  hash32 value := foldHash (WordHash.ofWord value.toUInt64)

instance : ElementHash Int32 where
  hash32 value := foldHash (WordHash.ofUInt32 value.toUInt32)

instance : ElementHash UInt8 where
  hash32 value := foldHash (WordHash.ofWord value.toUInt64)

instance : ElementHash Char where
  hash32 value := foldHash (WordHash.ofUInt32 value.val)

/-- The end of a string is marked, so that a string never continues another one. -/
instance : ElementHash String where
  hash32 text := foldHash (WordHash.ofWords [ByteHash.ofBytes text.toUTF8.data, 0xff])

end SharedSequence
