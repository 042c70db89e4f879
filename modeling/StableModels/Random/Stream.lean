/-!
# A stream of random words

The order in which branches are explored is drawn from a stream of 64-bit words that is fixed
by a seed, so that a search can be repeated. The words are those of the ChaCha stream cipher
with eight rounds and a 64-bit block counter, under a key of eight words that a congruential
generator expands from the seed.

A `Stream` is a key and the number of words drawn so far. Block `n` of the stream depends on the
key and on `n` alone, and a word is two neighbouring 32-bit words of its block, the low half
first.
-/

namespace StableModels.Random

/-- Four words of the cipher's state. -/
structure Row where
  /-- The word in lane zero. -/
  a : UInt32
  /-- The word in lane one. -/
  b : UInt32
  /-- The word in lane two. -/
  c : UInt32
  /-- The word in lane three. -/
  d : UInt32
  deriving DecidableEq, Repr

namespace Row

/-- Lane by lane. -/
def map (f : UInt32 → UInt32) (row : Row) : Row := ⟨f row.a, f row.b, f row.c, f row.d⟩

/-- Lane by lane. -/
def zipWith (f : UInt32 → UInt32 → UInt32) (first second : Row) : Row :=
  ⟨f first.a second.a, f first.b second.b, f first.c second.c, f first.d second.d⟩

instance : Add Row := ⟨zipWith (· + ·)⟩

instance : XorOp Row := ⟨zipWith (· ^^^ ·)⟩

/-- Each word turned to the left by a number of bits. -/
def turn (bits : UInt32) (row : Row) : Row :=
  row.map fun word => (word <<< bits) ||| (word >>> (32 - bits))

/-- The lanes moved down by one place, the first one to the end. -/
def shift (row : Row) : Row := ⟨row.b, row.c, row.d, row.a⟩

/-- The words in the order of the lanes. -/
def toList (row : Row) : List UInt32 := [row.a, row.b, row.c, row.d]

end Row

/-- The cipher's state: four rows. -/
structure Block where
  /-- The first row. -/
  r0 : Row
  /-- The second row. -/
  r1 : Row
  /-- The third row. -/
  r2 : Row
  /-- The fourth row. -/
  r3 : Row
  deriving DecidableEq, Repr

namespace Block

/-- A quarter round on each of the four columns. -/
def columns (block : Block) : Block :=
  let ⟨a, b, c, d⟩ := block
  let a := a + b
  let d := (d ^^^ a).turn 16
  let c := c + d
  let b := (b ^^^ c).turn 12
  let a := a + b
  let d := (d ^^^ a).turn 8
  let c := c + d
  let b := (b ^^^ c).turn 7
  ⟨a, b, c, d⟩

/-- The rows moved so that the diagonals become columns. -/
def toDiagonals (block : Block) : Block :=
  ⟨block.r0, block.r1.shift, block.r2.shift.shift, block.r3.shift.shift.shift⟩

/-- The rows moved back. -/
def ofDiagonals (block : Block) : Block :=
  ⟨block.r0, block.r1.shift.shift.shift, block.r2.shift.shift, block.r3.shift⟩

/-- Two rounds: on the columns, then on the diagonals. -/
def doubleRound (block : Block) : Block := block.columns.toDiagonals.columns.ofDiagonals

/-- Eight rounds, added to the state they started from. -/
def mix (block : Block) : Block :=
  let mixed := block.doubleRound.doubleRound.doubleRound.doubleRound
  ⟨mixed.r0 + block.r0, mixed.r1 + block.r1, mixed.r2 + block.r2, mixed.r3 + block.r3⟩

/-- The words row by row. -/
def toList (block : Block) : List UInt32 :=
  block.r0.toList ++ block.r1.toList ++ block.r2.toList ++ block.r3.toList

end Block

/-- A key of eight words. -/
structure Key where
  /-- The first four words. -/
  low : Row
  /-- The last four words. -/
  high : Row
  deriving DecidableEq, Repr

/-- The constants in the first row of every block. -/
def constants : Row := ⟨0x61707865, 0x3320646e, 0x79622d32, 0x6b206574⟩

/-- The words of block `index` under a key. -/
def Key.block (key : Key) (index : UInt64) : List UInt32 :=
  (Block.mix ⟨constants, key.low, key.high,
    ⟨index.toUInt32, (index >>> 32).toUInt32, 0, 0⟩⟩).toList

/-! ### Seeds -/

/-- The next state of the generator that expands a seed. -/
def advance (state : UInt64) : UInt64 := state * 6364136223846793005 + 11634580027462260723

/-- The word that a state of the generator gives: its upper bits, folded, and turned to the
right by its five uppermost bits. -/
def permute (state : UInt64) : UInt32 :=
  let word := (((state >>> 18) ^^^ state) >>> 27).toUInt32
  let bits := (state >>> 59).toUInt32
  (word >>> bits) ||| (word <<< ((32 - bits) % 32))

/-- The key of a seed. -/
def Key.ofSeed (seed : UInt64) : Key :=
  let s1 := advance seed
  let s2 := advance s1
  let s3 := advance s2
  let s4 := advance s3
  let s5 := advance s4
  let s6 := advance s5
  let s7 := advance s6
  let s8 := advance s7
  ⟨⟨permute s1, permute s2, permute s3, permute s4⟩,
    ⟨permute s5, permute s6, permute s7, permute s8⟩⟩

/-! ### Drawing words -/

/-- A place in the stream of words of a key. -/
structure Stream where
  /-- The key. -/
  key : Key
  /-- The number of words drawn so far. -/
  drawn : Nat
  deriving DecidableEq, Repr

namespace Stream

/-- The start of the stream of a seed. -/
def ofSeed (seed : UInt64) : Stream := ⟨Key.ofSeed seed, 0⟩

/-- Word `index` of the stream of a key. -/
def word (key : Key) (index : Nat) : UInt64 :=
  match (key.block (UInt64.ofNat (index / 8))).drop (2 * (index % 8)) with
  | low :: high :: _ => low.toUInt64 ||| (high.toUInt64 <<< 32)
  | _ => 0

/-- The next word. -/
def next (stream : Stream) : UInt64 × Stream :=
  (word stream.key stream.drawn, { stream with drawn := stream.drawn + 1 })

/-! ### Drawing from a range

A word `w` is scaled to a range of `r` numbers as the upper half of the 128-bit product `w * r`.
To be fair to all of them, words whose product has too great a lower half are passed over: the
greatest lower half that counts is one less than `r` moved to the left as far as a word has
room. At least half of all words count. -/

/-- The number of words of 64 bits. -/
def wordCount : Nat := 0x10000000000000000

/-- The greatest lower half of a product that counts, for a range of `size` numbers. -/
def zone (size : Nat) : Nat := (size <<< (63 - size.log2)) - 1

/-- A number below `size`, with at most `tries` words drawn; the last resort is zero. The bound is
there for the recursion to end: each word counts with a probability of one half at least. Nothing
that a search finds can depend on it either. Only the lengths of its steps are drawn from a range,
and all that is used of them is that they lie in the range
(`StableModels.Random.Stream.between_mem`). -/
def below (size : Nat) : Nat → Stream → Nat × Stream
  | 0, stream => (0, stream)
  | tries + 1, stream =>
    let (word, stream) := stream.next
    let product := word.toNat * size
    if product % wordCount ≤ zone size then (product / wordCount, stream)
    else below size tries stream

/-- A number from `low` to `high`. -/
def between (low high : Nat) (stream : Stream) : Nat × Stream :=
  let (offset, stream) := stream.below (high - low + 1) 1024
  (low + offset, stream)

end Stream

end StableModels.Random
