-- The stream of random words that a seed stands for: the keystream of the ChaCha cipher with
-- twelve rounds, under a key that is spread from the seed.
import TopDown.Random.Source

namespace TopDown.Seeded

/-! ## The key -/

/-- One step of a linear congruential generator of 64 bits. -/
def congruent (state : UInt64) : UInt64 := state * 6364136223846793005 + 11634580027462260723

def rotateRight (x n : UInt32) : UInt32 := (x >>> n) ||| (x <<< ((32 - n) % 32))

def rotateLeft (x n : UInt32) : UInt32 := (x <<< n) ||| (x >>> ((32 - n) % 32))

/-- The bits of a state that are used: the high ones, folded and rotated by the topmost five. -/
def output (state : UInt64) : UInt32 :=
  rotateRight (((state >>> 18) ^^^ state) >>> 27).toUInt32 (state >>> 59).toUInt32

def keyFrom : Nat → UInt64 → List UInt32
  | 0, _ => []
  | n + 1, state =>
    let next := congruent state
    output next :: keyFrom n next

/-- The eight words of the key. -/
def key (seed : UInt64) : List UInt32 := keyFrom 8 seed

/-! ## The cipher -/

abbrev Block := Vector UInt32 16

def quarterRound (a b c d : Fin 16) (v : Block) : Block :=
  let v := v.set a (v[a] + v[b])
  let v := v.set d (rotateLeft (v[d] ^^^ v[a]) 16)
  let v := v.set c (v[c] + v[d])
  let v := v.set b (rotateLeft (v[b] ^^^ v[c]) 12)
  let v := v.set a (v[a] + v[b])
  let v := v.set d (rotateLeft (v[d] ^^^ v[a]) 8)
  let v := v.set c (v[c] + v[d])
  v.set b (rotateLeft (v[b] ^^^ v[c]) 7)

/-- A round of the columns and a round of the diagonals. -/
def doubleRound (v : Block) : Block :=
  let v := quarterRound 0 4 8 12 v
  let v := quarterRound 1 5 9 13 v
  let v := quarterRound 2 6 10 14 v
  let v := quarterRound 3 7 11 15 v
  let v := quarterRound 0 5 10 15 v
  let v := quarterRound 1 6 11 12 v
  let v := quarterRound 2 7 8 13 v
  quarterRound 3 4 9 14 v

/-- The constants, the key, the number of the block in two words, and two zeros. -/
def initial (key : List UInt32) (block : Nat) : Block :=
  let words := [0x61707865, 0x3320646e, 0x79622d32, 0x6b206574] ++ key ++
    [block.toUInt32, (block / 0x100000000).toUInt32, 0, 0]
  Vector.ofFn fun i => words.getD i 0

/-- A block of the keystream: six double rounds, added to where they started. -/
def block (key : List UInt32) (n : Nat) : Block :=
  let v := initial key n
  let mixed := doubleRound (doubleRound (doubleRound (doubleRound (doubleRound (doubleRound v)))))
  Vector.zipWith (· + ·) v mixed

/-! ## The stream -/

/-- Two words of a block make one random word, the low half first. -/
def wordAt (key : List UInt32) (i : Nat) : UInt64 :=
  let b := block key (i / 8)
  let low := b.getD (2 * (i % 8)) 0
  let high := b.getD (2 * (i % 8) + 1) 0
  low.toUInt64 ||| (high.toUInt64 <<< 32)

/-- The words of a seed, as many as the block numbers of 64 bits give. -/
def stream (seed : UInt64) : WordStream :=
  let k := key seed
  ⟨wordAt k, 1 <<< 67⟩

end TopDown.Seeded
