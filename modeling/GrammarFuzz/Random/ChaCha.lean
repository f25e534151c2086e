import GrammarFuzz.Random.Chance

/-! A word source from the ChaCha stream cipher with twelve rounds. The key is spread
from a 64-bit seed, the block counter starts at zero and the nonce is zero; the words of
a block are used in order, two for each 64-bit word, the low one first. -/
namespace GrammarFuzz

namespace ChaCha

/-- The sixteen words that a block is computed on. -/
abbrev Block := Vector UInt32 16

def rotateLeft (word : UInt32) (amount : UInt32) : UInt32 :=
  word <<< amount ||| word >>> (32 - amount)

def quarterRound (a b c d : Fin 16) (block : Block) : Block :=
  let block := block.set a (block[a] + block[b])
  let block := block.set d (rotateLeft (block[d] ^^^ block[a]) 16)
  let block := block.set c (block[c] + block[d])
  let block := block.set b (rotateLeft (block[b] ^^^ block[c]) 12)
  let block := block.set a (block[a] + block[b])
  let block := block.set d (rotateLeft (block[d] ^^^ block[a]) 8)
  let block := block.set c (block[c] + block[d])
  block.set b (rotateLeft (block[b] ^^^ block[c]) 7)

/-- Quarter rounds down the four columns, then along the four diagonals. -/
def doubleRound (block : Block) : Block :=
  let block := quarterRound 0 4 8 12 block
  let block := quarterRound 1 5 9 13 block
  let block := quarterRound 2 6 10 14 block
  let block := quarterRound 3 7 11 15 block
  let block := quarterRound 0 5 10 15 block
  let block := quarterRound 1 6 11 12 block
  let block := quarterRound 2 7 8 13 block
  quarterRound 3 4 9 14 block

/-- The constants `expand 32-byte k`, the key, the counter and a zero nonce. -/
def initial (key : Vector UInt32 8) (counter : UInt64) : Block :=
  let constants : Vector UInt32 4 := #v[0x61707865, 0x3320646e, 0x79622d32, 0x6b206574]
  constants ++ key ++ (#v[counter.toUInt32, (counter >>> 32).toUInt32, 0, 0] : Vector UInt32 4)

/-- The output block of a counter: six double rounds, then the start added back. -/
def output (key : Vector UInt32 8) (counter : UInt64) : Block :=
  let start := initial key counter
  let mixed := Nat.repeat doubleRound 6 start
  Vector.zipWith (· + ·) start mixed

/-- Join 32-bit words in pairs, the low word first. -/
def pairs : List UInt32 → List UInt64
  | low :: high :: rest => (low.toUInt64 ||| high.toUInt64 <<< 32) :: pairs rest
  | _ => []

/-- One step of the generator that spreads a seed over the key. -/
def spread (state : UInt64) : UInt64 := state * 6364136223846793005 + 11634580027462260723

/-- The key word of a spreading state: its upper bits folded, then rotated right by its
top five bits. -/
def keyWord (state : UInt64) : UInt32 :=
  let folded := (((state >>> 18) ^^^ state) >>> 27).toUInt32
  let amount := (state >>> 59).toUInt32
  folded >>> amount ||| folded <<< ((32 - amount) % 32)

def keyWords : Nat → UInt64 → List UInt32
  | 0, _ => []
  | count + 1, state => keyWord (spread state) :: keyWords count (spread state)

def keyOfSeed (seed : UInt64) : Vector UInt32 8 :=
  Vector.ofFn fun i => (keyWords 8 seed).getD i 0

end ChaCha

/-- The key, the counter of the next block, and the words left of the last one. -/
structure ChaCha where
  key : Vector UInt32 8
  counter : UInt64
  left : List UInt64

namespace ChaCha

def ofSeed (seed : UInt64) : ChaCha := ⟨keyOfSeed seed, 0, []⟩

def next (source : ChaCha) : UInt64 × ChaCha :=
  match source.left with
  | word :: left => (word, { source with left })
  | [] =>
      match pairs (output source.key source.counter).toList with
      | word :: left => (word, { source with counter := source.counter + 1, left })
      | [] => (0, source)

/-- Even the most wasteful choice accepts half of all words, so this is never used up. -/
instance : WordSource ChaCha where
  next := next
  patience _ := UInt32.size

end ChaCha
end GrammarFuzz
