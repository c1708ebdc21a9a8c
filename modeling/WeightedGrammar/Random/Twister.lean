import WeightedGrammar.Random.Supply

/-!
The twister, a generator of random words with period `2 ^ 19937 - 1`: a state of 624 words of 32
bits, renewed as a whole when all of them are used. A draw takes two outputs and makes of them a
double in `[0, 1)` with 53 random bits.
-/

namespace WeightedGrammar

/-- The words of the state and how many of them are used. -/
structure Twister where
  words : Array UInt32
  used : Nat

namespace Twister

def size : Nat := 624

def word (words : Array UInt32) (i : Nat) : UInt32 := words.getD i 0

/-- What a word passes on to its successor while a state is filled. -/
def carry (w : UInt32) : UInt32 := w ^^^ (w >>> 30)

/-! ### Seeding -/

/-- The state that a single word fills: each further word is made of the one in front. -/
def fill (seed : UInt32) : Array UInt32 :=
  (List.range (size - 1)).foldl
    (fun words i => words.push (1812433253 * carry (word words i) + (i + 1).toUInt32)) #[seed]

/-- Replaces a word by a mix of itself and its predecessor. The last word is also the predecessor of
the first one that is mixed again, so it is copied to the front. -/
def mix (factor : UInt32) (extra : Nat → UInt32) (words : Array UInt32) (step : Nat) :
    Array UInt32 :=
  let i := step % (size - 1) + 1
  let w := (word words i ^^^ (carry (word words (i - 1)) * factor)) + extra step
  let mixed := words.setIfInBounds i w
  if i = size - 1 then mixed.setIfInBounds 0 w else mixed

/-- The state that a key of words fills: the key is mixed in, around as often as it takes, and then
every word once more. -/
def ofKey (key : Array UInt32) : Twister :=
  let rounds := max size key.size
  let keyed := fun step => word key (step % key.size) + (step % key.size).toUInt32
  let placed := fun step => 0 - (step % (size - 1) + 1).toUInt32
  let withKey := (List.range rounds).foldl (mix 1664525 keyed) (fill 19650218)
  let again := (List.range (size - 1)).foldl
    (fun words step => mix 1566083941 placed words (rounds + step)) withKey
  ⟨again.setIfInBounds 0 0x80000000, size⟩

/-- The number of values of a word. -/
def wordValues : Nat := 0x100000000

/-- The words of a number, least significant first, at most so many. -/
def wordsOf (n : Nat) : Nat → List UInt32
  | 0 => []
  | fuel + 1 =>
    if n < wordValues then [n.toUInt32] else n.toUInt32 :: wordsOf (n / wordValues) fuel

/-- The state of a seed. The sign of a seed does not count. -/
def ofSeed (seed : Int) : Twister :=
  ofKey (wordsOf seed.natAbs (seed.natAbs.log2 / 32 + 1)).toArray

/-! ### Drawing -/

/-- The word that takes the place of one: the top bit of it and the low bits of its successor,
halved, and mixed with the word 397 places on. -/
def renewed (words : Array UInt32) (i : Nat) : UInt32 :=
  let joined := (word words i &&& 0x80000000) ||| (word words ((i + 1) % size) &&& 0x7fffffff)
  let twist : UInt32 := if joined &&& 1 = 1 then 0x9908b0df else 0
  word words ((i + 397) % size) ^^^ (joined >>> 1) ^^^ twist

/-- The state with every word renewed in turn. -/
def renew (words : Array UInt32) : Array UInt32 :=
  (List.range size).foldl (fun ws i => ws.setIfInBounds i (renewed ws i)) words

/-- Spreads the bits of a word of the state over an output. -/
def temper (w : UInt32) : UInt32 :=
  let a := w ^^^ (w >>> 11)
  let b := a ^^^ ((a <<< 7) &&& 0x9d2c5680)
  let c := b ^^^ ((b <<< 15) &&& 0xefc60000)
  c ^^^ (c >>> 18)

def output (t : Twister) : UInt32 × Twister :=
  if t.used < size then (temper (word t.words t.used), { t with used := t.used + 1 })
  else
    let words := renew t.words
    (temper (word words 0), ⟨words, 1⟩)

/-- The next double: 27 bits of one output above 26 bits of the following one, over
`2 ^ 53`. -/
def draw (t : Twister) : Float × Twister :=
  let (high, t) := t.output
  let (low, t) := t.output
  (Float.ofNat ((high >>> 5).toNat * 67108864 + (low >>> 6).toNat) / 9007199254740992, t)

end Twister

instance : Supply Twister Float where
  draw := Twister.draw

end WeightedGrammar
