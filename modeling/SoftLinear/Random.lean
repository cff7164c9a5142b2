/-!
# Random sources

What the random selectors need of a source of randomness, an index below a bound and a shuffle, and the source that is
used when a seed is given.  A seed is stretched to a key of eight words, and the stream consists of the blocks of the
ChaCha cipher with twelve rounds under that key, counted from zero.

* `KeyStream.word` is the stream itself: the word at a position;
* `KeyStream.below` draws an index by widening multiplication, with a second word where the first one is undecided;
* `KeyStream.shuffle` swaps each element with one at or before it, several of these choices being cut from one draw.
-/

namespace SoftLinear

/-- A source of randomness, threaded through its draws: an index below a positive bound, and a random order of a list. -/
class Generator (γ : Type) where
  below : γ → Nat → Nat × γ
  shuffle : {β : Type} → γ → List β → List β × γ

/-- A key and the position of the next word. -/
structure KeyStream where
  key : List UInt32
  position : Nat
  deriving DecidableEq, Repr, Inhabited

namespace KeyStream

/-! ## Seeds -/

def rotateRight (x : UInt32) (n : UInt32) : UInt32 := (x >>> n) ||| (x <<< (32 - n))

def rotateLeft (x : UInt32) (n : UInt32) : UInt32 := (x <<< n) ||| (x >>> (32 - n))

/-- One step of the linear congruence that stretches a seed. -/
def stepSeed (s : UInt64) : UInt64 := s * 6364136223846793005 + 11634580027462260723

/-- The word that a state of the congruence gives: its upper bits folded and turned. -/
def seedWord (s : UInt64) : UInt32 := rotateRight (((s >>> 18) ^^^ s) >>> 27).toUInt32 (s >>> 59).toUInt32

/-- The next words of a stretched seed. -/
def seedWords : Nat → UInt64 → List UInt32
  | 0, _ => []
  | n + 1, s => seedWord (stepSeed s) :: seedWords n (stepSeed s)

/-- The stream of a seed. -/
def ofSeed (seed : UInt64) : KeyStream := ⟨seedWords 8 seed, 0⟩

/-! ## Blocks -/

/-- One quarter round on the words at four places. -/
def quarterRound (s : Array UInt32) (a b c d : Nat) : Array UInt32 :=
  let va := s.getD a 0 + s.getD b 0
  let vd := rotateLeft (s.getD d 0 ^^^ va) 16
  let vc := s.getD c 0 + vd
  let vb := rotateLeft (s.getD b 0 ^^^ vc) 12
  let va := va + vb
  let vd := rotateLeft (vd ^^^ va) 8
  let vc := vc + vd
  let vb := rotateLeft (vb ^^^ vc) 7
  (((s.setIfInBounds a va).setIfInBounds b vb).setIfInBounds c vc).setIfInBounds d vd

/-- A round on the columns and a round on the diagonals. -/
def doubleRound (s : Array UInt32) : Array UInt32 :=
  [(0, 4, 8, 12), (1, 5, 9, 13), (2, 6, 10, 14), (3, 7, 11, 15),
    (0, 5, 10, 15), (1, 6, 11, 12), (2, 7, 8, 13), (3, 4, 9, 14)].foldl
    (fun s (a, b, c, d) => quarterRound s a b c d) s

/-- A number of double rounds. -/
def mix : Nat → Array UInt32 → Array UInt32
  | 0, s => s
  | n + 1, s => mix n (doubleRound s)

/-- How many values a word can have. -/
def wordValues : Nat := 4294967296

/-- The words that a block starts from: the constants, the key, the counter and an empty nonce. -/
def blockInput (key : List UInt32) (counter : Nat) : Array UInt32 :=
  ([(0x61707865 : UInt32), 0x3320646e, 0x79622d32, 0x6b206574] ++ key ++
    [counter.toUInt32, (counter / wordValues).toUInt32, 0, 0]).toArray

/-- A block of the stream: the mixed words plus the words they came from. -/
def block (key : List UInt32) (counter : Nat) : Array UInt32 :=
  Array.zipWith (· + ·) (mix 6 (blockInput key counter)) (blockInput key counter)

/-- The word of the stream at a position. -/
def word (key : List UInt32) (position : Nat) : UInt32 := (block key (position / 16)).getD (position % 16) 0

def next (s : KeyStream) : Nat × KeyStream :=
  ((word s.key s.position).toNat, { s with position := s.position + 1 })

/-! ## Draws -/

/-- Draws an index below a bound: the upper half of a word times the bound.  Where the lower half is so large that a
longer fraction could carry over, a second word decides. -/
def below (s : KeyStream) (bound : Nat) : Nat × KeyStream :=
  let (w, s) := s.next
  let high := w * bound / wordValues
  let low := w * bound % wordValues
  if wordValues - bound < low then
    let (w, s) := s.next
    let carry := wordValues ≤ low + w * bound / wordValues
    (if carry then high + 1 else high, s)
  else (high, s)

/-- Multiplies successive factors as long as the product stays below `2 ^ 32`; returns the product and the first factor
that was left out. -/
def gather : Nat → Nat → Nat → Nat × Nat
  | 0, product, factor => (product, factor)
  | n + 1, product, factor =>
    if product * factor < wordValues then gather n (product * factor) (factor + 1) else (product, factor)

/-- The state of a shuffle: what is left of the last draw, and for how many choices it still serves. -/
structure Cut where
  chunk : Nat
  remaining : Nat

/-- Chooses a position below `k`, cutting it from the last draw or from a new one. -/
def choose (s : KeyStream) (cut : Cut) (k : Nat) : Nat × Cut × KeyStream :=
  let (cut, s) :=
    if cut.remaining = 0 then
      let (product, factor) := gather 32 k (k + 1)
      let (chunk, s) := s.below product
      (Cut.mk chunk (factor - k), s)
    else (cut, s)
  -- the last choice takes what is left of the draw
  if cut.remaining - 1 = 0 then (cut.chunk, ⟨cut.chunk, 0⟩, s)
  else (cut.chunk % k, ⟨cut.chunk / k, cut.remaining - 1⟩, s)

/-- Swaps the element at each position with one chosen at or before it. -/
def swaps {β : Type} (xs : Array β) (cut : Cut) (s : KeyStream) : List Nat → Array β × KeyStream
  | [] => (xs, s)
  | i :: rest =>
    let (j, cut, s) := s.choose cut (i + 1)
    swaps (xs.swapIfInBounds i j) cut s rest

/-- Brings a list into a random order; a list of at most one element takes no draw. -/
def shuffle {β : Type} (s : KeyStream) (xs : List β) : List β × KeyStream :=
  if xs.length ≤ 1 then (xs, s)
  else
    let (ys, s) := swaps xs.toArray ⟨0, 1⟩ s (List.range xs.length)
    (ys.toList, s)

end KeyStream

instance : Generator KeyStream where
  below := KeyStream.below
  shuffle := KeyStream.shuffle

end SoftLinear
