/-!
# Random words

Sources of 64-bit words: the xoshiro256++ stream of a seed, and a script of given words. A source
is a state, and drawing a word gives the word and the next state. A seed is spread over the state of
xoshiro256++ by the outputs of a small generator, PCG32.
-/

namespace ArithTree.Random

/-- States that words can be drawn from. -/
class Source (σ : Type) where
  next : σ → UInt64 × σ

/-! ## PCG32 -/

/-- The state of PCG32 after another one. -/
def pcgStep (state : UInt64) : UInt64 := state * 6364136223846793005 + 11634580027462260723

/-- The output of PCG32: 32 bits of the state, rotated to the right by its five highest bits. -/
def pcgOutput (state : UInt64) : UInt32 :=
  let bits := (((state >>> 18) ^^^ state) >>> 27).toUInt32
  let turn := (state >>> 59).toUInt32
  (bits >>> turn) ||| (bits <<< (32 - turn))

/-- Two outputs as one word, the earlier one in the lower half, and the state after them. -/
def pcgWord (state : UInt64) : UInt64 × UInt64 :=
  let first := pcgStep state
  let second := pcgStep first
  (((pcgOutput second).toUInt64 <<< 32) ||| (pcgOutput first).toUInt64, second)

/-! ## xoshiro256++ -/

/-- The state of xoshiro256++. -/
structure Xoshiro where
  s0 : UInt64
  s1 : UInt64
  s2 : UInt64
  s3 : UInt64
  deriving DecidableEq, Repr

/-- Rotation to the left by `k` bits, for `k` from 1 to 63. -/
def rotateLeft (x k : UInt64) : UInt64 := (x <<< k) ||| (x >>> (64 - k))

namespace Xoshiro

/-- The state of a seed: four words from PCG32. -/
def ofSeed (seed : UInt64) : Xoshiro :=
  let (s0, state) := pcgWord seed
  let (s1, state) := pcgWord state
  let (s2, state) := pcgWord state
  let (s3, _) := pcgWord state
  ⟨s0, s1, s2, s3⟩

def next (s : Xoshiro) : UInt64 × Xoshiro :=
  let word := rotateLeft (s.s0 + s.s3) 23 + s.s0
  let s2 := s.s2 ^^^ s.s0
  let s3 := s.s3 ^^^ s.s1
  (word, ⟨s.s0 ^^^ s3, s.s1 ^^^ s2, s2 ^^^ (s.s1 <<< 17), rotateLeft s3 45⟩)

instance : Source Xoshiro := ⟨next⟩

end Xoshiro

/-! ## Scripts -/

/-- Given words and then zeros for ever, with the number of words drawn so far. -/
structure Script where
  words : List UInt64
  used : Nat := 0
  deriving DecidableEq, Repr

namespace Script

/-- A word and the script after it. -/
def next (s : Script) : UInt64 × Script :=
  match s.words with
  | [] => (0, ⟨[], s.used + 1⟩)
  | word :: words => (word, ⟨words, s.used + 1⟩)

instance : Source Script := ⟨next⟩

end Script

end ArithTree.Random
