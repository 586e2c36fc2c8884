import FormalLanguage.Generation.Draws

/-! The generator xoshiro256++, seeded from one word by PCG32. -/
namespace FormalLanguage

structure Xoshiro where
  s0 : UInt64
  s1 : UInt64
  s2 : UInt64
  s3 : UInt64
deriving DecidableEq

def rotateLeft (x k : UInt64) : UInt64 := (x <<< k) ||| (x >>> (64 - k))

def rotateRight32 (x k : UInt32) : UInt32 := (x >>> k) ||| (x <<< ((32 - k) % 32))

namespace Xoshiro

def next (g : Xoshiro) : UInt64 × Xoshiro :=
  let result := rotateLeft (g.s0 + g.s3) 23 + g.s0
  let s2 := g.s2 ^^^ g.s0
  let s3 := g.s3 ^^^ g.s1
  (result, {
    s0 := g.s0 ^^^ s3
    s1 := g.s1 ^^^ s2
    s2 := s2 ^^^ (g.s1 <<< 17)
    s3 := rotateLeft s3 45 })

/-- The next state of the seeding generator. -/
def seedStep (state : UInt64) : UInt64 := state * 6364136223846793005 + 11634580027462260723

/-- What a state of the seeding generator gives out. -/
def seedOutput (state : UInt64) : UInt32 :=
  rotateRight32 (((state >>> 18) ^^^ state) >>> 27).toUInt32 (state >>> 59).toUInt32

/-- Two outputs as one word, the low half first, and the state after them. -/
def seedWord (state : UInt64) : UInt64 × UInt64 :=
  let low := seedStep state
  let high := seedStep low
  ((seedOutput low).toUInt64 ||| ((seedOutput high).toUInt64 <<< 32), high)

def ofSeed (seed : UInt64) : Xoshiro :=
  let (s0, state) := seedWord seed
  let (s1, state) := seedWord state
  let (s2, state) := seedWord state
  let (s3, _) := seedWord state
  { s0, s1, s2, s3 }

end Xoshiro

/-- A generator refuses less than half of its words, so this many refusals in a row do not occur. -/
def seeded : Source Xoshiro where
  next := Xoshiro.next
  patience _ := 1000000

end FormalLanguage
