import LeastLoad.Random.Words

/-! # The generator xoshiro256++

Four words of state, seeded from one word by eight steps of a permuted congruential generator with
32-bit output. -/

namespace LeastLoad

structure Xoshiro where
  s0 : UInt64
  s1 : UInt64
  s2 : UInt64
  s3 : UInt64
deriving DecidableEq

namespace Xoshiro

def rotateLeft (x k : UInt64) : UInt64 := (x <<< k) ||| (x >>> (64 - k))

def next (g : Xoshiro) : UInt64 × Xoshiro :=
  let word := rotateLeft (g.s0 + g.s3) 23 + g.s0
  let s2 := g.s2 ^^^ g.s0
  let s3 := g.s3 ^^^ g.s1
  (word,
    { s0 := g.s0 ^^^ s3
      s1 := g.s1 ^^^ s2
      s2 := s2 ^^^ (g.s1 <<< 17)
      s3 := rotateLeft s3 45 })

instance : WordSource Xoshiro := ⟨next⟩

def seedStep (x : UInt64) : UInt64 := x * 6364136223846793005 + 11634580027462260723

def seedOutput (x : UInt64) : UInt32 :=
  let t := (((x >>> 18) ^^^ x) >>> 27).toUInt32
  let k := (x >>> 59).toUInt32
  (t >>> k) ||| (t <<< ((32 - k) % 32))

/-- Two outputs joined to a word, the first in the low half, and the state after them. -/
def seedWord (x : UInt64) : UInt64 × UInt64 :=
  let a := seedStep x
  let b := seedStep a
  ((seedOutput a).toUInt64 ||| ((seedOutput b).toUInt64 <<< 32), b)

def ofSeed (x : UInt64) : Xoshiro :=
  let (s0, x) := seedWord x
  let (s1, x) := seedWord x
  let (s2, x) := seedWord x
  let (s3, _) := seedWord x
  ⟨s0, s1, s2, s3⟩

end Xoshiro

end LeastLoad
