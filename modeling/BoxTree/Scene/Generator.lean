import BoxTree.Point
/-!
# Random scalars

A generator of pseudorandom 64-bit words with a state of four words, and the scalars and
points drawn from it. The same seed always gives the same draws.
-/

namespace BoxTree

/-- The state of a generator. -/
structure Generator where
  a : UInt64
  b : UInt64
  c : UInt64
  d : UInt64
  deriving DecidableEq, Repr

/-- A computation that draws from a generator. -/
abbrev Draw := StateM Generator

/-- A 64-bit word rotated to the left by less than 64 places, but not by none. -/
def rotateWord (w k : UInt64) : UInt64 := (w <<< k) ||| (w >>> (64 - k))

/-- A 32-bit word rotated to the right by less than 32 places. -/
def rotateHalf (w k : UInt32) : UInt32 := (w >>> k) ||| (w <<< ((32 - k) % 32))

namespace Generator

/-- One step of the linear sequence that spreads a seed over a state. -/
def spread (w : UInt64) : UInt64 := w * 6364136223846793005 + 11634580027462260723

/-- The 32 bits that a word of the linear sequence contributes: its high bits are folded down
and rotated by the highest five of them. -/
def fold (w : UInt64) : UInt32 :=
  rotateHalf (((w >>> 18) ^^^ w) >>> 27).toUInt32 (w >>> 59).toUInt32

/-- A word of the state from a word of the linear sequence: the contributions of the next two
words, the lower half first. The second result is the last word used. -/
def seedWord (w : UInt64) : UInt64 × UInt64 :=
  let low := spread w
  let high := spread low
  ((fold low).toUInt64 ||| ((fold high).toUInt64 <<< 32), high)

/-- The generator of a seed. -/
def ofSeed (seed : UInt64) : Generator :=
  let (a, w) := seedWord seed
  let (b, w) := seedWord w
  let (c, w) := seedWord w
  let (d, _) := seedWord w
  ⟨a, b, c, d⟩

/-- The word a state stands for. -/
def word (g : Generator) : UInt64 := rotateWord (g.a + g.d) 23 + g.a

/-- The state after a draw. -/
def advance (g : Generator) : Generator :=
  let c := g.c ^^^ g.a
  let d := g.d ^^^ g.b
  ⟨g.a ^^^ d, g.b ^^^ c, c ^^^ (g.b <<< 17), rotateWord d 45⟩

/-- Draws a word. -/
def next : Draw UInt64 := fun g => (g.word, g.advance)

/-- Draws a scalar from zero up to but not including one: the highest 24 bits of a word over
`2 ^ 24`. -/
def unit : Draw Scalar := do
  let w ← next
  pure ((w >>> 40).toFloat32 / 16777216)

/-- Draws a point of the unit cube, its coordinates in the order of the axes. -/
def point : Draw Point := do pure ⟨← unit, ← unit, ← unit⟩

end Generator

end BoxTree
