import SeismicTree.Number.Binary64

/-!
# The generator

Pseudo-random words follow a linear recurrence over a window of 624 words, of which each word read
replaces the oldest one. A word is tempered before it is used. Only reproducibility is claimed: the
same seed gives the same words.
-/

namespace SeismicTree

/-- The window of the recurrence, as a ring that starts at its oldest word. -/
structure Twister where
  words : Vector UInt32 624
  oldest : Fin 624

namespace Twister

/-- The word behind another one in the window that a seed gives. -/
def seedStep (before : UInt32) (i : Nat) : UInt32 :=
  (1812433253 : UInt32) * (before ^^^ (before >>> 30)) + UInt32.ofNat i

/-- The first words of the window: the seed, and each further word from the one before it. -/
def seedWords (seed : UInt32) : Vector UInt32 624 :=
  (List.range 623).foldl
    (fun (words : Vector UInt32 624) i =>
      words.setIfInBounds (i + 1) (seedStep (words.getD i 0) (i + 1)))
    (Vector.replicate 624 seed)

def ofSeed (seed : UInt32) : Twister := ⟨seedWords seed, 0⟩

/-- The word of the recurrence from the two oldest words and the one 397 places behind them. -/
def recur (first second far : UInt32) : UInt32 :=
  let joined := (first &&& 0x80000000) ||| (second &&& 0x7fffffff)
  far ^^^ (joined >>> 1) ^^^ (if joined &&& 1 = 1 then 0x9908b0df else 0)

def temper (w : UInt32) : UInt32 :=
  let a := w ^^^ (w >>> 11)
  let b := a ^^^ ((a <<< 7) &&& 0x9d2c5680)
  let c := b ^^^ ((b <<< 15) &&& 0xefc60000)
  c ^^^ (c >>> 18)

def next (g : Twister) : UInt32 × Twister :=
  let w := recur g.words[g.oldest] g.words[g.oldest + 1] g.words[g.oldest + 397]
  (temper w, ⟨g.words.set g.oldest w, g.oldest + 1⟩)

/-- The number just below one, which stands in for a draw that is rounded up to one. -/
def belowOne : Binary64 := Binary64.ofBits 0x3fefffffffffffff

/-- A number from zero up to but not including one, made of two words. -/
def uniform (g : Twister) : Binary64 × Twister :=
  let (low, g) := g.next
  let (high, g) := g.next
  let u := (Binary64.ofNat low.toNat + Binary64.ofNat high.toNat * 4294967296)
    / 18446744073709551616
  (if 1 ≤ u then belowOne else u, g)

end Twister

end SeismicTree
