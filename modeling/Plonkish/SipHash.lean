/-!
# Digests — SipHash

`SipHash.hash` turns a list of words into one word.  It is SipHash over the bytes of the words, low
bytes first, with one round after each word and three at the end, under the key zero.

Different lists practically never have the same digest.  Nothing depends on it: digests only decide
where a comparison may stop early.
-/

namespace Plonkish.SipHash

/-- The four words that a digest is formed in. -/
structure State where
  /-- The first word. -/
  a : UInt64
  /-- The second word. -/
  b : UInt64
  /-- The third word. -/
  c : UInt64
  /-- The fourth word. -/
  d : UInt64
deriving DecidableEq, Repr

/-- The state before the first word, under the key zero. -/
def State.start : State :=
  ⟨0x736f6d6570736575, 0x646f72616e646f6d, 0x6c7967656e657261, 0x7465646279746573⟩

/-- A word turned left by a number of digits. -/
def rotate (x n : UInt64) : UInt64 := x <<< n ||| x >>> (64 - n)

/-- One round of mixing. -/
def State.round (s : State) : State :=
  let a := s.a + s.b
  let b := rotate s.b 13 ^^^ a
  let a := rotate a 32
  let c := s.c + s.d
  let d := rotate s.d 16 ^^^ c
  let a := a + d
  let d := rotate d 21 ^^^ a
  let c := c + b
  let b := rotate b 17 ^^^ c
  ⟨a, b, rotate c 32, d⟩

/-- The state after a word. -/
def State.absorb (s : State) (word : UInt64) : State :=
  let mixed := { s with d := s.d ^^^ word }.round
  { mixed with a := mixed.a ^^^ word }

/-- The digest of a state that has seen everything. -/
def State.finish (s : State) : UInt64 :=
  let last := { s with c := s.c ^^^ 0xff }.round.round.round
  last.a ^^^ last.b ^^^ last.c ^^^ last.d

/-- The digest of a list of words.  The last word to be absorbed holds the number of bytes. -/
def hash (words : List UInt64) : UInt64 :=
  let s := words.foldl State.absorb State.start
  (s.absorb (UInt64.ofNat (8 * words.length) <<< 56)).finish

end Plonkish.SipHash
