import Plonkish.Poly.Fourier

/-!
# Polynomials — coefficient form

A `Poly k` is a list of coefficients, lowest degree first.  Zeros at the end are kept, and do not
count: `Poly.Equiv` compares the lists with their trailing zeros removed, and `Poly.degree` is the
place of the last nonzero coefficient.  `Poly.toString` writes the nonzero terms, `1 + 2*x^3`.

Sums, differences and multiples are taken coefficient by coefficient.  `Poly.rotated` substitutes
a multiple of the variable, so that evaluating the result over a domain reads the values of the
polynomial a number of places further on.
-/

namespace Plonkish

/-- A polynomial in coefficient form, lowest degree first. -/
structure Poly (k : BaseField) where
  /-- The coefficients. -/
  coeffs : List (Felt k)
deriving DecidableEq, Repr

/-- The list without the zeros at its end. -/
def trimZeros {k : BaseField} (l : List (Felt k)) : List (Felt k) :=
  (l.reverse.dropWhile (· = 0)).reverse

/-- The place of the last nonzero entry, and zero if there is none. -/
def lastNonzero {k : BaseField} (l : List (Felt k)) : Nat := (trimZeros l).length - 1

namespace Poly

variable {k : BaseField}

/-- The polynomial without coefficients. -/
def zero : Poly k := ⟨[]⟩

/-- The polynomial with one coefficient. -/
def constant (c : Felt k) : Poly k := ⟨[c]⟩

/-- The coefficients without trailing zeros. -/
def trimmed (p : Poly k) : List (Felt k) := trimZeros p.coeffs

/-- Whether every coefficient is zero. -/
def isZero (p : Poly k) : Bool := p.coeffs.all (· = 0)

/-- The degree, and zero for the zero polynomial. -/
def degree (p : Poly k) : Nat := lastNonzero p.coeffs

/-- Two polynomials are the same when they differ in trailing zeros only. -/
def Equiv (p q : Poly k) : Prop := p.trimmed = q.trimmed

instance (p q : Poly k) : Decidable (p.Equiv q) := inferInstanceAs (Decidable (_ = _))

/-- The value at `x`, by Horner's rule. -/
def evaluate (p : Poly k) (x : Felt k) : Felt k :=
  p.coeffs.foldr (fun c acc => acc * x + c) 0

/-- The multiple by a constant. -/
def scale (p : Poly k) (c : Felt k) : Poly k := ⟨p.coeffs.map (· * c)⟩

/-- Combines two lists entry by entry, the shorter one continued with zeros. -/
def zipLong (f : Felt k → Felt k → Felt k) : List (Felt k) → List (Felt k) → List (Felt k)
  | [], bs => bs.map (f 0)
  | as, [] => as.map (f · 0)
  | a :: as, b :: bs => f a b :: zipLong f as bs

/-- The sum, coefficient by coefficient. -/
def add (p q : Poly k) : Poly k := ⟨zipLong (· + ·) p.coeffs q.coeffs⟩

/-- The difference, coefficient by coefficient. -/
def sub (p q : Poly k) : Poly k := ⟨zipLong (· - ·) p.coeffs q.coeffs⟩

/-- The negation, coefficient by coefficient. -/
def neg (p : Poly k) : Poly k := ⟨p.coeffs.map (- ·)⟩

instance : Add (Poly k) := ⟨add⟩

instance : Sub (Poly k) := ⟨sub⟩

instance : Neg (Poly k) := ⟨neg⟩

/-- The polynomial in `omega ^ rotation * x`. -/
def rotated (p : Poly k) (rotation : Int) (d : Domain k) : Poly k :=
  ⟨List.zipWith (· * ·) p.coeffs ((d.rotationFactor rotation).geometric 1 p.coeffs.length)⟩

/-- The text of one term. -/
def termText (c : Felt k) : Nat → String
  | 0 => toString c
  | 1 => toString c ++ "*x"
  | i => toString c ++ "*x^" ++ toString i

/-- The terms with the given coefficients and degrees, joined by `+`, or `0` if there is none. -/
def sumText : List (Felt k × Nat) → String
  | [] => "0"
  | terms => " + ".intercalate (terms.map fun (c, i) => termText c i)

/-- The nonzero terms joined by `+`, or `0`. -/
protected def toString (p : Poly k) : String :=
  sumText (p.coeffs.zipIdx.filter fun (c, _) => c ≠ 0)

instance : ToString (Poly k) := ⟨Poly.toString⟩

end Poly

end Plonkish
