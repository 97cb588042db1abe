import Plonkish.Poly.PointValues

/-!
# Polynomials — products and powers

`Poly.convolve` multiplies two coefficient lists term by term.  `Poly.mul` does so for products of
up to 64 coefficients; longer ones it takes in point-value form.  Both start from the coefficients
without trailing zeros, so a product of nonzero polynomials has none either.
-/

namespace Plonkish.Poly

variable {k : BaseField}

/-- The coefficients of a product: entry `n` is the sum of `a i * b j` over `i + j = n`. -/
def convolve : List (Felt k) → List (Felt k) → List (Felt k)
  | [], _ => []
  | a :: as, bs => zipLong (· + ·) (bs.map (a * ·)) (0 :: convolve as bs)

/-- The most coefficients of a product taken term by term. -/
def termwiseLimit : Nat := 64

/-- The product. -/
def mul (p q : Poly k) : Except Fault (Poly k) := do
  let a := p.trimmed
  let b := q.trimmed
  if a.isEmpty || b.isEmpty then return zero
  let length := a.length + b.length - 1
  if length ≤ termwiseLimit then return ⟨convolve a b⟩
  let product ← (← PointValues.ofCoefficients a).mul (← PointValues.ofCoefficients b)
  return ⟨(← product.coefficients).coeffs.take length⟩

/-- Multiplies `acc` by the powers `base ^ (2 ^ i)` over the first `digits` binary digits of `n`,
and stops after the last digit that is not zero. -/
def powDigits : Nat → Poly k → Poly k → Nat → Except Fault (Poly k)
  | 0, acc, _, _ => .ok acc
  | digits + 1, acc, base, n => do
    let acc ← if n % 2 = 1 then acc.mul base else .ok acc
    if n / 2 = 0 then .ok acc else powDigits digits acc (← base.mul base) (n / 2)

/-- The power, by repeated squaring. -/
def pow (p : Poly k) (n : Nat) : Except Fault (Poly k) :=
  powDigits (n.log2 + 1) (constant 1) p n

end Plonkish.Poly
