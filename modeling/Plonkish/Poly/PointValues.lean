import Plonkish.Poly.Basic
import Plonkish.Stride

/-!
# Polynomials — point-value form

A `PointValues k` is a polynomial given by its values over the domain with as many points, in the
order of the domain, together with a bound on its degree.  `ofValues` asks for a power of two of
values, more of them than the degree; a value read from outside need not be of this form.

Operations work value by value once both operands live on a domain that holds the degree of the
result: `resize` moves a polynomial to another domain, by way of its coefficients.  Constants live
on one point, sums on the larger of the two domains, products and powers on one large enough for
the new degree.

* `coefficients` interpolates the values and keeps the coefficients up to the degree.
* `rotated` shifts the values around: over a domain of `n` points inside the one the values live
  on, each place counts for as many points as there are between two points of the smaller domain.
* `restrictedTo` lists the values at the points of a smaller domain.
-/

namespace Plonkish

/-- A polynomial given by a degree bound and its values over a domain. -/
structure PointValues (k : BaseField) where
  /-- The bound on the degree. -/
  degree : Nat
  /-- The value at each point of the domain, in order. -/
  values : List (Felt k)
deriving DecidableEq, Repr

namespace PointValues

variable {k : BaseField}

/-- The number of points. -/
def size (p : PointValues k) : Nat := p.values.length

/-- Checks that a number of values fills a domain, and fixes a polynomial of the given degree. -/
def checkSize (degree size : Nat) : Except Fault Unit :=
  if Count.IsPowerOfTwo size ∧ degree < size then .ok () else .error (.evaluations size degree)

/-- The polynomial of at most the given degree with the given values. -/
def ofValues (degree : Nat) (values : List (Felt k)) : Except Fault (PointValues k) := do
  checkSize degree values.length
  return ⟨degree, values⟩

/-- The values, over the least domain that holds them, of the polynomial with the given
coefficients. -/
def ofCoefficients (coeffs : List (Felt k)) : Except Fault (PointValues k) := do
  let size ← Count.domainFor coeffs.length
  let d ← Domain.ofLength k size
  return ⟨lastNonzero coeffs, d.forward (fit size coeffs)⟩

/-- The constant polynomial over a domain of `size` points. -/
def constant (c : Felt k) (size : Nat) : Except Fault (PointValues k) := do
  checkSize 0 (← Count.held k size)
  return ⟨0, List.replicate size c⟩

/-- The coefficients up to the degree. -/
def coefficients (p : PointValues k) : Except Fault (Poly k) := do
  let d ← Domain.ofLength k p.size
  return ⟨(d.backward p.values).take (← Count.add p.degree 1)⟩

/-- The value at any point, by way of the coefficients. -/
def evaluate (p : PointValues k) (x : Felt k) : Except Fault (Felt k) := do
  return (← p.coefficients).evaluate x

/-- The same polynomial over a domain of `points` points. -/
def resize (p : PointValues k) (points : Nat) : Except Fault (PointValues k) :=
  if points = p.size then .ok p
  else if Count.IsPowerOfTwo points ∧ p.degree < points then do
    let coeffs ← p.coefficients
    let d ← Domain.ofLength k (← Count.held k points)
    return ⟨p.degree, d.forward (fit points coeffs.coeffs)⟩
  else .error (.resize p.degree points)

/-- The multiple by a constant. -/
def scale (p : PointValues k) (c : Felt k) : PointValues k := ⟨p.degree, p.values.map (· * c)⟩

/-- The negation. -/
def neg (p : PointValues k) : PointValues k := ⟨p.degree, p.values.map (- ·)⟩

instance : Neg (PointValues k) := ⟨neg⟩

/-- Combines the values of two polynomials over the least domain that holds `degree` and both of
them. -/
def combine (f : Felt k → Felt k → Felt k) (degree : Nat) (p q : PointValues k) :
    Except Fault (PointValues k) := do
  let points := max (max (← Count.domainFor (← Count.add degree 1)) p.size) q.size
  let p ← p.resize points
  let q ← q.resize points
  return ⟨degree, List.zipWith f p.values q.values⟩

/-- The sum. -/
def add (p q : PointValues k) : Except Fault (PointValues k) :=
  combine (· + ·) (max p.degree q.degree) p q

/-- The difference. -/
def sub (p q : PointValues k) : Except Fault (PointValues k) :=
  combine (· - ·) (max p.degree q.degree) p q

/-- The product. -/
def mul (p q : PointValues k) : Except Fault (PointValues k) := do
  combine (· * ·) (← Count.add p.degree q.degree) p q

/-- The power. -/
def pow (p : PointValues k) (n : Nat) : Except Fault (PointValues k) := do
  let degree ← Count.mul p.degree n
  let points := max (← Count.domainFor (← Count.add degree 1)) p.size
  let base ← p.resize points
  return ⟨degree, base.values.map (· ^ n)⟩

/-- The polynomial in `omega ^ rotation * x`, where `omega` generates the domain of `domain`
points. -/
def rotated (p : PointValues k) (rotation : Int) (domain : Nat) : Except Fault (PointValues k) :=
  if 0 < domain ∧ p.size % domain = 0 then
    -- Places are counted modulo the number of points, so there has to be one.
    if p.size = 0 then .error .overflow else
    let places := (rotation * (p.size / domain : Nat) % p.size).toNat
    .ok ⟨p.degree, p.values.drop places ++ p.values.take places⟩
  else .error (.domainMultiple p.size domain)

/-- The values at the points of a domain inside the one the polynomial lives on. -/
def restrictedTo (p : PointValues k) (d : Domain k) : List (Felt k) :=
  everyNth (max (p.size / d.size) 1) p.values

end PointValues

/-- The polynomial that takes the given values over the domain with as many points. -/
def Poly.interpolate {k : BaseField} (values : List (Felt k)) : Except Fault (Poly k) :=
  if values.isEmpty then .ok Poly.zero
  else do (← PointValues.ofValues (values.length - 1) values).coefficients

end Plonkish
