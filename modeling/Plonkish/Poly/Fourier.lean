import Plonkish.Domain

/-!
# Polynomials — the Fourier transform

`fourier n w xs` evaluates the polynomial with the `2 ^ n` coefficients `xs` at the points
`1, w, w ^ 2, …`, in this order, where `w` has order `2 ^ n`.  It halves the list: with `e` and
`o` the transforms of the coefficients at even and odd places, the value at `w ^ i` is
`e i + w ^ i * o i`, and the value at `w ^ (i + 2 ^ (n - 1)) = -w ^ i` is `e i - w ^ i * o i`.

`Domain.forward` is the transform over a domain, from coefficients to values, and
`Domain.backward` its inverse: the transform with `omega⁻¹`, divided by the number of points.
-/

namespace Plonkish

variable {k : BaseField}

/-- The entries of a list at even and at odd places. -/
def splitEvenOdd {α : Type} : List α → List α × List α
  | [] => ([], [])
  | [a] => ([a], [])
  | a :: b :: l => let (evens, odds) := splitEvenOdd l; (a :: evens, b :: odds)

/-- The values at the powers of `w` of the polynomial with `2 ^ n` given coefficients. -/
def fourier : Nat → Felt k → List (Felt k) → List (Felt k)
  | 0, _, coeffs => coeffs
  | n + 1, w, coeffs =>
    let (evens, odds) := splitEvenOdd coeffs
    let values := fourier n w.square evens
    let twisted := List.zipWith (· * ·) (w.geometric 1 (1 <<< n)) (fourier n w.square odds)
    List.zipWith (· + ·) values twisted ++ List.zipWith (· - ·) values twisted

/-- A list brought to length `n`, with zeros at the end or the end cut off. -/
def fit (n : Nat) (l : List (Felt k)) : List (Felt k) :=
  l.take n ++ List.replicate (n - l.length) 0

@[simp] theorem length_fit (n : Nat) (l : List (Felt k)) : (fit n l).length = n := by
  simp [fit]; omega

namespace Domain

/-- The values over the domain of the polynomial with the given coefficients. -/
def forward (d : Domain k) (coeffs : List (Felt k)) : List (Felt k) :=
  fourier d.log d.omega coeffs

/-- The coefficients of the polynomial with the given values over the domain. -/
def backward (d : Domain k) (values : List (Felt k)) : List (Felt k) :=
  let scale := (Felt.ofNat d.size : Felt k).inverse
  (fourier d.log d.omega.inverse values).map (scale * ·)

/-- The domain a list of `n` entries is transformed over. -/
def ofLength (k : BaseField) (n : Nat) : Except Fault (Domain k) :=
  (ofSize k n).mapError fun _ => .assertion

end Domain

end Plonkish
