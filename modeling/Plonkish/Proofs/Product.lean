import Plonkish.Proofs.PointValues

/-!
# Proofs — products and powers in coefficient form

Whether taken term by term or in point-value form (`Poly.mulByValues`), the product of two
polynomials is their product (`Poly.toPolynomial_mul`).  In point-value form the degree of the
product is tracked exactly, since trailing zeros are dropped before, so no coefficient is cut off.
A power by repeated squaring is the power (`Poly.toPolynomial_pow`).
-/

noncomputable section

namespace Plonkish.Poly

open Polynomial (C X)

variable {k : BaseField} {p q r : Poly k}

theorem trimmed_isEmpty_or_iff : (p.trimmed.isEmpty || q.trimmed.isEmpty) = true ↔
    p.toPolynomial = 0 ∨ q.toPolynomial = 0 := by
  rw [Bool.or_eq_true, List.isEmpty_iff, List.isEmpty_iff]
  exact or_congr trimZeros_eq_nil_iff trimZeros_eq_nil_iff

theorem length_trimmed (h : p.toPolynomial ≠ 0) :
    p.trimmed.length = p.toPolynomial.natDegree + 1 := by
  rw [trimmed, length_trimZeros]
  exact if_neg h

/-- The product of two lists of coefficients, of any length, in point-value form. -/
def mulByValues (a b : List (Felt k)) : Except Fault (Poly k) := do
  let product ← (← PointValues.ofCoefficients a).mul (← PointValues.ofCoefficients b)
  return ⟨(← product.coefficients).coeffs.take (a.length + b.length - 1)⟩

/-- Short products are taken term by term, and long ones in point-value form. -/
theorem mul_eq (p q : Poly k) : p.mul q =
    if p.trimmed.isEmpty || q.trimmed.isEmpty then .ok zero
    else if p.trimmed.length + q.trimmed.length - 1 ≤ termwiseLimit then
      .ok ⟨convolve p.trimmed q.trimmed⟩
    else mulByValues p.trimmed q.trimmed := rfl

/-- The product of two point-value forms holds the coefficients of the product. -/
theorem represents_of_mulByValues {a b : List (Felt k)} (h : mulByValues a b = .ok r) :
    ∃ (u : PointValues k) (d : Domain k) (c : Poly k),
      u.Represents d (polynomialOf a * polynomialOf b) ∧
      u.degree = (polynomialOf a).natDegree + (polynomialOf b).natDegree ∧
      u.coefficients = .ok c ∧ r = ⟨c.coeffs.take (a.length + b.length - 1)⟩ := by
  obtain ⟨u, hu, h⟩ := bind_eq_ok.mp h
  obtain ⟨v, hv, h⟩ := bind_eq_ok.mp h
  obtain ⟨w, hw, h⟩ := bind_eq_ok.mp h
  obtain ⟨c, hc, h⟩ := bind_eq_ok.mp h
  obtain ⟨d, -, hud, hu⟩ := PointValues.represents_ofCoefficients hu
  obtain ⟨e, -, hvd, hv⟩ := PointValues.represents_ofCoefficients hv
  obtain ⟨f, -, hwd, hw⟩ := hu.mul hv hw
  exact ⟨w, f, c, hw, by rw [hwd, hud, hvd], hc, (Except.ok.inj h).symm⟩

@[simp] theorem polynomialOf_trimmed (p : Poly k) : polynomialOf p.trimmed = p.toPolynomial :=
  polynomialOf_trimZeros p.coeffs

/-- The lists have no trailing zeros, so the product has exactly the coefficients that are kept. -/
theorem length_trimmed_add (hp : p.toPolynomial ≠ 0) (hq : q.toPolynomial ≠ 0) :
    p.trimmed.length + q.trimmed.length - 1 = (p.toPolynomial * q.toPolynomial).natDegree + 1 := by
  rw [length_trimmed hp, length_trimmed hq, Polynomial.natDegree_mul hp hq]
  omega

theorem toPolynomial_mulByValues (hp : p.toPolynomial ≠ 0) (hq : q.toPolynomial ≠ 0)
    (h : mulByValues p.trimmed q.trimmed = .ok r) :
    r.toPolynomial = p.toPolynomial * q.toPolynomial := by
  obtain ⟨u, d, c, hu, -, hc, rfl⟩ := represents_of_mulByValues h
  have hprod : c.toPolynomial = p.toPolynomial * q.toPolynomial := by
    rw [hu.toPolynomial hc, polynomialOf_trimmed, polynomialOf_trimmed]
  rw [← hprod, length_trimmed_add hp hq, ← hprod]
  exact polynomialOf_take
    (Polynomial.degree_le_natDegree.trans_lt (by exact_mod_cast Nat.lt_succ_self _))

/-- **The product** represents the product. -/
theorem toPolynomial_mul (h : p.mul q = .ok r) :
    r.toPolynomial = p.toPolynomial * q.toPolynomial := by
  rw [mul_eq] at h
  simp only [trimmed_isEmpty_or_iff] at h
  split at h
  · next hzero =>
      obtain rfl := Except.ok.inj h
      rcases hzero with hp | hq
      · rw [hp, zero_mul, toPolynomial_zero]
      · rw [hq, mul_zero, toPolynomial_zero]
  · next hzero =>
      rw [not_or] at hzero
      split at h
      · obtain rfl := Except.ok.inj h
        rw [toPolynomial, polynomialOf_convolve, polynomialOf_trimmed, polynomialOf_trimmed]
      · exact toPolynomial_mulByValues hzero.1 hzero.2 h

theorem powDigits_succ (digits n : Nat) (acc base : Poly k) :
    powDigits (digits + 1) acc base n =
      (if n % 2 = 1 then acc.mul base else .ok acc) >>= fun acc =>
        if n / 2 = 0 then .ok acc
        else base.mul base >>= fun square => powDigits digits acc square (n / 2) := by
  rw [powDigits]
  split <;> rfl

theorem toPolynomial_powDigits {digits n : Nat} {acc base : Poly k}
    (h : powDigits digits acc base n = .ok r) (hn : n < 2 ^ digits) :
    r.toPolynomial = acc.toPolynomial * base.toPolynomial ^ n := by
  induction digits generalizing acc base n with
  | zero =>
      obtain rfl := Except.ok.inj h
      obtain rfl : n = 0 := by simpa using hn
      rw [pow_zero, mul_one]
  | succ digits ih =>
      -- The lowest digit says whether the base is multiplied in; the others are left to its square.
      rw [powDigits_succ] at h
      obtain ⟨acc', hacc, h⟩ := bind_eq_ok.mp h
      have hacc' : acc'.toPolynomial = acc.toPolynomial * base.toPolynomial ^ (n % 2) := by
        split at hacc
        · next hodd => rw [toPolynomial_mul hacc, hodd, pow_one]
        · next heven =>
            obtain rfl := Except.ok.inj hacc
            rw [show n % 2 = 0 by omega, pow_zero, mul_one]
      split at h
      · next hlast =>
          obtain rfl := Except.ok.inj h
          rw [hacc', show n % 2 = n by omega]
      · obtain ⟨square, hsquare, h⟩ := bind_eq_ok.mp h
        have hhalf : n / 2 < 2 ^ digits := by rw [pow_succ] at hn; omega
        rw [ih h hhalf, hacc', toPolynomial_mul hsquare, ← pow_two, ← pow_mul, mul_assoc, ← pow_add,
          Nat.mod_add_div]

/-- **The power** represents the power. -/
theorem toPolynomial_pow {n : Nat} (h : p.pow n = .ok r) :
    r.toPolynomial = p.toPolynomial ^ n := by
  rw [toPolynomial_powDigits h Nat.lt_log2_self, toPolynomial_constant, map_one, one_mul]

end Plonkish.Poly

end
