import Mathlib.Algebra.Field.GeomSum
import Mathlib.LinearAlgebra.Lagrange
import Plonkish.Proofs.Coefficients

/-!
# Proofs — the Fourier transform

The points of a domain are the powers of its generator `omega`, a primitive root of unity
(`Domain.isPrimitiveRoot_omega`), so they are pairwise different and depend on the exponent modulo
the size only.

* `fourier_eq`: the transform evaluates the polynomial with the given coefficients at the powers of
  the root.  Halving the list halves the exponents, and the second half of the powers is the
  negative of the first.
* `Domain.forward_eq`: transforming forward is evaluating over the domain.
* `Domain.polynomialOf_backward`: transforming backward recovers a polynomial of degree below the
  size from its values.  The values at the powers of `omega⁻¹` sum up to the values one started from
  since the powers of a root other than one sum up to zero (`Domain.sum_element_pow`).
-/

noncomputable section

namespace Plonkish

open Polynomial (C X)

variable {k : BaseField}

/-! ### Domains -/

namespace Domain

theorem size_eq (d : Domain k) : d.size = 2 ^ d.log := Nat.one_shiftLeft d.log

/-- The generator of a domain has exactly the order of the domain. -/
theorem isPrimitiveRoot_omega (d : Domain k) : IsPrimitiveRoot d.omega d.size := by
  rw [size_eq]
  exact BaseField.isPrimitiveRoot_generator d.log_le

theorem omega_pow_size (d : Domain k) : d.omega ^ d.size = 1 := d.isPrimitiveRoot_omega.pow_eq_one

theorem omega_ne_zero (d : Domain k) : d.omega ≠ 0 :=
  d.isPrimitiveRoot_omega.ne_zero d.size_pos.ne'

theorem element_eq (d : Domain k) (i : Nat) : d.element i = d.omega ^ i :=
  (pow_eq_pow_mod i d.omega_pow_size).symm

/-- The elements of a domain are distinct. -/
theorem element_injOn (d : Domain k) :
    Set.InjOn d.element (Finset.range d.size : Set Nat) := by
  intro i hi j hj h
  rw [element_eq, element_eq] at h
  exact d.isPrimitiveRoot_omega.pow_inj (Finset.mem_range.mp hi) (Finset.mem_range.mp hj) h

/-- The list of a domain's elements, computed by repeated multiplication, is the powers of its
generator in order. -/
theorem elements_eq_map (d : Domain k) : d.elements = (List.range d.size).map d.element := by
  rw [elements, geometric_eq_map]
  exact List.map_congr_left fun i _ => by rw [one_mul, element_eq]

/-- A rotation multiplies by an integer power of the generator, a negative one included. -/
theorem rotationFactor_eq (d : Domain k) (rotation : Int) :
    d.rotationFactor rotation = d.omega ^ rotation := by
  have hpos : (0 : Int) < d.size := by exact_mod_cast d.size_pos
  have hnonneg : 0 ≤ rotation % d.size := Int.emod_nonneg _ hpos.ne'
  have hpow : d.omega ^ (d.size : Int) = 1 := by rw [zpow_natCast, d.omega_pow_size]
  rw [rotationFactor, element_eq, ← zpow_natCast, Int.toNat_of_nonneg hnonneg]
  conv_rhs => rw [← Int.emod_add_mul_ediv rotation d.size]
  rw [zpow_add₀ d.omega_ne_zero, zpow_mul, hpow, one_zpow, mul_one]

/-- Turning a point moves it on by the rotation, around the domain. -/
theorem rotationFactor_mul_element (d : Domain k) (rotation : Int) (i : Nat) :
    d.rotationFactor rotation * d.element i = d.element ((i + rotation) % d.size).toNat := by
  have hturn := d.rotationFactor_eq (i + rotation)
  rw [rotationFactor] at hturn
  rw [hturn, d.rotationFactor_eq, element_eq, ← zpow_natCast, ← zpow_add₀ d.omega_ne_zero,
    add_comm]

theorem size_le_order (d : Domain k) : d.size < k.order := by
  have hlog := d.log_le
  have hle : d.size ≤ 2 ^ k.twoAdicity := by
    rw [size_eq]
    exact Nat.pow_le_pow_right Nat.zero_lt_two hlog
  have hlt : 2 ^ k.twoAdicity < k.order := by cases k <;> decide
  exact hle.trans_lt hlt

/-- The size of a domain is invertible, as the backward transform needs. -/
theorem size_ne_zero (d : Domain k) : (d.size : Felt k) ≠ 0 := by
  rw [ne_eq, Felt.ofNat_eq_zero_iff]
  exact Nat.not_dvd_of_pos_of_lt d.size_pos d.size_le_order

theorem ofSize_size (d : Domain k) : ofSize k d.size = .ok d := by
  have hlog : d.size.log2 = d.log := by rw [size_eq, Nat.log2_two_pow]
  have hpower : Count.IsPowerOfTwo d.size := by rw [Count.IsPowerOfTwo, hlog]; rfl
  rw [ofSize, if_neg (not_not.mpr hpower), dif_pos (hlog ▸ d.log_le)]
  congr 2

theorem ofLength_size (d : Domain k) : ofLength k d.size = .ok d := by
  rw [ofLength, ofSize_size]
  rfl

/-- A list has a domain only of its own length. -/
theorem size_of_ofLength {n : Nat} {d : Domain k} (h : ofLength k n = .ok d) : d.size = n := by
  unfold ofLength at h
  cases hs : ofSize k n with
  | error f => rw [hs] at h; cases h
  | ok e =>
      rw [hs] at h
      cases h
      exact size_of_ofSize hs

/-- A domain is known by its size. -/
theorem size_injective {d e : Domain k} (h : d.size = e.size) : d = e := by
  have hd := d.ofSize_size
  rw [h, e.ofSize_size] at hd
  cases hd
  rfl

end Domain

/-! ### The transform -/

theorem splitEvenOdd_cons_cons (a b : Felt k) (l : List (Felt k)) :
    splitEvenOdd (a :: b :: l) = (a :: (splitEvenOdd l).1, b :: (splitEvenOdd l).2) := rfl

/-- The two halves of an even length are equally long. -/
theorem length_splitEvenOdd {l : List (Felt k)} {n : Nat} (h : l.length = 2 * n) :
    (splitEvenOdd l).1.length = n ∧ (splitEvenOdd l).2.length = n := by
  induction n generalizing l with
  | zero =>
      obtain rfl := List.length_eq_zero_iff.mp h
      exact ⟨rfl, rfl⟩
  | succ n ih =>
      obtain ⟨a, l', rfl⟩ := List.exists_cons_of_length_eq_add_one (n := 2 * n + 1) (by omega)
      rw [List.length_cons] at h
      obtain ⟨b, m, rfl⟩ := List.exists_cons_of_length_eq_add_one (l := l') (n := 2 * n) (by omega)
      rw [List.length_cons] at h
      obtain ⟨he, ho⟩ := ih (l := m) (by omega)
      rw [splitEvenOdd_cons_cons]
      exact ⟨by rw [List.length_cons, he], by rw [List.length_cons, ho]⟩

/-- A polynomial at `x` from its even and its odd part at `x ^ 2`. -/
theorem eval_splitEvenOdd (l : List (Felt k)) (x : Felt k) :
    (polynomialOf l).eval x = (polynomialOf (splitEvenOdd l).1).eval (x ^ 2) +
      x * (polynomialOf (splitEvenOdd l).2).eval (x ^ 2) := by
  fun_induction splitEvenOdd l with
  | case1 => simp
  | case2 a => simp [polynomialOf_singleton]
  | case3 a b l evens odds hsplit ih =>
      rw [hsplit] at ih
      simp only [polynomialOf_cons, Polynomial.eval_add, Polynomial.eval_C, Polynomial.eval_mul,
        Polynomial.eval_X, ih]
      ring

theorem geometric_square (w : Felt k) (n : Nat) :
    w.square.geometric 1 n = (w.geometric 1 n).map (· ^ 2) := by
  rw [geometric_eq_map, geometric_eq_map, List.map_map]
  refine List.map_congr_left ?_
  intro i _
  rw [Function.comp_apply, Felt.square_eq, one_mul, one_mul, ← pow_mul, ← pow_mul, mul_comm]

/-- The second half of the roots is the first half negated. -/
theorem geometric_append_neg {w : Felt k} {n : Nat} (h : w ^ n = -1) :
    w.geometric 1 (n + n) = w.geometric 1 n ++ (w.geometric 1 n).map (- ·) := by
  rw [geometric_eq_map, geometric_eq_map, List.range_add, List.map_append, List.map_map,
    List.map_map]
  refine congrArg _ (List.map_congr_left fun i _ => ?_)
  rw [Function.comp_apply, Function.comp_apply, pow_add, h]
  ring

/-- Half-way round, a primitive root of even order is `-1`. -/
theorem pow_half_eq_neg_one {w : Felt k} {n : Nat} (h : IsPrimitiveRoot w (2 ^ (n + 1))) :
    w ^ 2 ^ n = -1 :=
  (h.pow (by positivity) (pow_succ 2 n)).eq_neg_one_of_two_right

/-- One step of the transform: the halves at the square of the root, put together by the
butterflies. -/
theorem fourier_succ (n : Nat) (w : Felt k) (coeffs : List (Felt k)) :
    fourier (n + 1) w coeffs =
      let values := fourier n w.square (splitEvenOdd coeffs).1
      let twisted := List.zipWith (· * ·) (w.geometric 1 (1 <<< n))
        (fourier n w.square (splitEvenOdd coeffs).2)
      List.zipWith (· + ·) values twisted ++ List.zipWith (· - ·) values twisted := rfl

/-- **The transform evaluates** the polynomial with the given coefficients at the powers of the
root. -/
theorem fourier_eq {n : Nat} {w : Felt k} {coeffs : List (Felt k)}
    (hw : IsPrimitiveRoot w (2 ^ n)) (hlen : coeffs.length = 2 ^ n) :
    fourier n w coeffs = (w.geometric 1 (2 ^ n)).map fun x => (polynomialOf coeffs).eval x := by
  induction n generalizing w coeffs with
  | zero =>
      obtain ⟨a, rfl⟩ := List.length_eq_one_iff.mp hlen
      simp [fourier, geometric_eq_map, polynomialOf_singleton]
  | succ n ih =>
      have hsquare : IsPrimitiveRoot w.square (2 ^ n) := by
        rw [Felt.square_eq]
        exact hw.pow (by positivity) (pow_succ' 2 n)
      obtain ⟨he, ho⟩ := length_splitEvenOdd (hlen.trans (pow_succ' 2 n))
      have hdouble : 2 ^ (n + 1) = 2 ^ n + 2 ^ n := by rw [pow_succ, mul_two]
      -- The points are half of them and their negatives, and both have the same squares.
      rw [fourier_succ, ih hsquare he, ih hsquare ho, Nat.one_shiftLeft, geometric_square, hdouble,
        geometric_append_neg (pow_half_eq_neg_one hw)]
      simp only [List.map_map, List.zipWith_map_right, List.zipWith_map_left, List.zipWith_self,
        List.map_append]
      refine congrArg₂ _ (List.map_congr_left fun x _ => ?_) (List.map_congr_left fun x _ => ?_)
      · rw [eval_splitEvenOdd]
        rfl
      · simp only [Function.comp_apply, eval_splitEvenOdd coeffs (-x), even_two.neg_pow]
        ring

namespace Domain

/-- Transforming forward is evaluating over the domain. -/
theorem forward_eq {d : Domain k} {coeffs : List (Felt k)} (h : coeffs.length = d.size) :
    d.forward coeffs = d.elements.map fun x => (polynomialOf coeffs).eval x := by
  rw [forward, fourier_eq (d.size_eq ▸ d.isPrimitiveRoot_omega) (h.trans d.size_eq), elements,
    size_eq]

/-- The powers of a quotient of two different points sum up to zero. -/
theorem sum_element_pow (d : Domain k) {i j : Nat} (hi : i < d.size) (hj : j < d.size) :
    ∑ l ∈ Finset.range d.size, (d.omega ^ i * d.omega⁻¹ ^ j) ^ l =
      if i = j then (d.size : Felt k) else 0 := by
  split
  · next h =>
      have hinv : d.omega ^ j * d.omega⁻¹ ^ j = 1 := by
        rw [← mul_pow, mul_inv_cancel₀ d.omega_ne_zero, one_pow]
      rw [h, hinv]
      simp
  · next h =>
      have hone : d.omega ^ i * d.omega⁻¹ ^ j ≠ 1 := fun hone => by
        have hpow : d.omega ^ i = d.omega ^ j := by
          rwa [inv_pow, ← div_eq_mul_inv, div_eq_one_iff_eq (pow_ne_zero j d.omega_ne_zero)] at hone
        exact h (d.isPrimitiveRoot_omega.pow_inj hi hj hpow)
      have hsize : (d.omega ^ i * d.omega⁻¹ ^ j) ^ d.size = 1 := by
        rw [mul_pow, ← pow_mul, ← pow_mul, mul_comm i, mul_comm j, pow_mul, pow_mul, inv_pow,
          d.omega_pow_size]
        simp
      rw [geom_sum_eq hone, hsize, sub_self, zero_div]

/-- The backward transform evaluates at the inverse roots and divides by the size. -/
theorem backward_eq {d : Domain k} {values : List (Felt k)} (h : values.length = d.size) :
    d.backward values = (List.range d.size).map fun l =>
      (d.size : Felt k)⁻¹ * (polynomialOf values).eval (d.omega⁻¹ ^ l) := by
  have hroot : IsPrimitiveRoot d.omega⁻¹ (2 ^ d.log) := d.size_eq ▸ d.isPrimitiveRoot_omega.inv
  simp only [backward, Felt.inverse_eq_inv, Felt.ofNat_eq_cast,
    fourier_eq hroot (h.trans d.size_eq), geometric_eq_map, List.map_map, ← d.size_eq]
  exact List.map_congr_left fun l _ => by rw [Function.comp_apply, Function.comp_apply, one_mul]

theorem length_backward {d : Domain k} {values : List (Felt k)} (h : values.length = d.size) :
    (d.backward values).length = d.size := by
  rw [backward_eq h, List.length_map, List.length_range]

theorem eval_eq_sum {l : List (Felt k)} {n : Nat} (h : l.length = n) (hn : 0 < n) (x : Felt k) :
    (polynomialOf l).eval x = ∑ i ∈ Finset.range n, (polynomialOf l).coeff i * x ^ i := by
  refine Polynomial.eval_eq_sum_range' ?_ x
  rw [← h]
  exact natDegree_polynomialOf_lt (List.ne_nil_of_length_pos (h ▸ hn))

/-- The coefficients that transforming backward gives belong to a polynomial with the values one
started from. -/
theorem eval_backward {d : Domain k} {values : List (Felt k)} (h : values.length = d.size) {i : Nat}
    (hi : i < d.size) : (polynomialOf (d.backward values)).eval (d.element i) =
      values[i]?.getD 0 := by
  have hcoeff : ∀ l ∈ Finset.range d.size, (polynomialOf (d.backward values)).coeff l =
      (d.size : Felt k)⁻¹ * (polynomialOf values).eval (d.omega⁻¹ ^ l) := by
    intro l hl
    rw [coeff_polynomialOf, backward_eq h, List.getElem?_map,
      List.getElem?_range (Finset.mem_range.mp hl)]
    rfl
  calc (polynomialOf (d.backward values)).eval (d.element i)
      = ∑ l ∈ Finset.range d.size, (d.size : Felt k)⁻¹ *
          (polynomialOf values).eval (d.omega⁻¹ ^ l) * d.element i ^ l := by
        rw [eval_eq_sum (length_backward h) d.size_pos]
        exact Finset.sum_congr rfl fun l hl => by rw [hcoeff l hl]
    _ = ∑ l ∈ Finset.range d.size, ∑ j ∈ Finset.range d.size, (d.size : Felt k)⁻¹ *
          ((polynomialOf values).coeff j * (d.omega ^ i * d.omega⁻¹ ^ j) ^ l) := by
        refine Finset.sum_congr rfl ?_
        intro l _
        rw [eval_eq_sum h d.size_pos, element_eq, Finset.mul_sum, Finset.sum_mul]
        refine Finset.sum_congr rfl ?_
        intro j _
        rw [mul_pow, ← pow_mul d.omega⁻¹ j l, mul_comm j l, pow_mul]
        ring
    _ = ∑ j ∈ Finset.range d.size, (d.size : Felt k)⁻¹ * ((polynomialOf values).coeff j *
          ∑ l ∈ Finset.range d.size, (d.omega ^ i * d.omega⁻¹ ^ j) ^ l) := by
        rw [Finset.sum_comm]
        simp only [Finset.mul_sum]
    _ = (polynomialOf values).coeff i := by
        -- The inner sums vanish but for the one at the point itself.
        rw [Finset.sum_eq_single_of_mem i (Finset.mem_range.mpr hi)]
        · rw [sum_element_pow d hi hi, if_pos rfl]
          field_simp [d.size_ne_zero]
        · intro j hj hji
          rw [sum_element_pow d hi (Finset.mem_range.mp hj), if_neg (Ne.symm hji), mul_zero,
            mul_zero]
    _ = values[i]?.getD 0 := coeff_polynomialOf values i

/-- Two polynomials of degree below the size that agree over the domain are equal. -/
theorem eq_of_eval_eq {d : Domain k} {P Q : Polynomial (Felt k)} (hP : P.degree < d.size)
    (hQ : Q.degree < d.size) (h : ∀ i < d.size, P.eval (d.element i) = Q.eval (d.element i)) :
    P = Q := by
  refine Polynomial.eq_of_degrees_lt_of_eval_index_eq (Finset.range d.size) d.element_injOn ?_ ?_
    fun i hi => h i (Finset.mem_range.mp hi)
  · rwa [Finset.card_range]
  · rwa [Finset.card_range]

/-- The interpolated polynomial is of a degree below the number of values. -/
theorem degree_backward {d : Domain k} {values : List (Felt k)} (h : values.length = d.size) :
    (polynomialOf (d.backward values)).degree < d.size := by
  have hlt := degree_polynomialOf_lt (d.backward values)
  rwa [length_backward h] at hlt

/-- **Interpolation.**  A polynomial of degree below the size is recovered from its values. -/
theorem polynomialOf_backward {d : Domain k} {P : Polynomial (Felt k)} (hP : P.degree < d.size) :
    polynomialOf (d.backward (d.elements.map fun x => P.eval x)) = P := by
  have hlen : (d.elements.map fun x => P.eval x).length = d.size := by
    rw [List.length_map, length_elements]
  refine eq_of_eval_eq (degree_backward hlen) hP ?_
  intro i hi
  rw [eval_backward hlen hi, elements_eq_map, List.map_map, List.getElem?_map,
    List.getElem?_range hi]
  rfl

/-- The polynomial that takes the given values over the domain. -/
def interpolant (d : Domain k) (values : List (Felt k)) : Polynomial (Felt k) :=
  polynomialOf (d.backward values)

/-- The values of the interpolant are the given ones. -/
theorem map_eval_interpolant {d : Domain k} {values : List (Felt k)} (h : values.length = d.size) :
    (d.elements.map fun x => (d.interpolant values).eval x) = values := by
  rw [elements_eq_map, List.map_map]
  refine List.ext_getElem (by rw [List.length_map, List.length_range, h]) ?_
  intro i hi hv
  have hi : i < d.size := by simpa using hi
  rw [List.getElem_map, List.getElem_range, Function.comp_apply, interpolant, eval_backward h hi,
    List.getElem?_eq_getElem hv, Option.getD_some]

end Domain

end Plonkish

end
