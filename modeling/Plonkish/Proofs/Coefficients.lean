import Mathlib.Algebra.Polynomial.Eval.Degree
import Mathlib.Data.List.DropRight
import Plonkish.Poly.Product
import Plonkish.Proofs.Field

/-!
# Proofs — coefficient lists as polynomials

`polynomialOf l` is the polynomial whose coefficients are the entries of `l`, lowest degree first.
The operations on lists are those on polynomials:

* evaluation (`eval_polynomialOf`), multiples, negation, sums and differences entry by entry
  (`coeff_polynomialOf_map`, `coeff_polynomialOf_zipLong`), products (`polynomialOf_convolve`);
* trailing zeros do not count (`polynomialOf_trimZeros`), and two lists have the same polynomial
  exactly if they agree without them (`polynomialOf_eq_iff`);
* multiplying entry `i` by `w ^ i` substitutes `w * x` (`polynomialOf_zipWith_geometric`).
-/

noncomputable section

namespace Plonkish

open Polynomial (C X)

variable {k : BaseField}

/-- The polynomial with the given coefficients, lowest degree first. -/
def polynomialOf : List (Felt k) → Polynomial (Felt k)
  | [] => 0
  | a :: l => C a + X * polynomialOf l

@[simp] theorem polynomialOf_nil : polynomialOf ([] : List (Felt k)) = 0 := rfl

theorem polynomialOf_cons (a : Felt k) (l : List (Felt k)) :
    polynomialOf (a :: l) = C a + X * polynomialOf l := rfl

theorem polynomialOf_singleton (a : Felt k) : polynomialOf [a] = C a := by
  rw [polynomialOf_cons, polynomialOf_nil, mul_zero, add_zero]

/-- The coefficients of the polynomial are the entries of the list, and zero past its end. -/
@[simp] theorem coeff_polynomialOf (l : List (Felt k)) (i : Nat) :
    (polynomialOf l).coeff i = l[i]?.getD 0 := by
  induction l generalizing i with
  | nil => simp
  | cons a l ih => cases i <;> simp [polynomialOf_cons, Polynomial.coeff_C, ih]

/-- Horner's rule. -/
theorem eval_polynomialOf (l : List (Felt k)) (x : Felt k) :
    (polynomialOf l).eval x = Poly.evaluate ⟨l⟩ x := by
  induction l with
  | nil => simp [Poly.evaluate]
  | cons a l ih =>
      have hstep : Poly.evaluate ⟨a :: l⟩ x = Poly.evaluate ⟨l⟩ x * x + a := rfl
      rw [polynomialOf_cons, hstep, ← ih]
      simp only [Polynomial.eval_add, Polynomial.eval_C, Polynomial.eval_mul, Polynomial.eval_X]
      ring

/-- Two lists of the same length are equal if their polynomials are. -/
theorem eq_of_polynomialOf_eq {l m : List (Felt k)} (hlen : l.length = m.length)
    (h : polynomialOf l = polynomialOf m) : l = m := by
  refine List.ext_getElem hlen fun i hl hm => ?_
  have hi : (polynomialOf l).coeff i = (polynomialOf m).coeff i := by rw [h]
  rwa [coeff_polynomialOf, coeff_polynomialOf, List.getElem?_eq_getElem hl,
    List.getElem?_eq_getElem hm] at hi

/-- The degree is below the length. -/
theorem degree_polynomialOf_lt (l : List (Felt k)) : (polynomialOf l).degree < l.length := by
  rw [Polynomial.degree_lt_iff_coeff_zero]
  intro i hi
  rw [coeff_polynomialOf, List.getElem?_eq_none hi, Option.getD_none]

theorem natDegree_polynomialOf_lt {l : List (Felt k)} (h : l ≠ []) :
    (polynomialOf l).natDegree < l.length := by
  by_cases hz : polynomialOf l = 0
  · rw [hz, Polynomial.natDegree_zero]
    exact List.length_pos_iff.mpr h
  · exact (Polynomial.natDegree_lt_iff_degree_lt hz).mpr (degree_polynomialOf_lt l)

/-- A list put after another one is shifted up by the first one's length. -/
theorem polynomialOf_append (l m : List (Felt k)) :
    polynomialOf (l ++ m) = polynomialOf l + X ^ l.length * polynomialOf m := by
  induction l with
  | nil => simp
  | cons a l ih =>
      rw [List.cons_append, polynomialOf_cons, ih, polynomialOf_cons, List.length_cons, pow_succ']
      ring

@[simp] theorem polynomialOf_replicate (n : Nat) :
    polynomialOf (List.replicate n (0 : Felt k)) = 0 := by
  ext i
  simp only [coeff_polynomialOf, Polynomial.coeff_zero, List.getElem?_replicate]
  split <;> rfl

/-- Cutting a list off above the degree of its polynomial changes nothing. -/
theorem polynomialOf_take {l : List (Felt k)} {n : Nat} (h : (polynomialOf l).degree < n) :
    polynomialOf (l.take n) = polynomialOf l := by
  ext i
  rw [coeff_polynomialOf, List.getElem?_take]
  split
  · rw [coeff_polynomialOf]
  · next hi =>
      rw [(Polynomial.degree_lt_iff_coeff_zero _ _).mp h i (not_lt.mp hi), Option.getD_none]

/-- Bringing a list to a length above the degree of its polynomial changes nothing. -/
theorem polynomialOf_fit {l : List (Felt k)} {n : Nat} (h : (polynomialOf l).degree < n) :
    polynomialOf (fit n l) = polynomialOf l := by
  rw [fit, polynomialOf_append, polynomialOf_replicate, mul_zero, add_zero, polynomialOf_take h]

/-! ### Operations entry by entry -/

/-- A function that keeps zero acts on the coefficients one by one. -/
theorem coeff_polynomialOf_map {f : Felt k → Felt k} (hf : f 0 = 0) (l : List (Felt k)) (i : Nat) :
    (polynomialOf (l.map f)).coeff i = f ((polynomialOf l).coeff i) := by
  rw [coeff_polynomialOf, coeff_polynomialOf, List.getElem?_map]
  cases l[i]? with
  | none => exact hf.symm
  | some a => rfl

/-- A function that keeps zero acts on the coefficients of two lists pairwise, the shorter list
counting as zero past its end. -/
theorem coeff_polynomialOf_zipLong {f : Felt k → Felt k → Felt k} (hf : f 0 0 = 0)
    (l m : List (Felt k)) (i : Nat) :
    (polynomialOf (Poly.zipLong f l m)).coeff i =
      f ((polynomialOf l).coeff i) ((polynomialOf m).coeff i) := by
  simp only [coeff_polynomialOf]
  fun_induction Poly.zipLong f l m generalizing i with
  | case1 m =>
      rw [List.getElem?_map]
      cases m[i]? with
      | none => exact hf.symm
      | some b => rfl
  | case2 l h =>
      rw [List.getElem?_map]
      cases l[i]? with
      | none => exact hf.symm
      | some a => rfl
  | case3 a l b m ih =>
      cases i with
      | zero => rfl
      | succ i => simpa using ih i

theorem polynomialOf_scale (l : List (Felt k)) (c : Felt k) :
    polynomialOf (l.map (· * c)) = polynomialOf l * C c := by
  ext i
  rw [coeff_polynomialOf_map (f := (· * c)) (zero_mul c), Polynomial.coeff_mul_C]

theorem polynomialOf_neg (l : List (Felt k)) : polynomialOf (l.map (- ·)) = -polynomialOf l := by
  ext i
  rw [coeff_polynomialOf_map (f := (- ·)) neg_zero, Polynomial.coeff_neg]

theorem polynomialOf_add (l m : List (Felt k)) :
    polynomialOf (Poly.zipLong (· + ·) l m) = polynomialOf l + polynomialOf m := by
  ext i
  rw [coeff_polynomialOf_zipLong (f := (· + ·)) (add_zero 0), Polynomial.coeff_add]

theorem polynomialOf_sub (l m : List (Felt k)) :
    polynomialOf (Poly.zipLong (· - ·) l m) = polynomialOf l - polynomialOf m := by
  ext i
  rw [coeff_polynomialOf_zipLong (f := (· - ·)) (sub_zero 0), Polynomial.coeff_sub]

/-- The schoolbook product of two lists is the product of their polynomials. -/
theorem polynomialOf_convolve (l m : List (Felt k)) :
    polynomialOf (Poly.convolve l m) = polynomialOf l * polynomialOf m := by
  induction l with
  | nil => rw [Poly.convolve, polynomialOf_nil, zero_mul]
  | cons a l ih =>
      have hscale : polynomialOf (m.map (a * ·)) = polynomialOf m * C a := by
        rw [← polynomialOf_scale]
        simp only [mul_comm]
      rw [Poly.convolve, polynomialOf_add, hscale, polynomialOf_cons 0, ih, polynomialOf_cons,
        map_zero]
      ring

/-! ### Geometric sequences -/

/-- A geometric run, computed by repeated multiplication, holds the powers of its ratio. -/
theorem geometric_eq_map (w start : Felt k) (n : Nat) :
    Felt.geometric w start n = (List.range n).map fun i => start * w ^ i := by
  induction n generalizing start with
  | zero => rfl
  | succ n ih =>
      rw [Felt.geometric, ih, List.range_succ_eq_map, List.map_cons, pow_zero, mul_one,
        List.map_map]
      congr 1
      refine List.map_congr_left ?_
      intro i _
      rw [Function.comp_apply, Nat.succ_eq_add_one, pow_succ']
      ring

/-- Multiplying the entries by the powers of `w` substitutes `w * x`. -/
theorem polynomialOf_zipWith_geometric (l : List (Felt k)) (w : Felt k) :
    polynomialOf (List.zipWith (· * ·) l (w.geometric 1 l.length)) =
      (polynomialOf l).comp (C w * X) := by
  ext i
  rw [coeff_polynomialOf, Polynomial.comp_C_mul_X_coeff, coeff_polynomialOf,
    List.getElem?_zipWith, geometric_eq_map, List.getElem?_map]
  by_cases hi : i < l.length
  · rw [List.getElem?_eq_getElem hi, List.getElem?_range hi]
    simp
  · rw [List.getElem?_eq_none (not_lt.mp hi)]
    simp

/-! ### Trailing zeros -/

theorem trimZeros_eq (l : List (Felt k)) : trimZeros l = l.rdropWhile (· = 0) := rfl

@[simp] theorem polynomialOf_trimZeros (l : List (Felt k)) :
    polynomialOf (trimZeros l) = polynomialOf l := by
  induction l using List.reverseRecOn with
  | nil => rfl
  | append_singleton l a ih =>
      rw [trimZeros_eq, List.rdropWhile_concat]
      split
      · next ha =>
          have ha : a = 0 := of_decide_eq_true ha
          rw [← trimZeros_eq, ih, polynomialOf_append, polynomialOf_singleton, ha, map_zero,
            mul_zero, add_zero]
      · rfl

/-- A list without trailing zeros ends in the leading coefficient. -/
theorem length_trimZeros (l : List (Felt k)) :
    (trimZeros l).length = if polynomialOf l = 0 then 0 else (polynomialOf l).natDegree + 1 := by
  by_cases hnil : trimZeros l = []
  · have hz : polynomialOf l = 0 := by rw [← polynomialOf_trimZeros, hnil, polynomialOf_nil]
    rw [if_pos hz, hnil, List.length_nil]
  · have hlast : (trimZeros l).getLast hnil ≠ 0 := by
      have := List.rdropWhile_last_not (fun a : Felt k => decide (a = 0)) l hnil
      exact fun h => this (decide_eq_true h)
    have hpos := List.length_pos_iff.mpr hnil
    -- The last entry that is left is a coefficient that does not vanish, and there are none above.
    have hcoeff : (polynomialOf l).coeff ((trimZeros l).length - 1) ≠ 0 := by
      rw [← polynomialOf_trimZeros, coeff_polynomialOf,
        List.getElem?_eq_getElem (by omega), Option.getD_some, ← List.getLast_eq_getElem hnil]
      exact hlast
    have hz : polynomialOf l ≠ 0 := fun h => hcoeff (by rw [h, Polynomial.coeff_zero])
    have hle : (trimZeros l).length - 1 ≤ (polynomialOf l).natDegree :=
      Polynomial.le_natDegree_of_ne_zero hcoeff
    have hlt : (polynomialOf l).natDegree < (trimZeros l).length := by
      rw [← polynomialOf_trimZeros]
      exact natDegree_polynomialOf_lt hnil
    rw [if_neg hz]
    omega

/-- Only the zero polynomial loses all of its coefficients. -/
theorem trimZeros_eq_nil_iff {l : List (Felt k)} : trimZeros l = [] ↔ polynomialOf l = 0 := by
  rw [← List.length_eq_zero_iff, length_trimZeros]
  split <;> simp_all

/-- The place of the last nonzero entry is the degree. -/
theorem lastNonzero_eq (l : List (Felt k)) : lastNonzero l = (polynomialOf l).natDegree := by
  rw [lastNonzero, length_trimZeros]
  split
  · next h => rw [h, Polynomial.natDegree_zero]
  · rfl

/-- **Equality up to trailing zeros** is equality of polynomials. -/
theorem polynomialOf_eq_iff {l m : List (Felt k)} :
    polynomialOf l = polynomialOf m ↔ trimZeros l = trimZeros m := by
  constructor
  · intro h
    refine eq_of_polynomialOf_eq ?_ ?_
    · rw [length_trimZeros, length_trimZeros, h]
    · rw [polynomialOf_trimZeros, polynomialOf_trimZeros, h]
  · intro h
    rw [← polynomialOf_trimZeros l, h, polynomialOf_trimZeros]

/-! ### Polynomials in coefficient form -/

namespace Poly

/-- The polynomial with the coefficients of `p`. -/
def toPolynomial (p : Poly k) : Polynomial (Felt k) := polynomialOf p.coeffs

/-- Horner's rule evaluates the polynomial. -/
theorem evaluate_eq (p : Poly k) (x : Felt k) : p.evaluate x = p.toPolynomial.eval x :=
  (eval_polynomialOf p.coeffs x).symm

/-- Two lists are equal up to trailing zeros exactly when they are one polynomial. -/
theorem equiv_iff {p q : Poly k} : p.Equiv q ↔ p.toPolynomial = q.toPolynomial :=
  polynomialOf_eq_iff.symm

/-- The degree is that of the polynomial. -/
theorem degree_eq (p : Poly k) : p.degree = p.toPolynomial.natDegree := lastNonzero_eq p.coeffs

/-- The test for zero, which looks at every coefficient, tells the zero polynomial. -/
theorem isZero_iff {p : Poly k} : p.isZero = true ↔ p.toPolynomial = 0 := by
  rw [isZero, List.all_eq_true]
  constructor
  · refine fun h => Polynomial.ext fun i => ?_
    rw [toPolynomial, coeff_polynomialOf, Polynomial.coeff_zero]
    cases hi : p.coeffs[i]? with
    | none => rfl
    | some a => exact of_decide_eq_true (h a (List.mem_of_getElem? hi))
  · intro h a ha
    obtain ⟨i, hi⟩ := List.mem_iff_getElem?.mp ha
    have hcoeff : (polynomialOf p.coeffs).coeff i = 0 := by
      rw [← toPolynomial, h, Polynomial.coeff_zero]
    rw [coeff_polynomialOf, hi, Option.getD_some] at hcoeff
    exact decide_eq_true hcoeff

@[simp] theorem toPolynomial_zero : (zero : Poly k).toPolynomial = 0 := rfl

@[simp] theorem toPolynomial_constant (c : Felt k) : (constant c).toPolynomial = C c :=
  polynomialOf_singleton c

@[simp] theorem toPolynomial_scale (p : Poly k) (c : Felt k) :
    (p.scale c).toPolynomial = p.toPolynomial * C c :=
  polynomialOf_scale p.coeffs c

@[simp] theorem toPolynomial_add (p q : Poly k) :
    (p + q).toPolynomial = p.toPolynomial + q.toPolynomial :=
  polynomialOf_add p.coeffs q.coeffs

@[simp] theorem toPolynomial_sub (p q : Poly k) :
    (p - q).toPolynomial = p.toPolynomial - q.toPolynomial :=
  polynomialOf_sub p.coeffs q.coeffs

@[simp] theorem toPolynomial_neg (p : Poly k) : (-p).toPolynomial = -p.toPolynomial :=
  polynomialOf_neg p.coeffs

/-- A rotation substitutes a scaled variable. -/
@[simp] theorem toPolynomial_rotated (p : Poly k) (rotation : Int) (d : Domain k) :
    (p.rotated rotation d).toPolynomial =
      p.toPolynomial.comp (C (d.rotationFactor rotation) * X) :=
  polynomialOf_zipWith_geometric p.coeffs (d.rotationFactor rotation)

end Poly

end Plonkish

end
