import Mathlib.AlgebraicGeometry.EllipticCurve.Affine.Point
import Plonkish.Proofs.PointAddition

/-!
# Proofs — the group of a curve

If `b` is not zero, the curve `y ^ 2 = x ^ 3 + b` is elliptic over both fields: neither two nor
three is zero, so the discriminant is not.  Its points are a group, and `Point.add` is the addition
of this group.

`Point.ofGroup` gives the coordinates of an element of the group, the origin for zero.  The origin
is not on the curve, so this is a bijection with the points of the curve and the point at infinity
(`ofGroup_injective`, `exists_ofGroup`); by `add_ofGroup` it takes addition to `Point.add`, which
hence always has an answer, and by `ofGroup_neg` negation to `Point.opposite`.

What is known of a group is then known of `Point.add`:

* `add_on_curve`: sums are on the curve, do not depend on the order, have a neutral element, and are
  at infinity for opposite points only;
* `add_associative`: three points can be added in either way.
-/

namespace Plonkish.Point

open WeierstrassCurve

variable {k : BaseField} {p q r : Point k} {b : Felt k}

/-- The point with the opposite `y`. -/
def opposite (p : Point k) : Point k := ⟨p.x, -p.y⟩

/-! ### The curve -/

/-- The curve `y ^ 2 = x ^ 3 + b`. -/
def curve (b : Felt k) : Affine (Felt k) := ⟨0, 0, 0, 0, b⟩

theorem negY_curve (x y : Felt k) : (curve b).negY x y = -y := by
  simp [curve]

theorem addX_curve (x x' s : Felt k) : (curve b).addX x x' s = s ^ 2 - x - x' := by
  simp [curve, Affine.addX]

theorem addY_curve (x x' y s : Felt k) :
    (curve b).addY x x' y s = s * (x - (s ^ 2 - x - x')) - y := by
  rw [Affine.addY, negY_curve, Affine.negAddY, addX_curve]
  ring

theorem equation_curve {x y : Felt k} : (curve b).Equation x y ↔ y ^ 2 = x ^ 3 + b := by
  rw [Affine.equation_iff]
  simp [curve]

theorem discriminant_ne_zero (hb : b ≠ 0) : (curve b).Δ ≠ 0 := by
  have hdiscriminant : (curve b).Δ = -(2 ^ 4 * 3 ^ 3 * b ^ 2) := by
    simp only [curve, Δ, b₂, b₄, b₆, b₈]
    ring
  have hnumbers : (2 : Felt k) ^ 4 * 3 ^ 3 ≠ 0 :=
    mul_ne_zero (pow_ne_zero 4 Felt.two_ne_zero) (pow_ne_zero 3 Felt.three_ne_zero)
  rw [hdiscriminant, neg_ne_zero]
  exact mul_ne_zero hnumbers (pow_ne_zero 2 hb)

/-- No point of the curve is singular. -/
theorem nonsingular_curve (hb : b ≠ 0) {x y : Felt k} :
    (curve b).Nonsingular x y ↔ y ^ 2 = x ^ 3 + b := by
  rw [← Affine.equation_iff_nonsingular_of_Δ_ne_zero (discriminant_ne_zero hb), equation_curve]

/-- The origin is not on the curve, so that it can stand for the point at infinity. -/
theorem ne_infinity_of_curve (hb : b ≠ 0) (h : p.y ^ 2 = p.x ^ 3 + b) : p ≠ infinity := by
  rintro rfl
  have horigin : (0 : Felt k) ^ 2 = 0 ^ 3 + b := h
  exact hb (by linear_combination -horigin)

/-! ### Coordinates -/

/-- The coordinates of an element of the group, the origin for the neutral one. -/
def ofGroup : (curve b).Point → Point k
  | .zero => infinity
  | .some x y _ => ⟨x, y⟩

theorem lies_ofGroup (P : (curve b).Point) : (ofGroup P).Lies b := by
  cases P with
  | zero => exact .inl rfl
  | some x y h => exact .inr (equation_curve.mp h.left)

theorem exists_ofGroup (hb : b ≠ 0) (hp : p.Lies b) : ∃ P : (curve b).Point, ofGroup P = p := by
  rcases hp with rfl | hcurve
  · exact ⟨0, rfl⟩
  · exact ⟨.some p.x p.y ((nonsingular_curve hb).mpr hcurve), rfl⟩

theorem ofGroup_eq_infinity_iff (hb : b ≠ 0) {P : (curve b).Point} :
    ofGroup P = infinity ↔ P = 0 := by
  cases P with
  | zero => exact iff_of_true rfl rfl
  | some x y h =>
      have hne : (⟨x, y⟩ : Point k) ≠ infinity :=
        ne_infinity_of_curve hb (equation_curve.mp h.left)
      exact iff_of_false hne (Affine.Point.some_ne_zero h)

theorem ofGroup_injective (hb : b ≠ 0) : Function.Injective (ofGroup (b := b)) := by
  intro P Q h
  cases P with
  | zero => exact ((ofGroup_eq_infinity_iff hb).mp h.symm).symm
  | some x y _ =>
      cases Q with
      | zero => exact (ofGroup_eq_infinity_iff hb).mp h
      | some x' y' _ =>
          obtain ⟨rfl, rfl⟩ := Point.mk.inj h
          rfl

theorem ofGroup_neg (P : (curve b).Point) : ofGroup (-P) = (ofGroup P).opposite := by
  cases P with
  | zero => exact (Point.mk.injEq ..).mpr ⟨rfl, neg_zero.symm⟩
  | some x y h => exact (Point.mk.injEq ..).mpr ⟨rfl, negY_curve x y⟩

/-! ### Addition -/

/-- The slope of the line through two points of the curve that are not opposite. -/
theorem slope_eq_curve (hp : p.y ^ 2 = p.x ^ 3 + b) (hq : q.y ^ 2 = q.x ^ 3 + b)
    (hne : ¬ (p.x = q.x ∧ p.y = -q.y)) :
    p.slope q = .ok (some ((curve b).slope p.x q.x p.y q.y)) := by
  by_cases hx : p.x = q.x
  · have hy : p.y ≠ -q.y := fun hy => hne ⟨hx, hy⟩
    have hsame : p.y = q.y := y_eq_of_curve hx hy hp hq
    have hzero : p.y ≠ 0 := fun hzero => hy (by rw [← hsame, hzero, neg_zero])
    have htangent : (curve b).slope p.x q.x p.y q.y = 3 * p.x ^ 2 / (2 * p.y) := by
      rw [Affine.slope_of_Y_ne hx (by rwa [negY_curve]), negY_curve, sub_neg_eq_add, ← two_mul]
      simp [curve]
    rw [htangent]
    exact slope_of_tangent hx hsame hzero (mul_div_cancel₀ _ (mul_ne_zero Felt.two_ne_zero hzero))
  · rw [Affine.slope_of_X_ne hx, ← neg_div_neg_eq, neg_sub, neg_sub]
    exact slope_of_chord hx (div_mul_cancel₀ _ (sub_ne_zero.mpr (Ne.symm hx)))

/-- **Addition is that of the group.** -/
theorem add_ofGroup (hb : b ≠ 0) (P Q : (curve b).Point) :
    (ofGroup P).add (ofGroup Q) = .ok (some (ofGroup (P + Q))) := by
  cases P with
  | zero => exact add_infinity_left _
  | some x y hP =>
      have hp : (⟨x, y⟩ : Point k).y ^ 2 = _ := equation_curve.mp hP.left
      have hpinf := ne_infinity_of_curve hb hp
      cases Q with
      | zero => exact add_infinity_right hpinf
      | some x' y' hQ =>
          have hq : (⟨x', y'⟩ : Point k).y ^ 2 = _ := equation_curve.mp hQ.left
          have hqinf := ne_infinity_of_curve hb hq
          by_cases hopposite : x = x' ∧ y = -y'
          · rw [Affine.Point.add_of_Y_eq hopposite.1 (hopposite.2.trans (negY_curve x' y').symm)]
            exact add_of_opposite hpinf hqinf hopposite.1 hopposite.2
          · rw [Affine.Point.add_some (by rwa [negY_curve])]
            show (⟨x, y⟩ : Point k).add ⟨x', y'⟩ = .ok (some ⟨_, _⟩)
            refine add_of_slope hpinf hqinf hopposite (slope_eq_curve hp hq hopposite) ?_ ?_
            · rw [addX_curve]
              ring
            · rw [addX_curve, addY_curve]
              ring

/-- **Adding two points of a curve** always has an answer, the same in either order, which is a
point of the curve again; no slope divides by zero.  The sum is the point at infinity exactly if the
points are opposite, and the point at infinity is neutral. -/
theorem add_on_curve (hb : b ≠ 0) (hp : p.Lies b) (hq : q.Lies b) :
    (∃ r, p.add q = .ok (some r) ∧ q.add p = .ok (some r) ∧ r.Lies b ∧
      (r = infinity ↔ q = p.opposite)) ∧
    p.add infinity = .ok (some p) ∧ infinity.add p = .ok (some p) ∧
    p.add p.opposite = .ok (some infinity) := by
  obtain ⟨P, rfl⟩ := exists_ofGroup hb hp
  obtain ⟨Q, rfl⟩ := exists_ofGroup hb hq
  refine ⟨⟨ofGroup (P + Q), add_ofGroup hb P Q, ?_, lies_ofGroup _, ?_⟩, ?_, ?_, ?_⟩
  · rw [add_ofGroup hb, add_comm]
  · rw [ofGroup_eq_infinity_iff hb, ← ofGroup_neg, (ofGroup_injective hb).eq_iff, add_comm,
      add_eq_zero_iff_eq_neg]
  · have hzero := add_ofGroup hb P 0
    rwa [add_zero] at hzero
  · exact add_infinity_left _
  · have hneg := add_ofGroup hb P (-P)
    rwa [ofGroup_neg, add_neg_cancel] at hneg

/-- A point with `y = 0` is its own opposite, and one with `x = 0` is not at infinity. -/
theorem add_on_curve_order_two :
    (⟨-1, 0⟩ : Point .goldilocks).add ⟨-1, 0⟩ = .ok (some infinity) ∧
    (⟨0, 1⟩ : Point .goldilocks).Lies 1 ∧ (⟨-1, 0⟩ : Point .goldilocks).Lies 1 ∧
    ∃ r, (⟨0, 1⟩ : Point .goldilocks).add ⟨-1, 0⟩ = .ok (some r) ∧ r.Lies 1 ∧ r ≠ infinity := by
  have hb : (1 : Felt .goldilocks) ≠ 0 := by decide
  have hp : (⟨0, 1⟩ : Point .goldilocks).Lies 1 := by decide
  have hq : (⟨-1, 0⟩ : Point .goldilocks).Lies 1 := by decide
  have hself : (⟨-1, 0⟩ : Point .goldilocks).opposite = ⟨-1, 0⟩ := by decide
  obtain ⟨-, -, -, hopposite⟩ := add_on_curve hb hq hq
  obtain ⟨⟨r, hadd, -, hr, hinfinity⟩, -⟩ := add_on_curve hb hp hq
  exact ⟨hself ▸ hopposite, hp, hq, r, hadd, hr, fun h => absurd (hinfinity.mp h) (by decide)⟩

/-- **Adding three points of a curve** has an answer, and does not depend on which two are added
first. -/
theorem add_associative (hb : b ≠ 0) (hp : p.Lies b) (hq : q.Lies b) (hr : r.Lies b) :
    ∃ s t u, p.add q = .ok (some s) ∧ q.add r = .ok (some t) ∧ s.add r = .ok (some u) ∧
      p.add t = .ok (some u) := by
  obtain ⟨P, rfl⟩ := exists_ofGroup hb hp
  obtain ⟨Q, rfl⟩ := exists_ofGroup hb hq
  obtain ⟨R, rfl⟩ := exists_ofGroup hb hr
  refine ⟨ofGroup (P + Q), ofGroup (Q + R), ofGroup (P + Q + R), add_ofGroup hb P Q,
    add_ofGroup hb Q R, add_ofGroup hb (P + Q) R, ?_⟩
  rw [add_assoc]
  exact add_ofGroup hb P (Q + R)

/-- Twice `(2, 3)` is `(0, 1)`, and three times is `(-1, 0)`. -/
theorem add_associative_double :
    ∃ u, (⟨0, 1⟩ : Point .goldilocks).add ⟨0, 1⟩ = .ok (some u) ∧
      (⟨2, 3⟩ : Point .goldilocks).add ⟨-1, 0⟩ = .ok (some u) := by
  have hb : (1 : Felt .goldilocks) ≠ 0 := by decide
  have hp : (⟨2, 3⟩ : Point .goldilocks).Lies 1 := by decide
  have hq : (⟨0, 1⟩ : Point .goldilocks).Lies 1 := by decide
  have hdouble : (⟨2, 3⟩ : Point .goldilocks).add ⟨2, 3⟩ = .ok (some ⟨0, 1⟩) := by decide +kernel
  have htriple : (⟨2, 3⟩ : Point .goldilocks).add ⟨0, 1⟩ = .ok (some ⟨-1, 0⟩) :=
    by decide +kernel
  obtain ⟨s, t, u, hs, ht, hsu, htu⟩ := add_associative hb hp hp hq
  obtain rfl := Option.some.inj (Except.ok.inj (hdouble.symm.trans hs))
  obtain rfl := Option.some.inj (Except.ok.inj (htriple.symm.trans ht))
  exact ⟨u, hsu, htu⟩

end Plonkish.Point
