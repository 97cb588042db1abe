import Plonkish.Proofs.PointSoundness

/-!
# Proofs — sums of points on a curve

Every two points of a curve `y ^ 2 = x ^ 3 + b`, the point at infinity among them, have a sum
(`Point.exists_adds`).  `Point.Adds` lists the ways it comes about: one of the points is at
infinity, the points are opposite, or the sum is given by the chord through them or by the tangent.

If `b` is not zero, the sum is one of the points only if the other one is at infinity
(`Point.Adds.eq_infinity_left`, `Point.Adds.eq_infinity_right`).  A chord that gave one of its own
ends would touch the curve there, in a point with `y = 0`; comparing the cubic with the line, this
leaves `3 * x ^ 2 = 0`, and then the curve has `b = 0`.
-/

namespace Plonkish

variable {k : BaseField}

theorem Felt.three_ne_zero : (3 : Felt k) ≠ 0 := by
  have hlt : 3 < k.order := by cases k <;> decide
  have hcast : ((3 : Nat) : Felt k) ≠ 0 := fun h =>
    Nat.not_le_of_lt hlt (Nat.le_of_dvd (Nat.succ_pos 2) ((ofNat_eq_zero_iff 3).mp h))
  exact_mod_cast hcast

namespace Point

variable {p q r : Point k} {b : Felt k}

/-- The point at infinity, or a point of the curve `y ^ 2 = x ^ 3 + b`. -/
def Lies (b : Felt k) (p : Point k) : Prop := p = infinity ∨ p.y ^ 2 = p.x ^ 3 + b

instance (b : Felt k) (p : Point k) : Decidable (p.Lies b) := inferInstanceAs (Decidable (_ ∨ _))

/-- A point of the curve other than infinity solves the equation. -/
theorem Lies.curve (h : p.Lies b) (hp : p ≠ infinity) : p.y ^ 2 = p.x ^ 3 + b := h.resolve_left hp

/-! ### How sums come about -/

/-- The line with slope `s` through two points gives `r` for their sum. -/
def OnLine (p q r : Point k) (s : Felt k) : Prop :=
  s * s - p.x - q.x - r.x = 0 ∧ s * (p.x - r.x) - p.y - r.y = 0

/-- How `r` comes about as the sum of two points. -/
inductive Adds (p q r : Point k) : Prop where
  /-- The first point is at infinity. -/
  | left (hp : p = infinity) (hr : r = q)
  /-- The second point is at infinity. -/
  | right (hp : p ≠ infinity) (hq : q = infinity) (hr : r = p)
  /-- The points are opposite. -/
  | opposite (hp : p ≠ infinity) (hq : q ≠ infinity) (hx : p.x = q.x) (hy : p.y = -q.y)
    (hr : r = infinity)
  /-- The sum is on the chord through two points. -/
  | chord (s : Felt k) (hp : p ≠ infinity) (hq : q ≠ infinity) (hx : p.x ≠ q.x)
    (hs : s * (q.x - p.x) = q.y - p.y) (hline : OnLine p q r s)
  /-- The sum is on the tangent at a point that is doubled. -/
  | tangent (s : Felt k) (hp : p ≠ infinity) (hpq : p = q) (hy : p.y ≠ 0)
    (hs : 2 * p.y * s = 3 * p.x ^ 2) (hline : OnLine p q r s)

/-- **Every two points** of a curve have a sum. -/
theorem exists_adds (hp : p.Lies b) (hq : q.Lies b) :
    ∃ r, p.add q = .ok (some r) ∧ p.Adds q r := by
  by_cases hpinf : p = infinity
  · exact ⟨q, hpinf ▸ add_infinity_left q, .left hpinf rfl⟩
  by_cases hqinf : q = infinity
  · exact ⟨p, hqinf ▸ add_infinity_right hpinf, .right hpinf hqinf rfl⟩
  by_cases hx : p.x = q.x
  · by_cases hy : p.y = -q.y
    · exact ⟨infinity, add_of_opposite hpinf hqinf hx hy, .opposite hpinf hqinf hx hy rfl⟩
    · have hsame := y_eq_of_curve hx hy (hp.curve hpinf) (hq.curve hqinf)
      have hpq : p = q := (Point.mk.injEq ..).mpr ⟨hx, hsame⟩
      have hne : p.y ≠ 0 := fun hzero => hy (by rw [← hsame, hzero, neg_zero])
      have hs : 2 * p.y * (3 * p.x ^ 2 / (2 * p.y)) = 3 * p.x ^ 2 :=
        mul_div_cancel₀ _ (mul_ne_zero Felt.two_ne_zero hne)
      exact ⟨_, add_of_slope hpinf hqinf (fun h => hy h.2) (slope_of_tangent hx hsame hne hs)
        (sub_self _) (sub_self _), .tangent _ hpinf hpq hne hs ⟨sub_self _, sub_self _⟩⟩
  · have hs : (q.y - p.y) / (q.x - p.x) * (q.x - p.x) = q.y - p.y :=
      div_mul_cancel₀ _ (sub_ne_zero.mpr (Ne.symm hx))
    exact ⟨_, add_of_slope hpinf hqinf (fun h => hx h.1) (slope_of_chord hx hs) (sub_self _)
      (sub_self _), .chord _ hpinf hqinf hx hs ⟨sub_self _, sub_self _⟩⟩

/-! ### Sums that are one of the points -/

theorem eq_zero_of_add_self {a : Felt k} (h : a + a = 0) : a = 0 :=
  (mul_eq_zero.mp ((two_mul a).trans h)).resolve_left Felt.two_ne_zero

/-- Only if `b` is zero does a line that touches the curve in a point with `y = 0` meet it in
another point. -/
theorem eq_zero_of_touching (s : Felt k) (hne : p.x ≠ q.x) (hp : p.y ^ 2 = p.x ^ 3 + b)
    (hq : q.y ^ 2 = q.x ^ 3 + b) (hy : q.y = 0) (hs : s * (q.x - p.x) = -p.y)
    (hx : s * s = p.x + 2 * q.x) : b = 0 := by
  rw [hy] at hq
  have hproduct : (p.x - q.x) * (3 * q.x ^ 2) = 0 := by
    linear_combination hq - hp - (s * (q.x - p.x) - p.y) * hs + (q.x - p.x) ^ 2 * hx
  have hsquare := (mul_eq_zero.mp hproduct).resolve_left (sub_ne_zero.mpr hne)
  have hzero : q.x = 0 :=
    pow_eq_zero_iff two_ne_zero |>.mp ((mul_eq_zero.mp hsquare).resolve_left Felt.three_ne_zero)
  rw [hzero] at hq
  linear_combination -hq

/-- Only infinity added to a point gives the point back. -/
theorem Adds.eq_infinity_left (h : p.Adds q q) (hb : b ≠ 0) (hp : p.Lies b) (hq : q.Lies b) :
    p = infinity := by
  cases h with
  | left hp => exact hp
  | right _ hqinf hr => exact hr.symm.trans hqinf
  | opposite _ hne _ _ hr => exact absurd hr hne
  | chord s hpinf hqinf hx hs hline =>
      obtain ⟨hsumX, hsumY⟩ := hline
      have hy : q.y = 0 := eq_zero_of_add_self (by linear_combination -hs - hsumY)
      have hzero := eq_zero_of_touching s hx (hp.curve hpinf) (hq.curve hqinf) hy
        (by linear_combination hs + hy) (by linear_combination hsumX)
      exact absurd hzero hb
  | tangent s _ hpq hy _ hline =>
      subst hpq
      have hsumY := hline.2
      exact absurd (eq_zero_of_add_self (by linear_combination -hsumY)) hy

theorem Adds.eq_infinity_right (h : p.Adds q p) (hb : b ≠ 0) (hp : p.Lies b) (hq : q.Lies b) :
    q = infinity := by
  cases h with
  | left hp hr => exact hr.symm.trans hp
  | right _ hqinf => exact hqinf
  | opposite hne _ _ _ hr => exact absurd hr hne
  | chord s hpinf hqinf hx hs hline =>
      obtain ⟨hsumX, hsumY⟩ := hline
      have hy : p.y = 0 := eq_zero_of_add_self (by linear_combination -hsumY)
      have hzero := eq_zero_of_touching s hx.symm (hq.curve hqinf) (hp.curve hpinf) hy
        (by linear_combination hy - hs) (by linear_combination hsumX)
      exact absurd hzero hb
  | tangent s _ _ hy _ hline =>
      have hsumY := hline.2
      exact absurd (eq_zero_of_add_self (by linear_combination -hsumY)) hy

end Point

end Plonkish
