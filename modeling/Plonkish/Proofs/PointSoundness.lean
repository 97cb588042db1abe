import Plonkish.Proofs.Completeness
import Plonkish.Proofs.RowSoundness

/-!
# Proofs — sums of points in accepted tables

A row that keeps the constraints for a sum of two points holds their sum, whatever inverses and
slope it holds (`Point.add_eq_of_vanish`), if the points are on one curve `y ^ 2 = x ^ 3 + b` and a
finite one does not have `x = 0`.  Which constraints say so depends on the points:

* a point at infinity makes the constraints with its inverse say that the sum is the other point;
* points with different `x` fix the slope of the line through them, and the sum is on this line;
* opposite points leave no way to cancel the constraints that say that the sum is at infinity;
* a point that is doubled fixes the slope of the tangent, as it is not opposite to itself.

`Gadget.points_sound`: so does every table that is accepted.
-/

namespace Plonkish

variable {k : BaseField}

open Build (Runs)

/-! ### The sum of two points -/

/-- The characteristic is odd. -/
theorem Felt.two_ne_zero : (2 : Felt k) ≠ 0 := by
  have hcast : ((2 : Nat) : Felt k) ≠ 0 := fun h =>
    Nat.not_le_of_lt k.two_lt_order (Nat.le_of_dvd Nat.two_pos ((ofNat_eq_zero_iff 2).mp h))
  exact_mod_cast hcast

/-- A quotient is the solution of its equation. -/
theorem Felt.div_eq {a b s : Felt k} (hb : b ≠ 0) (h : s * b = a) : a.div b = .ok s := by
  rw [div, if_neg hb, inverse_eq_inv, ← h, mul_inv_cancel_right₀ hb]

namespace Point

variable {p q : Point k} {s b : Felt k}

/-- The point at infinity, or a point of the curve `y ^ 2 = x ^ 3 + b` with `x` not zero. -/
def OnCurve (b : Felt k) (p : Point k) : Prop := p = infinity ∨ p.x ≠ 0 ∧ p.y ^ 2 = p.x ^ 3 + b

theorem infinity_x : (infinity : Point k).x = 0 := rfl

theorem ne_infinity (h : p.x ≠ 0) : p ≠ infinity := fun hp => h (congrArg x hp)

theorem add_infinity_left (q : Point k) : infinity.add q = .ok (some q) := if_pos rfl

theorem add_infinity_right (hp : p ≠ infinity) : p.add infinity = .ok (some p) := by
  rw [add, if_neg hp, if_pos rfl]

/-- Two points of one `x` and of opposite `y` add up to infinity. -/
theorem add_of_opposite (hp : p ≠ infinity) (hq : q ≠ infinity) (hx : p.x = q.x) (hy : p.y = -q.y) :
    p.add q = .ok (some infinity) := by
  rw [add, if_neg hp, if_neg hq, if_pos ⟨hx, hy⟩]

/-- The sum is read off any pair that solves the two equations of the line through the points. -/
theorem add_of_slope {x y : Felt k} (hp : p ≠ infinity) (hq : q ≠ infinity)
    (hne : ¬ (p.x = q.x ∧ p.y = -q.y)) (hslope : p.slope q = .ok (some s))
    (hx : s * s - p.x - q.x - x = 0) (hy : s * (p.x - x) - p.y - y = 0) :
    p.add q = .ok (some ⟨x, y⟩) := by
  have hx' : s.square - p.x - q.x = x := sub_eq_zero.mp hx
  rw [add, if_neg hp, if_neg hq, if_neg hne, hslope, ← sub_eq_zero.mp hy, ← hx']
  rfl

/-- The slope of two points of different `x` solves the equation of the chord. -/
theorem slope_of_chord (hx : p.x ≠ q.x) (h : s * (q.x - p.x) = q.y - p.y) :
    p.slope q = .ok (some s) := by
  rw [slope, if_pos hx, Felt.div_eq (sub_ne_zero.mpr hx.symm) h]
  rfl

/-- The slope at a point that is not of order two solves the equation of the tangent. -/
theorem slope_of_tangent (hx : p.x = q.x) (hy : p.y = q.y) (hne : p.y ≠ 0)
    (h : 2 * p.y * s = 3 * p.x ^ 2) : p.slope q = .ok (some s) := by
  have hdouble : p.y + p.y ≠ 0 := by
    rw [← two_mul]
    exact mul_ne_zero Felt.two_ne_zero hne
  have htangent : p.tangent = .ok s := by
    refine Felt.div_eq hdouble ?_
    rw [Felt.square_eq, Felt.ofNat_eq_cast]
    push_cast
    linear_combination h
  rw [slope, if_neg (not_not.mpr hx), if_pos hy, htangent]
  rfl

/-- Two points of a curve with the same `x` are equal or opposite. -/
theorem y_eq_of_curve (hx : p.x = q.x) (hne : p.y ≠ -q.y) (hp : p.y ^ 2 = p.x ^ 3 + b)
    (hq : q.y ^ 2 = q.x ^ 3 + b) : p.y = q.y := by
  have hsquares : (p.y - q.y) * (p.y + q.y) = 0 := by
    rw [hx] at hp
    linear_combination hp - hq
  have hsum : p.y + q.y ≠ 0 := fun hzero => hne (eq_neg_of_add_eq_zero_left hzero)
  exact sub_eq_zero.mp ((mul_eq_zero.mp hsquares).resolve_right hsum)

/-! ### The constraints of a sum -/

variable {valuation : Variable → Felt k} {w : Nat → Expr k}

/-- **The constraints hold of the sum only**, whatever the inverses and the slope are. -/
theorem add_eq_of_vanish (hp : p.OnCurve b) (hq : q.OnCurve b)
    (hpx : (w 0).value valuation = p.x) (hpy : (w 1).value valuation = p.y)
    (hqx : (w 2).value valuation = q.x) (hqy : (w 3).value valuation = q.y)
    (h : ∀ e ∈ constraints w, e.value valuation = 0) :
    p.add q = .ok (some ⟨(w 4).value valuation, (w 5).value valuation⟩) := by
  simp only [constraints, List.forall_mem_cons, Expr.value_sub, Expr.value_add, Expr.value_mul,
    Expr.value_constant, hpx, hpy, hqx, hqy, Felt.ofNat_eq_cast, Nat.cast_ofNat] at h
  generalize (w 4).value valuation = x, (w 5).value valuation = y,
    (w 6).value valuation = i₀, (w 7).value valuation = i₁, (w 8).value valuation = j,
    (w 9).value valuation = l, (w 10).value valuation = s at h ⊢
  obtain ⟨hchord, htangent, hdistinctX, hdistinctY, hsameX, hsameY, hfirstX, hfirstY, hsecondX,
    hsecondY, hoppositeX, hoppositeY, -⟩ := h
  rcases hp with rfl | ⟨hp, hpcurve⟩
  · rw [infinity_x, zero_mul, sub_zero, one_mul, sub_eq_zero] at hfirstX hfirstY
    rw [add_infinity_left, hfirstX, hfirstY]
  rcases hq with rfl | ⟨hq, hqcurve⟩
  · rw [infinity_x, zero_mul, sub_zero, one_mul, sub_eq_zero] at hsecondX hsecondY
    rw [add_infinity_right (ne_infinity hp), hsecondX, hsecondY]
  by_cases hx : p.x = q.x
  · by_cases hy : p.y = -q.y
    · -- Opposite points: nothing is left of the factor but one.
      rw [hx, hy, sub_self, zero_mul, sub_zero, add_neg_cancel, zero_mul, sub_zero, one_mul]
        at hoppositeX hoppositeY
      rw [add_of_opposite (ne_infinity hp) (ne_infinity hq) hx hy, hoppositeX, hoppositeY]
      rfl
    · -- The points are equal, as they have the same `x` and are not opposite.
      have hsame : p.y = q.y := y_eq_of_curve hx hy hpcurve hqcurve
      have hsum : p.y + q.y ≠ 0 := fun hzero => hy (eq_neg_of_add_eq_zero_left hzero)
      have hne : p.y ≠ 0 := by
        intro hzero
        exact hsum (by rw [← hsame, hzero, add_zero])
      have hslope : 2 * p.y * s = 3 * p.x ^ 2 := by
        rw [hx, sub_self, zero_mul, sub_zero, one_mul] at htangent
        rw [hx]
        linear_combination htangent
      have hfactor : p.x * q.x * q.y + p.x * q.x * p.y ≠ 0 := by
        rw [← mul_add, add_comm]
        exact mul_ne_zero (mul_ne_zero hp hq) hsum
      exact add_of_slope (ne_infinity hp) (ne_infinity hq) (fun hopposite => hy hopposite.2)
        (slope_of_tangent hx hsame hne hslope) ((mul_eq_zero.mp hsameX).resolve_left hfactor)
        ((mul_eq_zero.mp hsameY).resolve_left hfactor)
  · have hdx : q.x - p.x ≠ 0 := sub_ne_zero.mpr (Ne.symm hx)
    have hslope : s * (q.x - p.x) = q.y - p.y := by
      linear_combination (mul_eq_zero.mp hchord).resolve_left hdx
    have hfactor : p.x * q.x * q.x - p.x * q.x * p.x ≠ 0 := by
      rw [← mul_sub]
      exact mul_ne_zero (mul_ne_zero hp hq) hdx
    exact add_of_slope (ne_infinity hp) (ne_infinity hq) (fun hopposite => hx hopposite.1)
      (slope_of_chord hx hslope) ((mul_eq_zero.mp hdistinctX).resolve_left hfactor)
      ((mul_eq_zero.mp hdistinctY).resolve_left hfactor)

end Point

/-! ### Sums in an accepted table -/

namespace Gadget

/-- A row that is tied to two points on a curve holds their sum. -/
theorem Enforced.add_eq {t : Table k} {l : Layout} {input : List Variable} {start : Nat}
    (h : (row .points l).Enforced t input start) {c : Felt k} {p q : Point k} (hp : p.OnCurve c)
    (hq : q.OnCurve c) (hinput : input.mapM t.tryValue = .ok [p.x, p.y, q.x, q.y]) :
    p.add q = .ok (some ⟨t.cellAt (l.cell 4 start), t.cellAt (l.cell 5 start)⟩) := by
  have hrow : start < t.rows := Nat.lt_of_succ_le h.exist
  have hcell : ∀ {i x}, t.tryValue (l.cellVariable i start) = .ok x →
      (Variable.relativeTo .witness (l.witness.getD i 0) 0 : Expr k).value
        (t.valueAt start) = x := by
    intro i x hx
    rw [l.value_witness i hrow]
    exact ((Layout.tryValue_cellVariable (Nat.lt_of_succ_le h.rows_le)).mp hx).2
  have hcopied := h.mapM_inputCells hinput
  simp only [inputCells, RowKind.arity, List.range'_succ, List.range'_zero, List.map_cons,
    List.map_nil, mapM_eq_ok, List.forall₂_cons, Nat.zero_add, Nat.reduceAdd] at hcopied
  obtain ⟨hpx, hpy, hqx, hqy, -⟩ := hcopied
  have hsum := Point.add_eq_of_vanish
    (w := fun i => (Variable.relativeTo .witness (l.witness.getD i 0) 0 : Expr k)) hp hq (hcell hpx)
    (hcell hpy) (hcell hqx) (hcell hqy) h.row_vanish
  rwa [l.value_witness 4 hrow, l.value_witness 5 hrow] at hsum

/-- **Soundness of sums of points**: where a table is accepted that asks for an instance, and the
inputs of the instance are two points on a curve, the outputs are their sum. -/
theorem points_sound {l : Layout} {g : Gadget k} (hg : ofRow .points l = .ok g)
    {a a' b : Assembly k} {input outs : List Variable} {start : Nat} (hreg : a.circuit.Registered)
    (hrun : Runs (g.build input start) a outs a') (hkept : a'.KeptIn b) (hheld : b.table.Held)
    (haccepted : b.circuit.violations b.table = .ok []) {c : Felt k} {p q : Point k}
    (hp : p.OnCurve c) (hq : q.OnCurve c)
    (hinput : input.mapM b.table.tryValue = .ok [p.x, p.y, q.x, q.y]) :
    ∃ r, p.add q = .ok (some r) ∧ outs.mapM b.table.tryValue = .ok [r.x, r.y] := by
  have hmade := made_of_ofRow hg
  obtain rfl := eq_of_ofRow hg
  obtain ⟨henforced, rfl⟩ :=
    enforced_of_build hmade hreg (mapM_eq_ok.mp hinput).length_eq hrun hkept
    hheld haccepted
  refine ⟨_, henforced.add_eq hp hq hinput, mapM_eq_ok.mpr ?_⟩
  exact .cons (henforced.tryValue_result List.mem_cons_self)
    (.cons (henforced.tryValue_result (List.mem_cons_of_mem _ List.mem_cons_self)) .nil)

end Gadget

/-! ### A point that is doubled -/

/-- Two rows, the first one for the double of `(1, 2)` on the curve `y ^ 2 = x ^ 3 + 3`. -/
def Table.doubling : Table .goldilocks where
  rows := 2
  usableRows := 2
  regions :=
    { witness := ⟨2, 11,
        #[1, 2, 1, 2, .ofNat 8070450530368880639, .ofNat 3170534136930631680, 1, 1, 0,
          .ofNat 13835058052060938241, .ofNat 4611686017353646081, 0, 0, 0, 0, 0, 0, 0, 0, 0, 0, 0],
        rfl⟩
      publicInput := ⟨2, 2, #[1, 2, 0, 0], rfl⟩
      constant := .zero _ 2 0
      selector := .zero _ 2 0 }
  height_eq kind := by cases kind <;> rfl

/-- The point `(1, 2)` of the public inputs, twice. -/
def Point.doublingInput : List Variable :=
  [⟨.publicInput, 0, 0, false⟩, ⟨.publicInput, 1, 0, false⟩, ⟨.publicInput, 0, 0, false⟩,
    ⟨.publicInput, 1, 0, false⟩]

theorem Table.vanish_doubling {e : Expr .goldilocks}
    (he : e ∈ RowKind.points.constraintsOn (.contiguous 11 0)) :
    e.value (Table.doubling.valueAt 0) = 0 := by
  revert e
  simp only [RowKind.constraintsOn, RowKind.constraints, Point.constraints, List.forall_mem_cons,
    Expr.value_sub, Expr.value_add, Expr.value_mul, Expr.value_constant, Expr.value_variable]
  decide

theorem Gadget.points_sound_doubling :
    ∃ outs a, Runs ((row .points (.contiguous 11 0)).build Point.doublingInput 0)
        ⟨.empty, .doubling⟩ outs a ∧ a.circuit.violations a.table = .ok [] ∧
      ∃ r, Point.add ⟨1, 2⟩ ⟨1, 2⟩ = .ok (some r) ∧
        outs.mapM a.table.tryValue = .ok [r.x, r.y] := by
  have hlayout : Table.doubling.HasLayout (.contiguous 11 0) :=
    Table.hasLayout_contiguous (by decide) (by decide)
  have hnone : Table.doubling.NoneEnabled := Table.noneEnabled_of_width rfl
  have hheld : Table.doubling.Held := fun kind => by cases kind <;> decide
  have hvanish : ∀ r < 1, ∀ constraints,
      (row .points (.contiguous 11 0) : Gadget .goldilocks).constraintLists[min r 1]? =
        some constraints → ∀ e ∈ constraints, e.value (Table.doubling.valueAt (0 + r)) = 0 := by
    intro r hr constraints hgate e he
    obtain rfl := Nat.lt_one_iff.mp hr
    obtain rfl := Option.some.inj hgate
    exact Table.vanish_doubling he
  have hholds : ∀ v ∈ Point.doublingInput, Table.doubling.HoldsAbsolute v ∧ v.kind ≠ .selector := by
    decide
  have hlen : Point.doublingInput.length =
      ((row .points (.contiguous 11 0) : Gadget .goldilocks).inputCells 0).length := rfl
  have hmade : (row .points (.contiguous 11 0) : Gadget .goldilocks).Made := ⟨by decide, by decide⟩
  obtain ⟨a, hrun, hchanges, haccepted⟩ := exists_accepted hmade hlayout (by decide) (by decide)
    hholds hlen (by decide) hnone rfl hvanish (by decide)
  have hcurve : Point.OnCurve (3 : Felt .goldilocks) ⟨1, 2⟩ := .inr (by decide)
  -- The public inputs are as they were.
  have hinput : Point.doublingInput.mapM a.table.tryValue =
      .ok (Point.doublingInput.map (Table.doubling.valueAt 0)) :=
    mapM_eq_map fun v hv => hchanges.tryValue_eq (hholds v hv).1 (hholds v hv).2
  exact ⟨_, a, hrun, haccepted, points_sound (l := .contiguous 11 0) rfl Circuit.registered_empty
    hrun (.refl a) ((keeps_build _ _ _ hrun).held hheld) haccepted hcurve hcurve hinput⟩

end Plonkish
