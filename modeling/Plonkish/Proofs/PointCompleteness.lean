import Plonkish.Proofs.PointAddition

/-!
# Proofs — which sums of points are accepted

The row that is written for two points of a curve `y ^ 2 = x ^ 3 + b` holds their sum.  It keeps the
constraints exactly if the points are `Point.Addable`: a finite point does not have `x = 0`, and a
finite point that is doubled does not have `y = 0`.

* `Point.Consistent` is what the constraints say of the cells of a row
  (`Point.constraints_vanish_iff`).
* `Point.consistent_of_addable`: the cells that are written are consistent, if the points are
  addable.
* `Point.addable_of_consistent`: if they are not, no inverses and no slope are consistent with the
  sum. Where `x = 0`, the point is taken for the one at infinity, and its sum for the other point.
  Where `y = 0`, the constraint for the slope of the tangent leaves `3 * x ^ 2 = 0`.

`Gadget.points_complete_iff`: placing the gadget answers in either case, and the cells of the result
hold the sum, but a table with points that are not addable is not accepted.
-/

namespace Plonkish

variable {k : BaseField}

open Build (Runs)

namespace Point

variable {p q r : Point k} {b i i' j l s : Felt k} {valuation : Variable → Felt k}
    {w : Nat → Expr k}

/-! ### What the constraints say -/

/-- A row with the inverses `i`, `i'`, `j` and `l` and the slope `s` keeps the constraints. -/
structure Consistent (p q r : Point k) (i i' j l s : Felt k) : Prop where
  /-- The slope is that of the chord, if the points do not have the same `x`. -/
  chord : q.x - p.x = 0 ∨ (q.x - p.x) * s - (q.y - p.y) = 0
  /-- The slope is that of the tangent, if `j` does not say that they have different ones. -/
  tangent : 1 - (q.x - p.x) * j = 0 ∨ 2 * p.y * s - 3 * p.x * p.x = 0
  /-- The sum is on the line, if the points are finite and do not have the same `x`. -/
  distinct : p.x * q.x * q.x - p.x * q.x * p.x = 0 ∨ p.OnLine q r s
  /-- The sum is on the line, if the points are finite and do not have opposite `y`. -/
  notOpposite : p.x * q.x * q.y + p.x * q.x * p.y = 0 ∨ p.OnLine q r s
  /-- The sum is the second point, if `i` does not say that the first one is finite. -/
  first : 1 - p.x * i = 0 ∨ r.x - q.x = 0 ∧ r.y - q.y = 0
  /-- The sum is the first point, if `i'` does not say that the second one is finite. -/
  second : 1 - q.x * i' = 0 ∨ r.x - p.x = 0 ∧ r.y - p.y = 0
  /-- The sum is at infinity, if `j` and `l` do not say that the points are not opposite. -/
  opposite : 1 - (q.x - p.x) * j - (q.y + p.y) * l = 0 ∨ r.x = 0 ∧ r.y = 0

theorem constraints_vanish_iff
    (hw : Takes w valuation [p.x, p.y, q.x, q.y, r.x, r.y, i, i', j, l, s]) :
    (∀ e ∈ constraints w, e.value valuation = 0) ↔ p.Consistent q r i i' j l s := by
  simp only [constraints, List.forall_mem_cons, Expr.value_sub, Expr.value_add, Expr.value_mul,
    Expr.value_constant, hw 0 _ rfl, hw 1 _ rfl, hw 2 _ rfl, hw 3 _ rfl, hw 4 _ rfl, hw 5 _ rfl,
    hw 6 _ rfl, hw 7 _ rfl, hw 8 _ rfl, hw 9 _ rfl, hw 10 _ rfl, Felt.ofNat_eq_cast, Nat.cast_ofNat,
    mul_eq_zero]
  constructor
  · rintro ⟨hchord, htangent, hdistinctX, hdistinctY, hsameX, hsameY, hfirstX, hfirstY, hsecondX,
      hsecondY, hoppositeX, hoppositeY, -⟩
    exact ⟨hchord, htangent, or_and_left.mpr ⟨hdistinctX, hdistinctY⟩,
      or_and_left.mpr ⟨hsameX, hsameY⟩, or_and_left.mpr ⟨hfirstX, hfirstY⟩,
      or_and_left.mpr ⟨hsecondX, hsecondY⟩, or_and_left.mpr ⟨hoppositeX, hoppositeY⟩⟩
  · rintro ⟨hchord, htangent, hdistinct, hsame, hfirst, hsecond, hopposite⟩
    obtain ⟨hdistinctX, hdistinctY⟩ := or_and_left.mp hdistinct
    obtain ⟨hsameX, hsameY⟩ := or_and_left.mp hsame
    obtain ⟨hfirstX, hfirstY⟩ := or_and_left.mp hfirst
    obtain ⟨hsecondX, hsecondY⟩ := or_and_left.mp hsecond
    obtain ⟨hoppositeX, hoppositeY⟩ := or_and_left.mp hopposite
    exact ⟨hchord, htangent, hdistinctX, hdistinctY, hsameX, hsameY, hfirstX, hfirstY, hsecondX,
      hsecondY, hoppositeX, hoppositeY, List.forall_mem_nil _⟩

/-! ### The cells that are written -/

/-- What the inverses and the slope that are written have to do with the points. -/
structure Auxiliary (p q : Point k) (j l s : Felt k) : Prop where
  /-- For points with different `x`, the slope is that of the chord. -/
  chord : p.x ≠ q.x → j = (q.x - p.x)⁻¹ ∧ l = 0 ∧ s * (q.x - p.x) = q.y - p.y
  /-- For points with the same `x`, the slope is that of the tangent, if it is not vertical. -/
  tangent : p.x = q.x → j = 0 ∧ l = (q.y + p.y)⁻¹ ∧ (p.y ≠ 0 → 2 * p.y * s = 3 * p.x ^ 2)

theorem Auxiliary.mul_eq_one (h : p.Auxiliary q j l s) (hx : p.x ≠ q.x) : (q.x - p.x) * j = 1 := by
  rw [(h.chord hx).1, mul_inv_cancel₀ (sub_ne_zero.mpr hx.symm)]

theorem exists_tangent (hy : p.y ≠ 0) : ∃ s, p.tangent = .ok s ∧ 2 * p.y * s = 3 * p.x ^ 2 := by
  have hdouble : p.y + p.y ≠ 0 := fun h => hy (eq_zero_of_add_self h)
  refine ⟨3 * p.x ^ 2 / (p.y + p.y), Felt.div_eq hdouble ?_, ?_⟩
  · rw [div_mul_cancel₀ _ hdouble, Felt.square_eq, Felt.ofNat_eq_cast, pow_two]
    rfl
  · rw [two_mul, mul_div_cancel₀ _ hdouble]

theorem exists_auxiliary (p q : Point k) :
    ∃ j l s, p.auxiliary q = .ok (j, l, s) ∧ p.Auxiliary q j l s := by
  by_cases hx : p.x = q.x
  · rw [auxiliary, if_neg (not_not.mpr hx)]
    by_cases hy : p.y = 0
    · rw [if_neg (not_not.mpr hy)]
      exact ⟨0, _, 0, rfl, fun hne => absurd hx hne,
        fun _ => ⟨rfl, Felt.inverse_eq_inv _, fun hne => absurd hy hne⟩⟩
    · obtain ⟨s, hs, htangent⟩ := exists_tangent hy
      rw [if_pos hy, hs]
      exact ⟨0, _, s, rfl, fun hne => absurd hx hne,
        fun _ => ⟨rfl, Felt.inverse_eq_inv _, fun _ => htangent⟩⟩
  · rw [auxiliary, if_pos hx, Felt.inverse_eq_inv]
    have hslope : (q.y - p.y) * (q.x - p.x)⁻¹ * (q.x - p.x) = q.y - p.y :=
      inv_mul_cancel_right₀ (sub_ne_zero.mpr (Ne.symm hx)) _
    exact ⟨_, 0, _, rfl, fun _ => ⟨rfl, rfl, hslope⟩, fun heq => absurd heq hx⟩

/-- **The cells** that are written for two points and their sum. -/
theorem exists_cells (p q r : Point k) : ∃ j l s, p.Auxiliary q j l s ∧
    p.cells q r = .ok [p.x, p.y, q.x, q.y, r.x, r.y, p.x⁻¹, q.x⁻¹, j, l, s] := by
  obtain ⟨j, l, s, haux, hholds⟩ := exists_auxiliary p q
  refine ⟨j, l, s, hholds, ?_⟩
  rw [cells, haux, Felt.inverse_eq_inv, Felt.inverse_eq_inv]
  rfl

/-- The slope that is written is that of the line that gives the sum. -/
theorem Adds.onLine (h : p.Adds q r) (haux : p.Auxiliary q j l s) (hp : p ≠ infinity)
    (hq : q ≠ infinity) (hne : p.x = q.x → p.y ≠ -q.y) : p.OnLine q r s := by
  cases h with
  | left hpinf => exact absurd hpinf hp
  | right _ hqinf => exact absurd hqinf hq
  | opposite _ _ hx hy => exact absurd hy (hne hx)
  | chord s' _ _ hx hs hline =>
      have hsame : s = s' := mul_right_cancel₀ (sub_ne_zero.mpr hx.symm)
        ((haux.chord hx).2.2.trans hs.symm)
      exact hsame ▸ hline
  | tangent s' _ hpq hy hs hline =>
      have hsame : s = s' := mul_left_cancel₀ (mul_ne_zero Felt.two_ne_zero hy)
        (((haux.tangent (congrArg x hpq)).2.2 hy).trans hs.symm)
      exact hsame ▸ hline

theorem Adds.eq_right (h : p.Adds q r) (hp : p = infinity) : r = q := by
  cases h with
  | left _ hr => exact hr
  | right hne | opposite hne | chord _ hne | tangent _ hne => exact absurd hp hne

theorem Adds.eq_left (h : p.Adds q r) (hq : q = infinity) : r = p := by
  cases h with
  | left hp hr => exact hr.trans (hq.trans hp.symm)
  | right _ _ hr => exact hr
  | opposite _ hne | chord _ _ hne => exact absurd hq hne
  | tangent _ hne hpq => exact absurd (hpq.trans hq) hne

/-- Points with the same `x` and opposite `y` are opposite, or both at infinity. -/
theorem Adds.eq_infinity (h : p.Adds q r) (hx : p.x = q.x) (hy : q.y + p.y = 0) : r = infinity := by
  cases h with
  | left hp hr =>
      rw [hp] at hx hy
      have hzero : q.y = 0 := (add_zero _).symm.trans hy
      exact hr.trans ((Point.mk.injEq ..).mpr ⟨hx.symm, hzero⟩)
  | right _ hq hr =>
      rw [hq] at hx hy
      have hzero : p.y = 0 := (zero_add _).symm.trans hy
      exact hr.trans ((Point.mk.injEq ..).mpr ⟨hx, hzero⟩)
  | opposite _ _ _ _ hr => exact hr
  | chord _ _ _ hne => exact absurd hx hne
  | tangent _ _ hpq hne =>
      subst hpq
      exact absurd (eq_zero_of_add_self hy) hne

/-! ### Which points are accepted -/

/-- The points that the gadget can add. -/
structure Addable (p q : Point k) : Prop where
  /-- A point with `x = 0` is at infinity. -/
  left : p.x = 0 → p = infinity
  /-- A point with `x = 0` is at infinity. -/
  right : q.x = 0 → q = infinity
  /-- A point with `y = 0` that is doubled is at infinity. -/
  double : p = q → p.y = 0 → p = infinity

/-- The tangent at a point with `y = 0` is asked for at infinity only. -/
theorem Addable.x_eq_zero (h : p.Addable q) (hp : p.Lies b) (hq : q.Lies b) (hx : p.x = q.x)
    (hy : p.y = 0) : p.x = 0 := by
  by_contra hne
  have hpcurve := hp.curve (ne_infinity hne)
  have hqcurve := hq.curve (ne_infinity (hx ▸ hne))
  have hsquare : q.y ^ 2 = 0 := by
    rw [hy, hx] at hpcurve
    linear_combination hqcurve - hpcurve
  have hzero : q.y = 0 := pow_eq_zero_iff two_ne_zero |>.mp hsquare
  have hpq : p = q := (Point.mk.injEq ..).mpr ⟨hx, hy.trans hzero.symm⟩
  exact hne (congrArg x (h.double hpq hy))

/-- **The cells that are written** are consistent, if the points can be added. -/
theorem consistent_of_addable (h : p.Addable q) (hadds : p.Adds q r) (haux : p.Auxiliary q j l s)
    (hp : p.Lies b) (hq : q.Lies b) : p.Consistent q r p.x⁻¹ q.x⁻¹ j l s := by
  -- A factor that vanishes for opposite points leaves finite points that are not opposite.
  have hline : ∀ f, (p.x = q.x → p.y = -q.y → f = 0) → p.x * q.x * f = 0 ∨ p.OnLine q r s := by
    intro f hf
    by_cases hzero : p.x * q.x * f = 0
    · exact .inl hzero
    · have hfinite := left_ne_zero_of_mul hzero
      exact .inr (hadds.onLine haux (ne_infinity (left_ne_zero_of_mul hfinite))
        (ne_infinity (right_ne_zero_of_mul hfinite))
        fun hx hy => right_ne_zero_of_mul hzero (hf hx hy))
  refine ⟨?_, ?_, ?_, ?_, ?_, ?_, ?_⟩
  · -- The slope of the chord.
    by_cases hx : p.x = q.x
    · exact .inl (sub_eq_zero.mpr hx.symm)
    · exact .inr (by linear_combination (haux.chord hx).2.2)
  · -- The slope of the tangent.
    by_cases hx : p.x = q.x
    · refine .inr ?_
      by_cases hy : p.y = 0
      · rw [h.x_eq_zero hp hq hx hy, hy]
        ring
      · linear_combination (haux.tangent hx).2.2 hy
    · exact .inl (by rw [haux.mul_eq_one hx, sub_self])
  · -- The sum of points with different `x`.
    rw [← mul_sub]
    exact hline _ fun hx _ => sub_eq_zero.mpr hx.symm
  · -- The sum of points that are not opposite.
    rw [← mul_add]
    exact hline _ fun _ hy => by rw [hy, add_neg_cancel]
  · -- The sum with the first point at infinity.
    by_cases hx : p.x = 0
    · obtain rfl := hadds.eq_right (h.left hx)
      exact .inr ⟨sub_self _, sub_self _⟩
    · exact .inl (by rw [mul_inv_cancel₀ hx, sub_self])
  · -- The sum with the second point at infinity.
    by_cases hx : q.x = 0
    · obtain rfl := hadds.eq_left (h.right hx)
      exact .inr ⟨sub_self _, sub_self _⟩
    · exact .inl (by rw [mul_inv_cancel₀ hx, sub_self])
  · -- The sum of opposite points.
    by_cases hx : p.x = q.x
    · obtain ⟨hj, hl, -⟩ := haux.tangent hx
      by_cases hy : q.y + p.y = 0
      · obtain rfl := hadds.eq_infinity hx hy
        exact .inr ⟨rfl, rfl⟩
      · exact .inl (by rw [hj, hl, mul_zero, sub_zero, mul_inv_cancel₀ hy, sub_self])
    · exact .inl (by rw [haux.mul_eq_one hx, (haux.chord hx).2.1, mul_zero, sub_self, sub_zero])

/-- **No row** is consistent with the sum of points that cannot be added. -/
theorem addable_of_consistent (h : p.Consistent q r i i' j l s) (hadds : p.Adds q r) (hb : b ≠ 0)
    (hp : p.Lies b) (hq : q.Lies b) : p.Addable q := by
  have hleft : p.x = 0 → p = infinity := by
    intro hx
    have hfirst := h.first
    rw [hx, zero_mul, sub_zero] at hfirst
    obtain ⟨hsumX, hsumY⟩ := hfirst.resolve_left one_ne_zero
    obtain rfl : r = q := (Point.mk.injEq ..).mpr ⟨sub_eq_zero.mp hsumX, sub_eq_zero.mp hsumY⟩
    exact hadds.eq_infinity_left hb hp hq
  refine ⟨hleft, ?_, ?_⟩
  · intro hx
    have hsecond := h.second
    rw [hx, zero_mul, sub_zero] at hsecond
    obtain ⟨hsumX, hsumY⟩ := hsecond.resolve_left one_ne_zero
    obtain rfl : r = p := (Point.mk.injEq ..).mpr ⟨sub_eq_zero.mp hsumX, sub_eq_zero.mp hsumY⟩
    exact hadds.eq_infinity_right hb hp hq
  · rintro rfl hy
    refine hleft ?_
    have htangent := h.tangent
    rw [hy, sub_self, zero_mul, sub_zero, mul_zero, zero_mul, zero_sub, neg_eq_zero] at htangent
    have hsquare := htangent.resolve_left one_ne_zero
    rcases mul_eq_zero.mp hsquare with hthree | hx
    · exact (mul_eq_zero.mp hthree).resolve_left Felt.three_ne_zero
    · exact hx

end Point

/-! ### A row on its own -/

theorem Table.of_mapM_tryValue {t : Table k} {input : List Variable} {values : List (Felt k)}
    (hinput : ∀ v ∈ input, v.relative = false) (h : input.mapM t.tryValue = .ok values) :
    (∀ v ∈ input, t.HoldsAbsolute v) ∧ input.map (t.valueAt 0) = values := by
  induction mapM_eq_ok.mp h with
  | nil => exact ⟨List.forall_mem_nil _, rfl⟩
  | cons hv hothers ih =>
      obtain ⟨hrelative, hinput⟩ := List.forall_mem_cons.mp hinput
      obtain ⟨hholds, rfl⟩ := (tryValue_eq_ok hrelative).mp hv
      obtain ⟨hall, rfl⟩ := ih hinput (mapM_eq_ok.mpr hothers)
      exact ⟨List.forall_mem_cons.mpr ⟨hholds, hall⟩, rfl⟩

theorem RowKind.cells_points {p q r : Point k} {cells : List (Felt k)}
    (hsum : p.add q = .ok (some r)) (hcells : p.cells q r = .ok cells) :
    RowKind.points.cells [p.x, p.y, q.x, q.y] = .ok cells := by
  rw [RowKind.cells, hsum]
  exact mapError_eq_ok.mpr hcells

namespace Gadget

variable {t : Table k} {l : Layout} {input : List Variable} {start : Nat}

/-- A row that starts with the inputs satisfies the copy constraints of an instance. -/
theorem satisfied_of_showsRow {kind : RowKind k} {cells : List (Felt k)}
    (hshows : t.ShowsRow l start cells) (hbegins : input.map (t.valueAt 0) <+: cells)
    (harity : input.length = kind.arity) (hsmall : start < 2 ^ 31) :
    ∀ copy ∈ (row kind l).copyPairs input start, copy.Satisfied t := by
  intro copy hcopy
  obtain ⟨⟨v, w⟩, hpair, rfl⟩ := List.mem_map.mp hcopy
  have hvalues := forall₂_row hshows hbegins (by rw [List.length_map, harity]) hsmall
  rw [List.forall₂_map_left_iff] at hvalues
  exact (List.forall₂_zip hvalues hpair).symm

/-- **Placing a row** whose cells can be computed from public inputs answers, and so does checking
the table then.  Nothing is found exactly if the row keeps its constraints. -/
theorem exists_checked_row {kind : RowKind k} {cells : List (Felt k)} (hmade : (row kind l).Made)
    (hl : t.HasLayout l) (hheld : t.Held) (hnone : t.NoneEnabled) (hrow : start < t.rows)
    (hsmall : start < 2 ^ 31) (hinput : ∀ v ∈ input, t.HoldsAbsolute v ∧ v.kind = .publicInput)
    (hcells : kind.cells (input.map (t.valueAt 0)) = .ok cells) (hlen : cells.length = kind.width)
    (hbegins : input.map (t.valueAt 0) <+: cells) (harity : input.length = kind.arity)
    (hconstants : (row kind l).constantCells start = ∅) :
    ∃ a vs, Runs ((row kind l).synthesize input start) ⟨.empty, t⟩
      ((row kind l).outputCells start) a ∧
      t.rows = a.table.rows ∧ a.table.HasLayout l ∧ a.table.ShowsRow l start cells ∧
      a.circuit.violations a.table = .ok vs ∧
      (vs = [] ↔ ∀ e ∈ kind.constraintsOn l, e.value (a.table.valueAt start) = 0) := by
  obtain ⟨t₁, hassign, hchanges, hshows⟩ := runs_row_assign (a := ⟨.empty, t⟩) hmade.1 hl hrow
    (fun v hv => (hinput v hv).1) harity hcells hlen
  have hheld₁ : t₁.Held := ((row kind l).keeps_assignCells input start hassign).held hheld
  have hpos : 0 < l.witness.length := kind.width_pos.trans_le hmade.1
  have hwitness : 0 < t₁.width .witness :=
    Nat.zero_lt_of_lt ((hchanges.hasLayout hl).witness_lt _ (List.getElem_mem hpos))
  have hpublic : ∀ v ∈ input, t₁.valueAt 0 v = t.valueAt 0 v := by
    intro v hv
    refine hchanges.valueAt_eq fun hwritten => ?_
    cases (hinput v hv).2.symm.trans (Layout.kind_of_mem_block hwritten)
  have hnone₁ : t₁.NoneEnabled := by
    intro s row
    refine (hchanges.frame _ fun hwritten => ?_).trans (hnone s row)
    cases Layout.kind_of_mem_block hwritten
  have hkind : ∀ v ∈ input, v.kind ≠ .selector := by
    intro v hv hselector
    cases (hinput v hv).2.symm.trans hselector
  have hlength : input.length = ((row kind l).inputCells start).length := by
    rw [harity, inputCells, List.length_map, List.length_range']
  obtain ⟨a, vs, hbuild, hselectors, hvs, hnil⟩ := exists_checked (t := t₁) hmade
    (hchanges.hasLayout hl) (hchanges.rows_eq ▸ hrow) hsmall (hheld₁.rows_le hwitness)
    (fun v hv => ⟨hchanges.holdsAbsolute (hinput v hv).1, hkind v hv⟩)
    hlength ((hheld₁ .witness).mono hwitness) hnone₁ hconstants
  have hresult := result_eq hmade (show start + 1 ≤ 2 ^ 31 from hsmall)
  refine ⟨a, vs, (hassign.bind (Build.runs_ofFault hresult)).bind hbuild, ?_, ?_, ?_, hvs, ?_, ?_⟩
  · rw [hselectors.rows_eq, hchanges.rows_eq]
  · exact hselectors.hasLayout (hchanges.hasLayout hl)
  · intro i x hx
    have hframe : l.cell i start ∉ {c : Cell | c.kind = .selector} := fun hkind => by cases hkind
    exact (hselectors.frame _ hframe).trans (hshows i x hx)
  · rintro rfl
    exact (enforced_of_build hmade Circuit.registered_empty hlength hbuild (.refl a)
      ((keeps_build _ _ _ hbuild).held hheld₁) hvs).1.row_vanish
  · intro hvanish
    refine hnil ?_ ?_
    · intro r hr constraints hgate e he
      obtain rfl := Nat.lt_one_iff.mp hr
      obtain rfl := Option.some.inj hgate
      rw [← hvanish e he]
      exact Expr.value_congr fun v hv => (hselectors.valueAt_eq
        (constraints_kind (g := row kind l) List.mem_cons_self e he v hv)).symm
    · rw [← List.map_congr_left hpublic] at hbegins
      exact satisfied_of_showsRow hshows hbegins harity hsmall

/-- **Sums of points**: placing the gadget on two points of a curve `y ^ 2 = x ^ 3 + b` with `b` not
zero answers, the cells of the result hold the sum, and checking the table answers, too.  The table
is accepted exactly if the points are addable. -/
theorem points_complete_iff {g : Gadget k} (hg : ofRow .points l = .ok g) (hl : t.HasLayout l)
    (hheld : t.Held) (hnone : t.NoneEnabled) (hrow : start < t.rows) (hsmall : start < 2 ^ 31)
    (hinput : ∀ v ∈ input, v.kind = .publicInput ∧ v.relative = false) {b : Felt k} {p q : Point k}
    (hvalues : input.mapM t.tryValue = .ok [p.x, p.y, q.x, q.y]) (hb : b ≠ 0) (hp : p.Lies b)
    (hq : q.Lies b) :
    ∃ outs a r vs, Runs (g.synthesize input start) ⟨.empty, t⟩ outs a ∧ p.add q = .ok (some r) ∧
      outs.mapM a.table.tryValue = .ok [r.x, r.y] ∧ a.circuit.violations a.table = .ok vs ∧
      (vs = [] ↔ p.Addable q) := by
  have hmade := made_of_ofRow hg
  obtain rfl := eq_of_ofRow hg
  obtain ⟨r, hsum, hadds⟩ := Point.exists_adds hp hq
  obtain ⟨j, inverse, s, haux, hcells⟩ := Point.exists_cells p q r
  obtain ⟨hholds, hvalues⟩ := Table.of_mapM_tryValue (fun v hv => (hinput v hv).2) hvalues
  have harity : input.length = 4 := by rw [← List.length_map (t.valueAt 0), hvalues]; rfl
  have hrowCells := hvalues ▸ RowKind.cells_points hsum hcells
  obtain ⟨a, vs, hrun, hrows, hlayout, hshows, hvs, hnil⟩ := exists_checked_row hmade hl hheld hnone
    hrow hsmall (fun v hv => ⟨hholds v hv, (hinput v hv).1⟩) hrowCells rfl
    (hvalues ▸ List.prefix_append [p.x, p.y, q.x, q.y] _) harity rfl
  rw [hrows] at hrow
  have houts : ∀ {i x}, i < 11 → a.table.cellAt (l.cell i start) = x →
      a.table.tryValue (l.cellVariable i start) = .ok x := fun hi hx =>
    (Layout.tryValue_cellVariable hsmall).mpr ⟨hlayout.has (hi.trans_le hmade.1) hrow, hx⟩
  refine ⟨_, a, r, vs, hrun, hsum, mapM_eq_ok.mpr ?_, hvs, ?_⟩
  · exact .cons (houts (by decide) (hshows 4 _ rfl))
      (.cons (houts (by decide) (hshows 5 _ rfl)) .nil)
  · rw [hnil]
    refine (Point.constraints_vanish_iff (takes_row hrow hshows)).trans ⟨?_, ?_⟩
    · exact fun hconsistent => Point.addable_of_consistent hconsistent hadds hb hp hq
    · exact fun haddable => Point.consistent_of_addable haddable hadds haux hp hq

end Gadget

/-! ### Points of one curve -/

/-- A row for the sum of two points, which are in the public inputs. -/
def Table.ofPoints (p q : Point .goldilocks) : Table .goldilocks where
  rows := 1
  usableRows := 1
  regions :=
    { witness := .zero _ 1 11
      publicInput := ⟨1, 4, #[p.x, p.y, q.x, q.y], rfl⟩
      constant := .zero _ 1 0
      selector := .zero _ 1 0 }
  height_eq kind := by cases kind <;> rfl

/-- The cells of the public inputs. -/
def Point.inputs : List Variable :=
  [⟨.publicInput, 0, 0, false⟩, ⟨.publicInput, 1, 0, false⟩, ⟨.publicInput, 2, 0, false⟩,
    ⟨.publicInput, 3, 0, false⟩]

theorem Table.hasLayout_ofPoints (p q : Point .goldilocks) :
    (ofPoints p q).HasLayout (.contiguous 11 0) :=
  hasLayout_contiguous (Nat.le_refl 11) (Nat.le_refl 0)

theorem Table.held_ofPoints (p q : Point .goldilocks) : (ofPoints p q).Held := by
  intro kind
  cases kind with
  | witness => exact (by decide : 1 * 11 * 8 < 2 ^ 63)
  | publicInput => exact (by decide : 1 * 4 * 8 < 2 ^ 63)
  | constant | selector => exact (by decide : 1 * 0 * 8 < 2 ^ 63)

theorem Table.mapM_tryValue_ofPoints (p q : Point .goldilocks) :
    Point.inputs.mapM (ofPoints p q).tryValue = .ok [p.x, p.y, q.x, q.y] := rfl

/-- On the curve `y ^ 2 = x ^ 3 + 1`, the double of `(2, 3)` is accepted, but neither is the sum of
`(0, 1)` and `(2, 3)` nor the double of `(-1, 0)`. -/
theorem Gadget.points_complete_iff_one :
    (∃ outs a r, Runs ((row .points (.contiguous 11 0)).synthesize Point.inputs 0)
        ⟨.empty, .ofPoints ⟨2, 3⟩ ⟨2, 3⟩⟩ outs a ∧ Point.add ⟨2, 3⟩ ⟨2, 3⟩ = .ok (some r) ∧
      outs.mapM a.table.tryValue = .ok [r.x, r.y] ∧ a.circuit.violations a.table = .ok []) ∧
    (∃ outs a r vs, Runs ((row .points (.contiguous 11 0)).synthesize Point.inputs 0)
        ⟨.empty, .ofPoints ⟨0, 1⟩ ⟨2, 3⟩⟩ outs a ∧ Point.add ⟨0, 1⟩ ⟨2, 3⟩ = .ok (some r) ∧
      outs.mapM a.table.tryValue = .ok [r.x, r.y] ∧ a.circuit.violations a.table = .ok vs ∧
        vs ≠ []) ∧
    (∃ outs a r vs, Runs ((row .points (.contiguous 11 0)).synthesize Point.inputs 0)
        ⟨.empty, .ofPoints ⟨-1, 0⟩ ⟨-1, 0⟩⟩ outs a ∧ Point.add ⟨-1, 0⟩ ⟨-1, 0⟩ = .ok (some r) ∧
      outs.mapM a.table.tryValue = .ok [r.x, r.y] ∧ a.circuit.violations a.table = .ok vs ∧
      vs ≠ []) := by
  have hpublic : ∀ v ∈ Point.inputs, v.kind = .publicInput ∧ v.relative = false := by decide
  have hone : (1 : Felt .goldilocks) ≠ 0 := one_ne_zero
  have hthree : Point.Lies (1 : Felt .goldilocks) ⟨2, 3⟩ := .inr (by decide)
  have hzero : Point.Lies (1 : Felt .goldilocks) ⟨0, 1⟩ := .inr (by decide)
  have hminus : Point.Lies (1 : Felt .goldilocks) ⟨-1, 0⟩ := .inr (by decide)
  have hcalls := fun (p q : Point .goldilocks) (hp : p.Lies 1) (hq : q.Lies 1) =>
    points_complete_iff (l := .contiguous 11 0) rfl (Table.hasLayout_ofPoints p q)
      (Table.held_ofPoints p q) (Table.noneEnabled_of_width rfl) Nat.one_pos (by decide) hpublic
      (Table.mapM_tryValue_ofPoints p q) hone hp hq
  refine ⟨?_, ?_, ?_⟩
  · obtain ⟨outs, a, r, vs, hrun, hsum, houts, hvs, hnil⟩ := hcalls _ _ hthree hthree
    have haddable : Point.Addable (⟨2, 3⟩ : Point .goldilocks) ⟨2, 3⟩ :=
      ⟨by decide, by decide, by decide⟩
    exact ⟨outs, a, r, hrun, hsum, houts, hnil.mpr haddable ▸ hvs⟩
  · obtain ⟨outs, a, r, vs, hrun, hsum, houts, hvs, hnil⟩ := hcalls _ _ hzero hthree
    exact ⟨outs, a, r, vs, hrun, hsum, houts, hvs,
      fun h => absurd ((hnil.mp h).left rfl) (by decide)⟩
  · obtain ⟨outs, a, r, vs, hrun, hsum, houts, hvs, hnil⟩ := hcalls _ _ hminus hminus
    exact ⟨outs, a, r, vs, hrun, hsum, houts, hvs,
      fun h => absurd ((hnil.mp h).double rfl rfl) (by decide)⟩

end Plonkish
