import Plonkish.Proofs.Agreement

/-!
# Proofs — the degree of a constraint

The degree of an expression is computed from the tree alone, that of a constraint in point-value
form is tracked by the operations, and that in coefficient form is read off the coefficients.  All
three are in step: over a table of `n` rows, a degree of one in the expression stands for a degree
of `n - 1` of the polynomial.

The domain that a result lives on holds its operands as well, so its size does not depend on the
degree of the result alone.  An `Extent` is a degree together with the largest degree on the way to
it.  It is one more value type that expressions are computed in (`Expr.extent`), and the operations
on polynomials respect it:

* `Expr.hasExtent_pointValues`: a constraint in point-value form has the degree of its extent, over
  the least domain that holds the largest degree (`Count.isLeast_leastPower`).  Nothing is asked of
  the values, and the field need not have a domain for the table.
* `Expr.withinExtent_polynomial`: in coefficient form, a constraint has at most the degree of its
  extent.
* `Expr.degree_extent` and `Expr.reached_extent`: this is the degree of the expression, and it is
  the largest one, unless a part of the expression is raised to the power zero.

`Table.degrees_tracked` puts these together, with the constraints that a gate selects.
-/

noncomputable section

namespace Plonkish

variable {k : BaseField}

/-! ### Powers of two -/

namespace Count

theorem isPowerOfTwo_two_pow (m : Nat) : IsPowerOfTwo (2 ^ m) := by
  rw [IsPowerOfTwo, Nat.log2_two_pow, Nat.one_shiftLeft]

/-- The least power of two that is at least `n`. -/
theorem isLeast_leastPower (n : Nat) : IsLeast {s | IsPowerOfTwo s ∧ n ≤ s} (leastPower n) := by
  refine ⟨⟨?_, le_leastPower n⟩, fun s hs => ?_⟩
  · obtain ⟨m, hm⟩ := exists_leastPower_eq n
    rw [hm]
    exact isPowerOfTwo_two_pow m
  · obtain ⟨hs, hle⟩ := hs
    rw [IsPowerOfTwo, Nat.one_shiftLeft] at hs
    rw [← hs] at hle ⊢
    exact leastPower_le hle

theorem leastPower_mono {m n : Nat} (h : m ≤ n) : leastPower m ≤ leastPower n :=
  have hn := (isLeast_leastPower n).1
  (isLeast_leastPower m).2 ⟨hn.1, h.trans hn.2⟩

/-- The largest of two least powers holds the larger number. -/
theorem leastPower_max (m n : Nat) : leastPower (max m n) = max (leastPower m) (leastPower n) :=
  (show Monotone leastPower from fun _ _ => leastPower_mono).map_max

theorem leastPower_eq_self {n : Nat} (h : IsPowerOfTwo n) : leastPower n = n :=
  le_antisymm ((isLeast_leastPower n).2 ⟨h, le_rfl⟩) (le_leastPower n)

theorem pos_of_isPowerOfTwo {n : Nat} (h : IsPowerOfTwo n) : 0 < n := by
  rw [IsPowerOfTwo, Nat.one_shiftLeft] at h
  exact h ▸ Nat.two_pow_pos _

end Count

/-! ### Operations on point values -/

namespace PointValues

variable {p q r : PointValues k}

/-- A change of the number of points gives that number, and keeps the degree. -/
theorem shape_of_resize {points : Nat} (h : p.resize points = .ok r) :
    r.degree = p.degree ∧ r.size = points := by
  unfold resize at h
  split at h
  · next hsame =>
      obtain rfl := Except.ok.inj h
      exact ⟨rfl, hsame.symm⟩
  · split at h
    · obtain ⟨c, -, h⟩ := bind_eq_ok.mp h
      obtain ⟨m, hm, h⟩ := bind_eq_ok.mp h
      obtain ⟨d, hd, hr⟩ := bind_pure_eq_ok.mp h
      obtain ⟨-, rfl⟩ := Count.entries_eq_ok.mp hm
      obtain rfl := Domain.size_of_ofLength hd
      refine ⟨hr ▸ rfl, ?_⟩
      rw [← hr, size, Domain.forward_eq (length_fit _ _), List.length_map, Domain.length_elements]
    · cases h

/-- Polynomials are combined over the least domain that holds the new degree and both of them. -/
theorem shape_of_combine {f : Felt k → Felt k → Felt k} {degree : Nat}
    (h : combine f degree p q = .ok r) :
    r.degree = degree ∧ r.size = max (max (Count.leastPower (degree + 1)) p.size) q.size := by
  obtain ⟨n, hn, h⟩ := bind_eq_ok.mp h
  obtain ⟨-, rfl⟩ := add_one_eq_ok.mp hn
  obtain ⟨s, hs, h⟩ := bind_eq_ok.mp h
  obtain ⟨-, rfl⟩ := (Count.domainFor_eq_ok (Nat.succ_pos degree)).mp hs
  obtain ⟨p', hp', h⟩ := bind_eq_ok.mp h
  obtain ⟨q', hq', h⟩ := bind_eq_ok.mp h
  obtain rfl := Except.ok.inj h
  refine ⟨rfl, ?_⟩
  have hp := (shape_of_resize hp').2
  have hq := (shape_of_resize hq').2
  unfold size at hp hq ⊢
  rw [List.length_zipWith, hp, hq, min_self]

theorem shape_of_pow {n : Nat} (h : p.pow n = .ok r) :
    r.degree = p.degree * n ∧ r.size = max (Count.leastPower (p.degree * n + 1)) p.size := by
  obtain ⟨degree, hdegree, h⟩ := bind_eq_ok.mp h
  obtain ⟨-, rfl⟩ := Count.check_eq_ok.mp hdegree
  obtain ⟨m, hm, h⟩ := bind_eq_ok.mp h
  obtain ⟨-, rfl⟩ := add_one_eq_ok.mp hm
  obtain ⟨s, hs, h⟩ := bind_eq_ok.mp h
  obtain ⟨-, rfl⟩ := (Count.domainFor_eq_ok (Nat.succ_pos _)).mp hs
  obtain ⟨base, hbase, h⟩ := bind_eq_ok.mp h
  obtain rfl := Except.ok.inj h
  exact ⟨rfl, (List.length_map _).trans (shape_of_resize hbase).2⟩

theorem shape_of_rotated {rotation : Int} {domain : Nat} (h : p.rotated rotation domain = .ok r) :
    r.degree = p.degree ∧ r.size = p.size := by
  unfold rotated at h
  split at h
  · split at h
    · cases h
    · obtain rfl := Except.ok.inj h
      refine ⟨rfl, ?_⟩
      unfold size
      rw [List.length_append, List.length_drop, List.length_take]
      omega
  · cases h

end PointValues

/-! ### Extents -/

/-- A degree, and the largest degree on the way to it. -/
@[ext] structure Extent where
  /-- The degree. -/
  degree : Nat
  /-- The largest degree. -/
  reached : Nat

namespace Extent

/-- The extent of what has a given degree and is computed from two others. -/
def join (degree : Nat) (x y : Extent) : Extent :=
  ⟨degree, max (max degree x.reached) y.reached⟩

/-- The degree is the largest on the way to it. -/
def flat (degree : Nat) : Extent := ⟨degree, degree⟩

end Extent

/-- The operations on extents: products add, powers multiply, and sums take the larger. -/
def Algebra.extent (k : BaseField) : Algebra k Extent where
  constant _ := .flat 0
  sum x y := .join (max x.degree y.degree) x y
  difference x y := .join (max x.degree y.degree) x y
  product x y := .join (x.degree + y.degree) x y
  scaled x _ := x
  power x n := ⟨x.degree * n, max (x.degree * n) x.reached⟩

/-- The extent of a term whose variables have degree one is its degree. -/
theorem Term.valueOf_extent (t : Term k) :
    t.valueOf (.extent k) (fun _ => .flat 1) = .flat t.degree := by
  have hfold : ∀ (l : List Variable) (n : Nat), 0 < n →
      l.foldl (fun acc _ => (Algebra.extent k).product acc (.flat 1)) (.flat n) =
        .flat (n + l.length) := by
    intro l
    induction l with
    | nil => intro n _; rfl
    | cons v l ih =>
        intro n hn
        have hproduct : (Algebra.extent k).product (.flat n) (.flat 1) = .flat (n + 1) := by
          ext
          · rfl
          · show max (max (n + 1) n) 1 = n + 1
            omega
        rw [List.foldl_cons, hproduct, ih (n + 1) (Nat.succ_pos n), List.length_cons, Nat.add_assoc,
          Nat.add_comm 1]
  have hscaled : ∀ (x : Extent) (c : Word k), (Algebra.extent k).scaled x c = x := fun _ _ => rfl
  unfold valueOf degree
  cases t.vars with
  | nil => rfl
  | cons v rest =>
      dsimp only
      rw [hscaled, ite_self, hfold rest 1 Nat.one_pos, List.length_cons, Nat.add_comm]

namespace Expr

/-- The extent of an expression whose variables have degree one. -/
def extent (e : Expr k) : Extent := e.valueOf (.extent k) fun _ => .flat 1

/-- No part of the expression is raised to the power zero. -/
def NoZeroPower : Expr k → Prop
  | term _ => True
  | pow base power => base.NoZeroPower ∧ power ≠ 0
  | binop lhs rhs _ => lhs.NoZeroPower ∧ rhs.NoZeroPower

/-- **The degree of an expression**, if it fits, is that of its extent. -/
theorem degree_extent {e : Expr k} {n : Nat} (h : e.degree = .ok n) : e.extent.degree = n := by
  induction e generalizing n with
  | term t =>
      rw [extent, valueOf, t.valueOf_extent]
      exact Except.ok.inj h
  | pow base power ih =>
      obtain ⟨m, hm, h⟩ := bind_eq_ok.mp h
      obtain ⟨-, rfl⟩ := Count.check_eq_ok.mp h
      exact congrArg (· * power.toNat) (ih hm)
  | binop lhs rhs op ihl ihr =>
      cases op with
      | mult =>
          obtain ⟨a, ha, h⟩ := bind_eq_ok.mp h
          obtain ⟨b, hb, h⟩ := bind_eq_ok.mp h
          obtain ⟨-, rfl⟩ := Count.check_eq_ok.mp h
          exact congrArg₂ (· + ·) (ihl ha) (ihr hb)
      | add | sub =>
          obtain ⟨a, ha, h⟩ := bind_eq_ok.mp h
          obtain ⟨b, hb, rfl⟩ := bind_pure_eq_ok.mp h
          exact congrArg₂ max (ihl ha) (ihr hb)

/-- **Degrees only grow** on the way up the tree, unless there is a power of zero. -/
theorem reached_extent {e : Expr k} (h : e.NoZeroPower) : e.extent.reached = e.extent.degree := by
  induction e with
  | term t => rw [extent, valueOf, t.valueOf_extent]; rfl
  | pow base power ih =>
      have hpower : 0 < power.toNat :=
        Nat.pos_of_ne_zero fun hzero => h.2 (UInt32.toNat_inj.mp hzero)
      show max (base.extent.degree * power.toNat) base.extent.reached = _
      rw [ih h.1]
      exact max_eq_left (Nat.le_mul_of_pos_right _ hpower)
  | binop lhs rhs op ihl ihr =>
      have hl := ihl h.1
      have hr := ihr h.2
      cases op with
      | mult =>
          show max (max (lhs.extent.degree + rhs.extent.degree) lhs.extent.reached)
            rhs.extent.reached = lhs.extent.degree + rhs.extent.degree
          omega
      | add | sub =>
          show max (max (max lhs.extent.degree rhs.extent.degree) lhs.extent.reached)
            rhs.extent.reached = max lhs.extent.degree rhs.extent.degree
          omega

end Expr

/-! ### In point-value form -/

namespace PointValues

/-- The polynomial has `unit` times the degree of an extent, over the least domain that holds `unit`
times the largest one. -/
structure HasExtent (unit : Nat) (p : PointValues k) (s : Extent) : Prop where
  /-- The degree is a multiple of that of the extent. -/
  degree_eq : p.degree = unit * s.degree
  /-- The domain is the least that holds the same multiple of the largest degree. -/
  size_eq : p.size = Count.leastPower (unit * s.reached + 1)

variable {unit : Nat} {p q r : PointValues k} {s s' : Extent}

theorem HasExtent.combine {f : Felt k → Felt k → Felt k} {n : Nat} (hp : p.HasExtent unit s)
    (hq : q.HasExtent unit s') (h : combine f (unit * n) p q = .ok r) :
    r.HasExtent unit (.join n s s') := by
  obtain ⟨hdegree, hsize⟩ := shape_of_combine h
  refine ⟨hdegree, ?_⟩
  rw [hsize, hp.size_eq, hq.size_eq, ← Count.leastPower_max, ← Count.leastPower_max,
    Nat.add_max_add_right, Nat.add_max_add_right, Nat.mul_max_mul_left, Nat.mul_max_mul_left]
  rfl

theorem HasExtent.pow {n : Nat} (hp : p.HasExtent unit s) (h : p.pow n = .ok r) :
    r.HasExtent unit ((Algebra.extent k).power s n) := by
  obtain ⟨hdegree, hsize⟩ := shape_of_pow h
  rw [hp.degree_eq, Nat.mul_assoc] at hdegree hsize
  refine ⟨hdegree, ?_⟩
  rw [hsize, hp.size_eq, ← Count.leastPower_max, Nat.add_max_add_right, Nat.mul_max_mul_left]
  rfl

/-- **Each operation** on point values does to degree and size what it does to extents. -/
theorem related_extent (unit : Nat) :
    (PointValues.algebra k).Related (fun x s => ∀ p, x = .ok p → p.HasExtent unit s)
      (Algebra.extent k) where
  constant c := by
    rintro p hp
    obtain rfl := Except.ok.inj ((constant_one_eq c.felt).symm.trans hp)
    exact ⟨rfl, rfl⟩
  sum hx hy := by
    rintro r hr
    obtain ⟨p, hp, hr⟩ := bind_eq_ok.mp hr
    obtain ⟨q, hq, hr⟩ := bind_eq_ok.mp hr
    rw [add, (hx p hp).degree_eq, (hy q hq).degree_eq, Nat.mul_max_mul_left] at hr
    exact (hx p hp).combine (hy q hq) hr
  difference hx hy := by
    rintro r hr
    obtain ⟨p, hp, hr⟩ := bind_eq_ok.mp hr
    obtain ⟨q, hq, hr⟩ := bind_eq_ok.mp hr
    rw [sub, (hx p hp).degree_eq, (hy q hq).degree_eq, Nat.mul_max_mul_left] at hr
    exact (hx p hp).combine (hy q hq) hr
  product hx hy := by
    rintro r hr
    obtain ⟨p, hp, hr⟩ := bind_eq_ok.mp hr
    obtain ⟨q, hq, hr⟩ := bind_eq_ok.mp hr
    obtain ⟨degree, hdegree, hr⟩ := bind_eq_ok.mp hr
    obtain ⟨-, rfl⟩ := Count.check_eq_ok.mp hdegree
    rw [(hx p hp).degree_eq, (hy q hq).degree_eq, ← Nat.mul_add] at hr
    exact (hx p hp).combine (hy q hq) hr
  scaled c hx := by
    rintro r hr
    obtain ⟨p, hp, rfl⟩ := bind_pure_eq_ok.mp hr
    exact ⟨(hx p hp).degree_eq, (List.length_map _).trans (hx p hp).size_eq⟩
  power n hx := by
    rintro r hr
    obtain ⟨p, hp, hr⟩ := bind_eq_ok.mp hr
    exact (hx p hp).pow hr

end PointValues

namespace Table

variable {t : Table k} {cols : PolyColumns (PointValues k)}

/-- A column in point-value form has a point for each row, and the largest degree that these hold.
-/
theorem shape_of_column (hrows : Count.IsPowerOfTwo t.rows) (h : t.pointValues = .ok cols)
    {kind : ColumnKind} {index : Nat} {p : PointValues k} (hp : cols.column kind index = .ok p) :
    p.degree = t.rows - 1 ∧ p.size = t.rows := by
  obtain ⟨regions, hregions, rfl⟩ := bind_pure_eq_ok.mp h
  obtain ⟨hindex, hpoly⟩ :=
    Matrix.getElem?_columns (Regions.mapM_eq_ok hregions kind) (PolyColumns.column_eq_ok.mp hp)
  rw [if_neg (Count.pos_of_isPowerOfTwo hrows).ne'] at hpoly
  obtain ⟨_, -, hpoly⟩ := bind_eq_ok.mp hpoly
  obtain rfl := Except.ok.inj hpoly
  exact ⟨rfl, length_stride hindex⟩

theorem hasExtent_value (hrows : Count.IsPowerOfTwo t.rows) (h : t.pointValues = .ok cols)
    (v : Variable) {r : PointValues k} (hr : cols.value v = .ok r) :
    r.HasExtent (t.rows - 1) (.flat 1) := by
  have hsize : t.rows = Count.leastPower ((t.rows - 1) * 1 + 1) := by
    rw [Nat.mul_one, Nat.sub_add_cancel (Count.pos_of_isPowerOfTwo hrows)]
    exact (Count.leastPower_eq_self hrows).symm
  have hshift : cols.shift = fun rotation p => p.rotated rotation t.rows := by
    obtain ⟨_, -, rfl⟩ := bind_pure_eq_ok.mp h
    rfl
  obtain ⟨p, hp, hr⟩ := bind_eq_ok.mp hr
  obtain ⟨hdegree, hpoints⟩ := shape_of_column hrows h hp
  have hextent : p.HasExtent (t.rows - 1) (.flat 1) :=
    ⟨hdegree.trans (Nat.mul_one _).symm, hpoints.trans hsize⟩
  split at hr
  · obtain rfl := Except.ok.inj hr
    exact hextent
  · rw [hshift] at hr
    obtain ⟨hdegree', hpoints'⟩ := PointValues.shape_of_rotated hr
    exact ⟨hdegree'.trans hextent.degree_eq, hpoints'.trans hextent.size_eq⟩

end Table

/-- **In point-value form**, a constraint has the degree of its extent, over the least domain that
holds the largest degree on the way to it. -/
theorem Expr.hasExtent_pointValues {e : Expr k} {t : Table k} {cols : PolyColumns (PointValues k)}
    {q : PointValues k} (hrows : Count.IsPowerOfTwo t.rows) (h : t.pointValues = .ok cols)
    (hq : e.pointValues cols = .ok q) : q.HasExtent (t.rows - 1) e.extent :=
  valueOf_related (PointValues.related_extent _)
    (fun v _ _ hr => Table.hasExtent_value hrows h v hr) q (valueOf_of_overColumns hq)

/-! ### In coefficient form -/

namespace Poly

/-- The polynomial has at most `unit` times the degree of an extent. -/
def WithinExtent (unit : Nat) (p : Poly k) (s : Extent) : Prop :=
  p.toPolynomial.natDegree ≤ unit * s.degree

theorem max_le_mul_max {unit m n : Nat} {s s' : Extent} (hm : m ≤ unit * s.degree)
    (hn : n ≤ unit * s'.degree) : max m n ≤ unit * max s.degree s'.degree :=
  (max_le_max hm hn).trans (Nat.mul_max_mul_left _ _ _).le

/-- **Each operation** on coefficients stays within what it does to extents. -/
theorem related_withinExtent (unit : Nat) :
    (Poly.algebra k).Related (fun x s => ∀ p, x = .ok p → p.WithinExtent unit s)
      (Algebra.extent k) where
  constant c := by
    rintro p hp
    obtain rfl := Except.ok.inj hp
    rw [WithinExtent, toPolynomial_constant, Polynomial.natDegree_C]
    exact Nat.zero_le _
  sum hx hy := by
    rintro r hr
    obtain ⟨p, hp, hr⟩ := bind_eq_ok.mp hr
    obtain ⟨q, hq, rfl⟩ := bind_pure_eq_ok.mp hr
    rw [WithinExtent, toPolynomial_add]
    exact (Polynomial.natDegree_add_le _ _).trans (max_le_mul_max (hx p hp) (hy q hq))
  difference hx hy := by
    rintro r hr
    obtain ⟨p, hp, hr⟩ := bind_eq_ok.mp hr
    obtain ⟨q, hq, rfl⟩ := bind_pure_eq_ok.mp hr
    rw [WithinExtent, toPolynomial_sub]
    exact (Polynomial.natDegree_sub_le _ _).trans (max_le_mul_max (hx p hp) (hy q hq))
  product {x y s s'} hx hy := by
    rintro r hr
    obtain ⟨p, hp, hr⟩ := bind_eq_ok.mp hr
    obtain ⟨q, hq, hr⟩ := bind_eq_ok.mp hr
    rw [WithinExtent, toPolynomial_mul hr]
    calc (p.toPolynomial * q.toPolynomial).natDegree
        ≤ p.toPolynomial.natDegree + q.toPolynomial.natDegree := Polynomial.natDegree_mul_le
      _ ≤ unit * s.degree + unit * s'.degree := Nat.add_le_add (hx p hp) (hy q hq)
      _ = unit * (s.degree + s'.degree) := (Nat.mul_add _ _ _).symm
  scaled c hx := by
    rintro r hr
    obtain ⟨p, hp, rfl⟩ := bind_pure_eq_ok.mp hr
    rw [WithinExtent, toPolynomial_scale]
    exact (Polynomial.natDegree_mul_C_le _ c.felt).trans (hx p hp)
  power {x s} n hx := by
    rintro r hr
    obtain ⟨p, hp, hr⟩ := bind_eq_ok.mp hr
    rw [WithinExtent, toPolynomial_pow hr]
    calc (p.toPolynomial ^ n).natDegree ≤ n * p.toPolynomial.natDegree :=
      Polynomial.natDegree_pow_le
      _ ≤ n * (unit * s.degree) := Nat.mul_le_mul_left n (hx p hp)
      _ = unit * (s.degree * n) := by rw [Nat.mul_comm n, Nat.mul_assoc]

end Poly

namespace Table

variable {t : Table k} {d : Domain k} {cols : PolyColumns (Poly k)}

theorem natDegree_columnPolynomial_le (hd : d.size = t.rows) {kind : ColumnKind} {index : Nat}
    (hindex : index < t.width kind) : (t.columnPolynomial d kind index).natDegree ≤ t.rows - 1 := by
  have hlen : ((t.regions.get kind).stride index).length = d.size :=
    (length_stride hindex).trans hd.symm
  exact hd ▸ (PointValues.represents_ofValues hlen).natDegree_le

/-- A variable that has a polynomial has a column. -/
theorem index_lt_of_interpolated (h : t.interpolated d = .ok cols) {v : Variable} {p : Poly k}
    (hp : cols.value v = .ok p) : v.index.toNat < t.width v.kind := by
  obtain ⟨c, hc, -⟩ := bind_eq_ok.mp hp
  rw [interpolated, if_neg (not_not.mpr (size_of_interpolated h))] at h
  obtain ⟨regions, hregions, rfl⟩ := bind_pure_eq_ok.mp h
  exact (Matrix.getElem?_columns (Regions.mapM_eq_ok hregions v.kind)
    (PolyColumns.column_eq_ok.mp hc)).1

theorem withinExtent_value (h : t.interpolated d = .ok cols) (v : Variable) {p : Poly k}
    (hp : cols.value v = .ok p) : p.WithinExtent (t.rows - 1) (.flat 1) := by
  have hcolumn := natDegree_columnPolynomial_le (size_of_interpolated h)
    (index_lt_of_interpolated h hp)
  -- Turning a polynomial substitutes a multiple of the indeterminate.
  have hlinear : (Polynomial.C (d.rotationFactor v.rotation.toInt) * Polynomial.X).natDegree ≤ 1 :=
    (Polynomial.natDegree_C_mul_le _ _).trans Polynomial.natDegree_X.le
  rw [Poly.WithinExtent, toPolynomial_value h v p hp]
  exact Polynomial.natDegree_comp_le.trans (Nat.mul_le_mul hcolumn hlinear)

end Table

/-- **In coefficient form**, a constraint has at most the degree of its extent. -/
theorem Expr.withinExtent_polynomial {e : Expr k} {t : Table k} {d : Domain k}
    {cols : PolyColumns (Poly k)} {p : Poly k} (h : t.interpolated d = .ok cols)
    (hp : e.polynomial cols = .ok p) : p.WithinExtent (t.rows - 1) e.extent :=
  valueOf_related (Poly.related_withinExtent _)
    (fun v _ _ hp => Table.withinExtent_value h v hp) p (valueOf_of_overColumns hp)

/-! ### Degrees in step -/

namespace Table

variable {t : Table k}

/-- A constraint that is multiplied by the column of a selector has one degree more. -/
theorem degree_of_selected {cols : PolyColumns (PointValues k)} {s q r : PointValues k} {e : Expr k}
    {selector n : Nat} (hrows : Count.IsPowerOfTwo t.rows) (h : t.pointValues = .ok cols)
    (hs : cols.column .selector selector = .ok s) (hq : e.pointValues cols = .ok q)
    (hr : s.mul q = .ok r) (hn : e.degree = .ok n) : r.degree = (t.rows - 1) * (1 + n) := by
  obtain ⟨degree, hdegree, hr⟩ := bind_eq_ok.mp hr
  obtain ⟨-, rfl⟩ := Count.check_eq_ok.mp hdegree
  rw [(PointValues.shape_of_combine hr).1, (shape_of_column hrows h hs).1,
    (e.hasExtent_pointValues hrows h hq).degree_eq, Expr.degree_extent hn, Nat.mul_add, Nat.mul_one]

/-- **Degrees are tracked in step.**  Over a table whose height `n` is a power of two, a constraint
of degree `m` that is computed in point-value form has degree `(n - 1) * m`, and the coefficients
end there or before.  If no part of it is raised to the power zero, its domain is the least that
holds the degree. The constraints that a gate selects have one degree more each, that of the
selector. -/
theorem degrees_tracked (hrows : Count.IsPowerOfTwo t.rows) :
    (∀ (e : Expr k) m, e.degree = .ok m →
      (∀ q, (do e.pointValues (← t.pointValues)) = .ok q →
        q.degree = (t.rows - 1) * m ∧
        (e.NoZeroPower → IsLeast {s | Count.IsPowerOfTwo s ∧ q.degree < s} q.size)) ∧
      ∀ d p, (do e.polynomial (← t.interpolated d)) = .ok p → p.degree ≤ (t.rows - 1) * m) ∧
    ∀ (g : Gate k) l, (do g.selected (← t.pointValues)) = .ok l →
      List.Forall₂ (fun e q => ∀ m, e.degree = .ok m → q.degree = (t.rows - 1) * (1 + m))
        g.constraints l := by
  refine ⟨fun e m hm => ⟨fun q hq => ?_, fun d p hp => ?_⟩, fun g l hl => ?_⟩
  · obtain ⟨cols, hcols, hq⟩ := bind_eq_ok.mp hq
    have hextent := e.hasExtent_pointValues hrows hcols hq
    refine ⟨by rw [hextent.degree_eq, Expr.degree_extent hm], fun hpower => ?_⟩
    rw [hextent.size_eq, Expr.reached_extent hpower, ← hextent.degree_eq]
    exact Count.isLeast_leastPower (q.degree + 1)
  · obtain ⟨cols, hcols, hp⟩ := bind_eq_ok.mp hp
    rw [Poly.degree_eq, ← Expr.degree_extent hm]
    exact e.withinExtent_polynomial hcols hp
  · obtain ⟨cols, hcols, hl⟩ := bind_eq_ok.mp hl
    obtain ⟨s, hs, hl⟩ := bind_eq_ok.mp hl
    refine (mapM_eq_ok.mp hl).imp fun e q hq m hm => ?_
    obtain ⟨r, hr, hq⟩ := bind_eq_ok.mp hq
    exact degree_of_selected hrows hcols hs hr hq hm

/-- Squares have degree two, and with the selector degree three. -/
theorem degrees_tracked_squares :
    ∃ q p r, (do Expr.squares.pointValues (← Table.squares.pointValues)) = .ok q ∧
      (do Expr.squares.polynomial (← Table.squares.interpolated .twoPoints)) = .ok p ∧
      (do Gate.selected ⟨0, [.squares]⟩ (← Table.squares.pointValues)) = .ok [r] ∧
      q.degree = 2 ∧ IsLeast {s | Count.IsPowerOfTwo s ∧ q.degree < s} q.size ∧ p.degree ≤ 2 ∧
      r.degree = 3 := by
  have hdegree : Expr.squares.degree = .ok 2 := rfl
  have hpower : Expr.squares.NoZeroPower := ⟨⟨trivial, by decide⟩, trivial⟩
  obtain ⟨hexpr, hgate⟩ := degrees_tracked (t := .squares) rfl
  obtain ⟨hpoints, hcoeffs⟩ := hexpr .squares 2 hdegree
  obtain ⟨hq, hsize⟩ := hpoints _ rfl
  obtain ⟨hr, -⟩ := List.forall₂_cons.mp (hgate ⟨0, [.squares]⟩ [_] rfl)
  exact ⟨_, _, _, rfl, rfl, rfl, hq, hsize hpower, hcoeffs .twoPoints _ rfl, hr 2 hdegree⟩

end Table

end Plonkish

end
