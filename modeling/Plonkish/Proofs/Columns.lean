import Plonkish.Proofs.Cells
import Plonkish.Proofs.Product
import Plonkish.Proofs.Values

/-!
# Proofs — columns and constraints as polynomials

Over a domain of its height, a column of a table is the polynomial that takes the cells for values
(`Table.columnPolynomial`), a variable is the polynomial of its column in a multiple of the
indeterminate (`Table.variablePolynomial`), and a constraint over the table is the polynomial that
the variables make up (`Expr.polynomialOver`).  Both ways to compute a constraint from the columns
give this one:

* `Expr.toPolynomial_of_polynomial` in coefficient form;
* `Expr.represents_of_pointValues` in point-value form.

At the point of a row, it has the value that the constraint has in that row
(`Expr.eval_polynomialOver`), since turning the point of a row by a rotation gives the point of the
row the variable reads (`Table.eval_variablePolynomial`).  Polynomials are over the field, and so
are the scalars of constraints over proper words (`Expr.scalar_eval_polynomialOver`).
-/

noncomputable section

namespace Plonkish

open Polynomial (C X)

variable {k : BaseField}

/-! ### Lists of columns -/

theorem Regions.mapM_eq_ok {ε α β : Type} {f : α → Except ε β} {r : Regions α} {s : Regions β}
    (h : r.mapM f = .ok s) (kind : ColumnKind) : f (r.get kind) = .ok (s.get kind) := by
  obtain ⟨w, hw, h⟩ := bind_eq_ok.mp h
  obtain ⟨p, hp, h⟩ := bind_eq_ok.mp h
  obtain ⟨c, hc, h⟩ := bind_eq_ok.mp h
  obtain ⟨e, he, h⟩ := bind_eq_ok.mp h
  obtain rfl := Except.ok.inj h
  cases kind with
  | witness => exact hw
  | publicInput => exact hp
  | constant => exact hc
  | selector => exact he

/-- The columns of a matrix after a call for each of them. -/
theorem Matrix.getElem?_columns {P : Type} {m : Matrix k} {f : List (Felt k) → Except Fault P}
    {l : List P} (h : (do (← m.columns).mapM f) = .ok l) {i : Nat} {p : P} (hp : l[i]? = some p) :
    i < m.width ∧ f (m.stride i) = .ok p := by
  obtain ⟨columns, hcolumns, hl⟩ := bind_eq_ok.mp h
  obtain ⟨_, -, hcolumns⟩ := bind_eq_ok.mp hcolumns
  obtain rfl := Except.ok.inj hcolumns
  have hall := mapM_eq_ok.mp hl
  obtain ⟨hi, rfl⟩ := List.getElem?_eq_some_iff.mp hp
  have hwidth : i < m.width := by
    have hlen := hall.length_eq
    rw [Matrix.columnList, List.length_map, List.length_range] at hlen
    exact hlen ▸ hi
  refine ⟨hwidth, ?_⟩
  have hget := hall.get (hall.length_eq ▸ hi) hi
  simpa [Matrix.columnList] using hget

namespace PolyColumns

variable {P : Type} {t : PolyColumns P} {p : P}

theorem column_eq_ok {kind : ColumnKind} {i : Nat} :
    t.column kind i = .ok p ↔ (t.regions.get kind)[i]? = some p := by
  unfold column
  dsimp only
  split
  · next h =>
      rw [h]
      exact ⟨fun hp => congrArg _ (Except.ok.inj hp), fun hp => congrArg _ (Option.some.inj hp)⟩
  · next h => rw [h]; exact ⟨nofun, nofun⟩

/-- A shifted column is found under its variable. -/
theorem lookup_of_forall₂ {l : List Variable} {prepared : List (Variable × P)}
    (h : List.Forall₂ (fun v c => (do return (v, ← t.value v)) = .ok c) l prepared) {v : Variable}
    (hv : v ∈ l) : ∃ p, prepared.lookup v = some p ∧ t.value v = .ok p := by
  induction h with
  | nil => cases hv
  | @cons w c l prepared hc _ ih =>
      obtain ⟨p, hp, rfl⟩ := bind_pure_eq_ok.mp hc
      rw [List.lookup_cons]
      by_cases hvw : v = w
      · subst hvw
        exact ⟨p, by rw [BEq.rfl], hp⟩
      · obtain ⟨q, hq, hvalue⟩ := ih ((List.mem_cons.mp hv).resolve_left hvw)
        exact ⟨q, by rw [beq_false_of_ne hvw]; exact hq, hvalue⟩

/-- With the shifted columns prepared, a variable is found as it would be without. -/
theorem lookup_eq {vars : List Variable} {prepared : List (Variable × P)}
    (h : t.shifted vars = .ok prepared) {v : Variable} (hv : v ∈ vars) :
    t.lookup prepared v = t.value v := by
  unfold lookup
  by_cases hzero : v.rotation = 0
  · rw [if_pos hzero, value]
    simp only [hzero, if_pos]
    cases t.unshifted v <;> rfl
  · have hmem : v ∈ vars.filter (·.rotation ≠ 0) := by simp [hv, hzero]
    obtain ⟨p, hp, hvalue⟩ := lookup_of_forall₂ (mapM_eq_ok.mp h) hmem
    rw [if_neg hzero, hp, hvalue]

end PolyColumns

/-- A constraint over the columns is computed from the polynomials of its variables, once the
shifted columns are prepared. -/
theorem Expr.overColumns_eq {P : Type} (e : Expr k) (A : Algebra k (Except Fault P))
    (t : PolyColumns P) :
    e.overColumns A t = (do
      let _ ← t.shifted e.distinctVariables
      e.valueOf A t.value) := by
  unfold overColumns
  cases hprepared : t.shifted e.distinctVariables with
  | error f => rfl
  | ok prepared =>
      show Id.run (e.evaluate A fun v => pure (t.lookup prepared v)) = e.valueOf A t.value
      rw [run_evaluate]
      exact valueOf_congr fun v hv => PolyColumns.lookup_eq hprepared (mem_distinctVariables.mpr hv)

/-- Evaluation over columns that succeeds is the value of the expression in the columns' algebra. -/
theorem Expr.valueOf_of_overColumns {P : Type} {e : Expr k} {A : Algebra k (Except Fault P)}
    {t : PolyColumns P} {p : P} (h : e.overColumns A t = .ok p) : e.valueOf A t.value = .ok p := by
  rw [overColumns_eq] at h
  obtain ⟨_, -, h⟩ := bind_eq_ok.mp h
  exact h

/-! ### Polynomials over a table -/

/-- The operations on polynomials. -/
def Algebra.polynomial (k : BaseField) : Algebra k (Polynomial (Felt k)) where
  constant c := C c.felt
  sum := (· + ·)
  difference := (· - ·)
  product := (· * ·)
  scaled P c := P * C c.felt
  power := (· ^ ·)

/-- The values of polynomials at a point are computed as elements of the field. -/
theorem Algebra.related_eval (x : Felt k) :
    (Algebra.polynomial k).Related (fun P a => P.eval x = a) (Algebra.field k) where
  constant c := Polynomial.eval_C
  sum hx hy := by rw [← hx, ← hy]; exact Polynomial.eval_add
  difference hx hy := by rw [← hx, ← hy]; exact Polynomial.eval_sub _ _ _
  product hx hy := by rw [← hx, ← hy]; exact Polynomial.eval_mul
  scaled c hx := by
    rw [← hx]
    exact Polynomial.eval_mul.trans (congrArg _ Polynomial.eval_C)
  power n hx := by rw [← hx]; exact Polynomial.eval_pow _

namespace Table

/-- The polynomial that takes the cells of a column for values over a domain. -/
def columnPolynomial (t : Table k) (d : Domain k) (kind : ColumnKind) (index : Nat) :
    Polynomial (Felt k) :=
  d.interpolant ((t.regions.get kind).stride index)

/-- The polynomial of a variable. -/
def variablePolynomial (t : Table k) (d : Domain k) (v : Variable) : Polynomial (Felt k) :=
  (t.columnPolynomial d v.kind v.index.toNat).comp (C (d.rotationFactor v.rotation.toInt) * X)

variable {t : Table k} {d : Domain k}

theorem comp_rotationFactor_zero (P : Polynomial (Felt k)) :
    P.comp (C (d.rotationFactor 0) * X) = P := by
  rw [Domain.rotationFactor_eq, zpow_zero, map_one, one_mul, Polynomial.comp_X]

theorem variablePolynomial_of_rotation_eq_zero {v : Variable} (h : v.rotation = 0) :
    t.variablePolynomial d v = t.columnPolynomial d v.kind v.index.toNat := by
  rw [variablePolynomial, h]
  exact comp_rotationFactor_zero _

/-- The polynomial of a column takes the cells as its values on the domain. -/
theorem eval_columnPolynomial (hd : d.size = t.rows) {kind : ColumnKind} {index row : Nat}
    (hc : index < t.width kind) (hr : row < t.rows) :
    (t.columnPolynomial d kind index).eval (d.element row) = t.cellAt ⟨kind, index, row⟩ := by
  have hlen : ((t.regions.get kind).stride index).length = d.size :=
    (length_stride hc).trans hd.symm
  have hvalues := congrArg (·[row]?) (Domain.map_eval_interpolant hlen)
  simp only [List.getElem?_map, Domain.getElem?_elements, hd, if_pos hr, getElem?_stride hc,
    Option.map_some, Option.some_inj] at hvalues
  exact hvalues

/-- **The polynomial of a variable** has at the point of a row the value that the variable reads
from that row. -/
theorem eval_variablePolynomial (hd : d.size = t.rows) {v : Variable} (hv : t.HoldsRelative v)
    {row : Nat} (hr : row < t.rows) :
    (t.variablePolynomial d v).eval (d.element row) = t.valueAt row v := by
  have hlt := Variable.turnedRow_lt hr v.rotation.toInt
  rw [variablePolynomial, Polynomial.eval_comp, Polynomial.eval_mul, Polynomial.eval_C,
    Polynomial.eval_X, Domain.rotationFactor_mul_element, hd, valueAt, Variable.cellOf,
    Variable.rowOf, if_pos hv.relative]
  exact eval_columnPolynomial hd hv.index_lt hlt

end Table

namespace Expr

/-- The polynomial of a constraint. -/
def polynomialOver (e : Expr k) (t : Table k) (d : Domain k) : Polynomial (Felt k) :=
  e.valueOf (Algebra.polynomial k) (t.variablePolynomial d)

/-- **The polynomial of a constraint** has at the point of a row the value of the constraint in that
row. -/
theorem eval_polynomialOver {e : Expr k} {t : Table k} {d : Domain k} (hd : d.size = t.rows)
    (h : ∀ v ∈ e.occurrences, t.HoldsRelative v) {row : Nat} (hr : row < t.rows) :
    (e.polynomialOver t d).eval (d.element row) = e.value (t.valueAt row) :=
  valueOf_related (Algebra.related_eval (d.element row)) fun v hv =>
    Table.eval_variablePolynomial hd (h v hv) hr

/-- The polynomial of a constraint over proper words has at every point the scalar of the
constraint, under the values that the polynomials of the variables have there. -/
theorem scalar_eval_polynomialOver {e : Expr k} (hproper : e.Proper) (t : Table k) (d : Domain k)
    (x : Felt k) : ((e.polynomialOver t d).eval x).scalar =
      e.scalar fun v => (t.variablePolynomial d v).eval x := by
  rw [scalar_eq_scalar_value hproper]
  exact congrArg Felt.scalar (valueOf_related (Algebra.related_eval x) fun _ _ => rfl)

end Expr

/-! ### In coefficient form -/

/-- A polynomial in coefficient form that answers is the given one. -/
def Poly.Denotes (x : Except Fault (Poly k)) (P : Polynomial (Felt k)) : Prop :=
  ∀ p, x = .ok p → p.toPolynomial = P

/-- The operations on coefficients are those on polynomials. -/
theorem Poly.related_toPolynomial :
    (Poly.algebra k).Related Poly.Denotes (Algebra.polynomial k) where
  constant c := by
    rintro p hp
    obtain rfl := Except.ok.inj hp
    exact toPolynomial_constant c.felt
  sum hx hy := by
    rintro r hr
    obtain ⟨p, hp, hr⟩ := bind_eq_ok.mp hr
    obtain ⟨q, hq, rfl⟩ := bind_pure_eq_ok.mp hr
    rw [toPolynomial_add, hx p hp, hy q hq]
    rfl
  difference hx hy := by
    rintro r hr
    obtain ⟨p, hp, hr⟩ := bind_eq_ok.mp hr
    obtain ⟨q, hq, rfl⟩ := bind_pure_eq_ok.mp hr
    rw [toPolynomial_sub, hx p hp, hy q hq]
    rfl
  product hx hy := by
    rintro r hr
    obtain ⟨p, hp, hr⟩ := bind_eq_ok.mp hr
    obtain ⟨q, hq, hr⟩ := bind_eq_ok.mp hr
    rw [toPolynomial_mul hr, hx p hp, hy q hq]
    rfl
  scaled c hx := by
    rintro r hr
    obtain ⟨p, hp, rfl⟩ := bind_pure_eq_ok.mp hr
    rw [toPolynomial_scale, hx p hp]
    rfl
  power n hx := by
    rintro r hr
    obtain ⟨p, hp, hr⟩ := bind_eq_ok.mp hr
    rw [toPolynomial_pow hr, hx p hp]
    rfl

namespace Table

variable {t : Table k} {d : Domain k} {cols : PolyColumns (Poly k)}

theorem size_of_interpolated (h : t.interpolated d = .ok cols) : d.size = t.rows := by
  unfold interpolated at h
  split at h
  · cases h
  · next hd => exact not_not.mp hd

theorem toPolynomial_column (h : t.interpolated d = .ok cols) {kind : ColumnKind} {index : Nat}
    {p : Poly k} (hp : cols.column kind index = .ok p) :
    p.toPolynomial = t.columnPolynomial d kind index := by
  have hd := size_of_interpolated h
  rw [interpolated, if_neg (not_not.mpr hd)] at h
  obtain ⟨regions, hregions, rfl⟩ := bind_pure_eq_ok.mp h
  obtain ⟨hindex, hpoly⟩ :=
    Matrix.getElem?_columns (Regions.mapM_eq_ok hregions kind) (PolyColumns.column_eq_ok.mp hp)
  obtain ⟨q, hq, heq⟩ := Poly.interpolate_eq ((length_stride hindex).trans hd.symm)
  obtain rfl := Except.ok.inj (hpoly.symm.trans hq)
  exact heq

theorem toPolynomial_value (h : t.interpolated d = .ok cols) (v : Variable) :
    Poly.Denotes (cols.value v) (t.variablePolynomial d v) := by
  intro r hr
  obtain ⟨p, hp, hr⟩ := bind_eq_ok.mp hr
  have hcolumn := toPolynomial_column h hp
  have hshift : cols.shift = fun rotation p => .ok (p.rotated rotation d) := by
    rw [interpolated, if_neg (not_not.mpr (size_of_interpolated h))] at h
    obtain ⟨_, -, rfl⟩ := bind_pure_eq_ok.mp h
    rfl
  -- Without a rotation, the column is taken as it is.
  split at hr
  · next hzero =>
      obtain rfl := Except.ok.inj hr
      rw [variablePolynomial_of_rotation_eq_zero hzero, hcolumn]
  · rw [hshift] at hr
    obtain rfl := Except.ok.inj hr
    rw [Poly.toPolynomial_rotated, hcolumn]
    rfl

end Table

/-- **In coefficient form**, a constraint over the columns is the polynomial of the constraint. -/
theorem Expr.toPolynomial_of_polynomial {e : Expr k} {t : Table k} {d : Domain k}
    {cols : PolyColumns (Poly k)} {p : Poly k} (h : t.interpolated d = .ok cols)
    (hp : e.polynomial cols = .ok p) : p.toPolynomial = e.polynomialOver t d :=
  valueOf_related Poly.related_toPolynomial (fun v _ => Table.toPolynomial_value h v) p
    (valueOf_of_overColumns hp)

/-! ### In point-value form -/

/-- A polynomial in point-value form that answers is the given one, over some domain. -/
def PointValues.Denotes (x : Except Fault (PointValues k)) (P : Polynomial (Felt k)) : Prop :=
  ∀ p, x = .ok p → ∃ d, p.Represents d P

/-- The operations on values are those on polynomials. -/
theorem PointValues.related_represents :
    (PointValues.algebra k).Related PointValues.Denotes (Algebra.polynomial k) where
  constant c := by
    rintro p hp
    obtain rfl := Except.ok.inj ((constant_one_eq c.felt).symm.trans hp)
    exact ⟨point k, represents_constant c.felt⟩
  sum hx hy := by
    rintro r hr
    obtain ⟨p, hp, hr⟩ := bind_eq_ok.mp hr
    obtain ⟨q, hq, hr⟩ := bind_eq_ok.mp hr
    obtain ⟨_, hp⟩ := hx p hp
    obtain ⟨_, hq⟩ := hy q hq
    obtain ⟨c, -, -, hr⟩ := hp.add hq hr
    exact ⟨c, hr⟩
  difference hx hy := by
    rintro r hr
    obtain ⟨p, hp, hr⟩ := bind_eq_ok.mp hr
    obtain ⟨q, hq, hr⟩ := bind_eq_ok.mp hr
    obtain ⟨_, hp⟩ := hx p hp
    obtain ⟨_, hq⟩ := hy q hq
    obtain ⟨c, -, -, hr⟩ := hp.sub hq hr
    exact ⟨c, hr⟩
  product hx hy := by
    rintro r hr
    obtain ⟨p, hp, hr⟩ := bind_eq_ok.mp hr
    obtain ⟨q, hq, hr⟩ := bind_eq_ok.mp hr
    obtain ⟨_, hp⟩ := hx p hp
    obtain ⟨_, hq⟩ := hy q hq
    obtain ⟨c, -, -, hr⟩ := hp.mul hq hr
    exact ⟨c, hr⟩
  scaled c hx := by
    rintro r hr
    obtain ⟨p, hp, rfl⟩ := bind_pure_eq_ok.mp hr
    obtain ⟨d, hp⟩ := hx p hp
    exact ⟨d, hp.scale c.felt⟩
  power n hx := by
    rintro r hr
    obtain ⟨p, hp, hr⟩ := bind_eq_ok.mp hr
    obtain ⟨_, hp⟩ := hx p hp
    obtain ⟨c, -, -, hr⟩ := hp.pow hr
    exact ⟨c, hr⟩

namespace Table

variable {t : Table k} {d : Domain k} {cols : PolyColumns (PointValues k)}

/-- A column in point-value form lives on the domain of the table. -/
theorem represents_column (hd : d.size = t.rows) (h : t.pointValues = .ok cols)
    {kind : ColumnKind} {index : Nat} {p : PointValues k} (hp : cols.column kind index = .ok p) :
    p.Represents d (t.columnPolynomial d kind index) := by
  obtain ⟨regions, hregions, rfl⟩ := bind_pure_eq_ok.mp h
  obtain ⟨hindex, hpoly⟩ :=
    Matrix.getElem?_columns (Regions.mapM_eq_ok hregions kind) (PolyColumns.column_eq_ok.mp hp)
  have hlen : ((t.regions.get kind).stride index).length = d.size :=
    (length_stride hindex).trans hd.symm
  rw [← hd, if_neg d.size_pos.ne', PointValues.ofValues_eq hlen] at hpoly
  obtain rfl := Except.ok.inj hpoly
  exact PointValues.represents_ofValues hlen

theorem represents_value (hd : d.size = t.rows) (h : t.pointValues = .ok cols) (v : Variable) :
    PointValues.Denotes (cols.value v) (t.variablePolynomial d v) := by
  intro r hr
  obtain ⟨p, hp, hr⟩ := bind_eq_ok.mp hr
  have hcolumn := represents_column hd h hp
  have hshift : cols.shift = fun rotation p => p.rotated rotation d.size := by
    obtain ⟨_, -, rfl⟩ := bind_pure_eq_ok.mp h
    rw [hd]
  split at hr
  · next hzero =>
      obtain rfl := Except.ok.inj hr
      exact ⟨d, variablePolynomial_of_rotation_eq_zero hzero ▸ hcolumn⟩
  · rw [hshift] at hr
    exact ⟨d, (hcolumn.rotated hr le_rfl).2⟩

end Table

/-- **In point-value form**, a constraint over the columns is the polynomial of the constraint. -/
theorem Expr.represents_of_pointValues {e : Expr k} {t : Table k} {d : Domain k}
    {cols : PolyColumns (PointValues k)} {p : PointValues k} (hd : d.size = t.rows)
    (h : t.pointValues = .ok cols) (hp : e.pointValues cols = .ok p) :
    ∃ c, p.Represents c (e.polynomialOver t d) :=
  valueOf_related PointValues.related_represents (fun v _ => Table.represents_value hd h v) p
    (valueOf_of_overColumns hp)

end Plonkish

end
