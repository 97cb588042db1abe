import Plonkish.Proofs.Check
import Plonkish.Proofs.Columns

/-!
# Proofs — the ways to compute a constraint agree

A constraint is computed from the cells of a row, from the columns in coefficient form, and from the
columns in point-value form.

* `Expr.atRow_eq_evaluate`: the polynomial in coefficient form has at the point of a row the value
  that is computed from the cells.
* `Expr.coefficients_equiv_polynomial`: the polynomial in point-value form is the one in coefficient
  form, whatever the variables and powers of the constraint are.
* `Circuit.gateViolations_eq_nil_iff_selected`: a table satisfies the gates exactly if the
  constraints, multiplied by the columns of their selectors, vanish over the domain of the table.

They agree for constraints over proper words.  A word of zero that is not reduced, say, is not zero
as the value of a row, while the polynomial is evaluated to zero.
-/

noncomputable section

namespace Plonkish

open Polynomial (C X)

variable {k : BaseField}

/-! ### A table of two rows -/

/-- The term of a single variable, as an expression. -/
def Expr.ofCell (v : Variable) : Expr k :=
  .term ⟨1, [v], List.pairwise_singleton _ _, fun h => by cases k <;> cases h⟩

/-- The square of a cell is the cell below. -/
def Expr.squares : Expr .babyBear :=
  .binop (.pow (ofCell ⟨.witness, 0, 0, true⟩) 2) (ofCell ⟨.witness, 0, 1, true⟩) .sub

theorem Expr.proper_ofCell (v : Variable) : (ofCell v : Expr k).Proper := Word.closed_proper.one

theorem Expr.proper_squares : squares.Proper := ⟨proper_ofCell _, proper_ofCell _⟩

/-- A table with a witness column and a selector that is enabled in the first row. -/
def Table.squares : Table .babyBear where
  rows := 2
  usableRows := 2
  regions := ⟨⟨2, 1, #[3, 9], rfl⟩, .zero _ 2 0, .zero _ 2 0, ⟨2, 1, #[1, 0], rfl⟩⟩
  height_eq kind := by cases kind <;> rfl

/-- A circuit with a single gate. -/
def Circuit.squares : Circuit .babyBear := ⟨#[⟨0, [.squares]⟩], ∅, #[]⟩

/-- The domain of two points. -/
def Domain.twoPoints : Domain .babyBear := ⟨1, by decide⟩

variable {t : Table k} {d : Domain k}

/-- The height of a table that a domain has the size of is small. -/
theorem Table.rows_le (hd : Domain.ofSize k t.rows = .ok d) : t.rows ≤ 2 ^ 62 :=
  Domain.size_of_ofSize hd ▸ d.size_le.trans (by decide)

/-! ### Cells and coefficients -/

/-- **At the point of a row**, the polynomial of a constraint over proper words has the value of the
constraint in that row. -/
theorem Expr.atRow_eq_evaluate {e : Expr k} {row : Nat} {p : Poly k} (hproper : e.Proper)
    (hd : Domain.ofSize k t.rows = .ok d) (hvars : ∀ v ∈ e.occurrences, t.HoldsRelative v)
    (hrow : row < t.rows) (hp : (do e.polynomial (← t.interpolated d)) = .ok p) :
    e.atRow t row = .ok (p.evaluate (d.element row)).scalar := by
  obtain ⟨cols, hcols, hp⟩ := bind_eq_ok.mp hp
  have hvalue := eval_polynomialOver (Domain.size_of_ofSize hd) hvars hrow
  rw [atRow_eq (fun v hv => (hvars v hv).holds) hrow (Table.rows_le hd),
    scalar_eq_scalar_value hproper, Poly.evaluate_eq, toPolynomial_of_polynomial hcols hp, hvalue]

/-- In the last row, the cell below is the first one. -/
theorem Expr.atRow_eq_evaluate_squares : Expr.squares.Proper ∧
    ∃ p, (do Expr.squares.polynomial (← Table.squares.interpolated .twoPoints)) = .ok p ∧
      Expr.squares.atRow .squares 1 = .ok (p.evaluate (Domain.twoPoints.element 1)).scalar :=
  ⟨proper_squares, _, rfl, atRow_eq_evaluate proper_squares rfl (by decide) (by decide) rfl⟩

/-- A word of zero that is not reduced is not zero in a row, and the polynomial is zero there. -/
example : let e : Expr .babyBear := .term ⟨.ofBits BaseField.babyBear.order, [], .nil, fun _ => rfl⟩
    e.atRow .squares 1 ≠ .ok 0 ∧
      (do let p ← e.polynomial (← Table.squares.interpolated .twoPoints)
          return p.evaluate (Domain.twoPoints.element 1)) = .ok 0 :=
  ⟨fun h => absurd (Except.ok.inj h) (by decide), rfl⟩

/-! ### Point values and coefficients -/

/-- **The two polynomial forms** of a constraint over proper words are one polynomial.  It has at
every point the value of the constraint under the values that its variables have there as
polynomials. -/
theorem Expr.coefficients_equiv_polynomial {e : Expr k} {p : Poly k} {q : PointValues k}
    (hproper : e.Proper) (hp : (do e.polynomial (← t.interpolated d)) = .ok p)
    (hq : (do e.pointValues (← t.pointValues)) = .ok q) :
    ∃ c, q.coefficients = .ok c ∧ c.Equiv p ∧ ∀ x, q.evaluate x = .ok (p.evaluate x) ∧
      (p.evaluate x).scalar = e.scalar fun v => (t.variablePolynomial d v).eval x := by
  obtain ⟨cols, hcols, hp⟩ := bind_eq_ok.mp hp
  obtain ⟨cols', hcols', hq⟩ := bind_eq_ok.mp hq
  have hpoly := toPolynomial_of_polynomial hcols hp
  obtain ⟨_, hrep⟩ := represents_of_pointValues (Table.size_of_interpolated hcols) hcols' hq
  obtain ⟨c, hc, hcpoly⟩ := hrep.exists_coefficients
  refine ⟨c, hc, Poly.equiv_iff.mpr (hcpoly.trans hpoly.symm), ?_⟩
  intro x
  rw [hrep.evaluate_eq, Poly.evaluate_eq, hpoly, scalar_eval_polynomialOver hproper]
  exact ⟨rfl, rfl⟩

theorem Expr.coefficients_equiv_polynomial_squares : Expr.squares.Proper ∧
    ∃ p q c, (do Expr.squares.polynomial (← Table.squares.interpolated .twoPoints)) = .ok p ∧
      (do Expr.squares.pointValues (← Table.squares.pointValues)) = .ok q ∧
      q.coefficients = .ok c ∧ c.Equiv p ∧ ∀ x, q.evaluate x = .ok (p.evaluate x) ∧
        (p.evaluate x).scalar =
          Expr.squares.scalar fun v => (Table.squares.variablePolynomial .twoPoints v).eval x := by
  obtain ⟨c, hc⟩ := coefficients_equiv_polynomial (t := .squares) (d := .twoPoints) proper_squares
    rfl rfl
  exact ⟨proper_squares, _, _, c, rfl, rfl, hc⟩

/-! ### Selected constraints -/

/-- Values over a domain are all zero if the polynomial vanishes at the point of every row. -/
theorem map_elements_eq_replicate_iff {P : Polynomial (Felt k)} :
    (d.elements.map fun x => P.eval x) = List.replicate d.size 0 ↔
      ∀ row < d.size, P.eval (d.element row) = 0 := by
  rw [List.eq_replicate_iff, List.length_map, Domain.length_elements, List.forall_mem_map,
    Domain.elements_eq_map, List.forall_mem_map]
  exact ⟨fun h row hrow => h.2 row (List.mem_range.mpr hrow),
    fun h => ⟨rfl, fun row hrow => h row (List.mem_range.mp hrow)⟩⟩

/-- A constraint times the column of a selector vanishes over the domain exactly if in each row the
selector is zero or the constraint vanishes. -/
theorem PointValues.restrictedTo_selected {cols : PolyColumns (PointValues k)} {e : Expr k}
    {s q p : PointValues k} {selector : Nat} (hd : d.size = t.rows)
    (hcols : t.pointValues = .ok cols)
    (hselector : selector < t.width .selector) (hvars : ∀ v ∈ e.occurrences, t.HoldsRelative v)
    (hs : cols.column .selector selector = .ok s) (hq : e.pointValues cols = .ok q)
    (hp : s.mul q = .ok p) :
    p.restrictedTo d = List.replicate t.rows 0 ↔
      ∀ row < t.rows, t.cellAt ⟨.selector, selector, row⟩ ≠ 0 → e.value (t.valueAt row) = 0 := by
  obtain ⟨_, hq⟩ := Expr.represents_of_pointValues hd hcols hq
  obtain ⟨c, hc, -, hp⟩ := (Table.represents_column hd hcols hs).mul hq hp
  -- The product lives on a domain that holds its degree and contains the one of the table.
  have hle : d.size ≤ c.size := hc ▸ (le_max_right _ _).trans (le_max_left _ _)
  rw [hp.restrictedTo hle, ← hd, map_elements_eq_replicate_iff]
  refine forall₂_congr ?_
  intro row hrow
  rw [hd] at hrow
  rw [Polynomial.eval_mul, Table.eval_columnPolynomial hd hselector hrow,
    Expr.eval_polynomialOver hd hvars hrow, mul_eq_zero, ← or_iff_not_imp_left]

theorem Gate.restrictedTo_selected {cols : PolyColumns (PointValues k)} {g : Gate k}
    {l : List (PointValues k)} (hd : d.size = t.rows) (hcols : t.pointValues = .ok cols)
    (hselector : g.selector < t.width .selector)
    (hvars : ∀ e ∈ g.constraints, ∀ v ∈ e.occurrences, t.HoldsRelative v)
    (hl : g.selected cols = .ok l) :
    (∀ p ∈ l, p.restrictedTo d = List.replicate t.rows 0) ↔
      ∀ row < t.rows, g.SatisfiedAt t row := by
  obtain ⟨s, hs, hl⟩ := bind_eq_ok.mp hl
  have hall := forall_mem_mapM
    (B := fun p : PointValues k => p.restrictedTo d = List.replicate t.rows 0) hl
      fun e he p hp => by
      obtain ⟨q, hq, hp⟩ := bind_eq_ok.mp hp
      exact PointValues.restrictedTo_selected hd hcols hselector (hvars e he) hs hq hp
  rw [hall]
  constructor
  · intro h row hrow hne e he
    exact h e he row hrow hne
  · intro h e he row hrow hne
    exact h row hrow hne e he

/-- **The gates are satisfied**, if their constraints are over proper words, exactly if the selected
constraints vanish over the domain of the table. -/
theorem Circuit.gateViolations_eq_nil_iff_selected {c : Circuit k}
    {cols : PolyColumns (PointValues k)} (hproper : ∀ g ∈ c.gates, ∀ e ∈ g.constraints, e.Proper)
    (hd : Domain.ofSize k t.rows = .ok d)
    (hselectors : ∀ g ∈ c.gates, g.selector < t.width .selector)
    (hvars : ∀ g ∈ c.gates, ∀ e ∈ g.constraints, ∀ v ∈ e.occurrences, t.HoldsRelative v)
    (hcols : t.pointValues = .ok cols) (hselected : ∀ g ∈ c.gates, ∃ l, g.selected cols = .ok l) :
    ∃ vs, c.gateViolations t = .ok vs ∧
      (vs = [] ↔ ∀ g ∈ c.gates, ∀ l, g.selected cols = .ok l →
        ∀ p ∈ l, p.restrictedTo d = List.replicate t.rows 0) := by
  have hsize := Domain.size_of_ofSize hd
  obtain ⟨vs, hvs, hnil⟩ := gateViolations_eq_nil_iff hproper
    (fun g hg e he v hv => (hvars g hg e he v hv).holds) (Table.rows_le hd)
  refine ⟨vs, hvs, hnil.trans (forall₂_congr ?_)⟩
  intro g hg
  have hgate := fun l =>
    Gate.restrictedTo_selected (l := l) hsize hcols (hselectors g hg) (hvars g hg)
  constructor
  · intro hrows l hl
    exact (hgate l hl).mpr hrows
  · intro hall
    obtain ⟨l, hl⟩ := hselected g hg
    exact (hgate l hl).mp (hall l hl)

theorem Circuit.gateViolations_eq_nil_iff_selected_squares :
    (∀ g ∈ Circuit.squares.gates, ∀ e ∈ g.constraints, e.Proper) ∧
    ∃ cols vs, Table.squares.pointValues = .ok cols ∧
      Circuit.squares.gateViolations .squares = .ok vs ∧
      (vs = [] ↔ ∀ g ∈ Circuit.squares.gates, ∀ l, g.selected cols = .ok l →
        ∀ p ∈ l, p.restrictedTo .twoPoints = List.replicate 2 0) := by
  have hgates : ∀ g ∈ Circuit.squares.gates, g = ⟨0, [.squares]⟩ := fun g hg => by
    simpa [Circuit.squares] using hg
  have hproper : ∀ g ∈ Circuit.squares.gates, ∀ e ∈ g.constraints, e.Proper := by
    intro g hg e he
    rw [hgates g hg, List.mem_singleton] at he
    exact he ▸ Expr.proper_squares
  have hcols : Table.squares.pointValues = .ok _ := rfl
  obtain ⟨vs, hvs⟩ := gateViolations_eq_nil_iff_selected (d := .twoPoints) hproper rfl
    (fun g hg => by rw [hgates g hg]; decide) (fun g hg => by rw [hgates g hg]; decide) hcols
    (fun g hg => by rw [hgates g hg]; exact ⟨_, rfl⟩)
  exact ⟨hproper, _, vs, hcols, hvs⟩

end Plonkish

end
