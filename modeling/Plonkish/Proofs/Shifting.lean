import Plonkish.Proofs.Agreement
import Plonkish.Proofs.Substitution

/-!
# Proofs — shifting a constraint

The variables of a constraint can be moved instead of the row that the constraint is read from.

* `Table.valueAt_shift`: to shift the rotation of a relative variable by `d` is to read it from the
  row that lies `d` below.  Rotations wrap around at 32 bits and rows at the height of the table,
  and these agree where the height divides `2 ^ 32` (`Variable.turnedRow_add`).
* `Table.resolve_fixedAt`: the cell that a relative variable reads from a row can be named by an
  absolute variable, which reads it from everywhere.

`Expr.atRow_shift_fixedAt` says both of constraints.
-/

namespace Plonkish

variable {k : BaseField}

/-! ### Rows -/

/-- A power of two that fits in 32 bits divides the number of rotations. -/
theorem Count.IsPowerOfTwo.dvd {n m : Nat} (h : IsPowerOfTwo n) (hle : n ≤ 2 ^ m) : n ∣ 2 ^ m := by
  rw [IsPowerOfTwo, Nat.one_shiftLeft] at h
  rw [← h] at hle ⊢
  exact Nat.pow_dvd_pow 2 ((Nat.pow_le_pow_iff_right Nat.one_lt_two).mp hle)

namespace Variable

/-- Turning by a sum of rotations is turning twice, if the height of the table divides the number of
rotations there are. -/
theorem turnedRow_add {rows : Nat} (hdvd : rows ∣ 2 ^ 32) (row : Nat) (r d : Int32) :
    turnedRow rows row (r + d).toInt = turnedRow rows (turnedRow rows row d.toInt) r.toInt := by
  have hpos : (0 : Int) < rows := by
    exact_mod_cast Nat.pos_of_dvd_of_pos hdvd (by decide)
  have hwrap : (r + d).toInt ≡ r.toInt + d.toInt [ZMOD rows] := by
    have hmod : (r + d).toInt ≡ r.toInt + d.toInt [ZMOD (2 ^ 32 : Nat)] := by
      rw [Int32.toInt_add]
      exact Int.bmod_emod
    exact hmod.of_dvd (Int.natCast_dvd_natCast.mpr hdvd)
  have hturned : ((turnedRow rows row d.toInt : Nat) : Int) ≡ row + d.toInt [ZMOD rows] := by
    rw [turnedRow, Int.toNat_of_nonneg (Int.emod_nonneg _ hpos.ne')]
    exact Int.mod_modEq _ _
  have hsum : (row : Int) + (r + d).toInt ≡ turnedRow rows row d.toInt + r.toInt [ZMOD rows] :=
    calc (row : Int) + (r + d).toInt
      _ ≡ row + (r.toInt + d.toInt) [ZMOD rows] := hwrap.add_left _
      _ = row + d.toInt + r.toInt := by ring
      _ ≡ turnedRow rows row d.toInt + r.toInt [ZMOD rows] := hturned.symm.add_right _
  exact congrArg Int.toNat hsum

/-- The cell that a relative variable reads from a row, as an absolute variable. -/
def fixedAt (rows row : Nat) (v : Variable) : Variable :=
  ⟨v.kind, v.index, Int32.ofNat (turnedRow rows row v.rotation.toInt), false⟩

/-- The row of the cell is found as rotations are, and small enough for an absolute variable. -/
theorem absolute_rotatedRow {rows row : Nat} (hrow : row < rows) (hrows : rows ≤ 2 ^ 31)
    (v : Variable) :
    (do absolute v.kind v.index (← rotatedRow rows row v.rotation)) = .ok (v.fixedAt rows row) := by
  have hlt : turnedRow rows row v.rotation.toInt < 2 ^ 31 := (turnedRow_lt hrow _).trans_le hrows
  rw [rotatedRow_eq hrow (hrows.trans (by decide))]
  exact absolute_eq_ok.mpr ⟨hlt, rfl⟩

theorem rowOf_fixedAt {rows row : Nat} (hrow : row < rows) (hrows : rows ≤ 2 ^ 31) (v : Variable)
    (rows' anchor : Nat) :
    (v.fixedAt rows row).rowOf rows' anchor = turnedRow rows row v.rotation.toInt := by
  have hlt : turnedRow rows row v.rotation.toInt < 2 ^ 31 := (turnedRow_lt hrow _).trans_le hrows
  show (Int32.ofNat (turnedRow rows row v.rotation.toInt)).toInt.toNat = _
  rw [Int32.toInt_ofNat_of_lt hlt, Int.toNat_natCast]

end Variable

/-! ### Cells -/

namespace Table

variable {t : Table k} {row : Nat} {v : Variable}

theorem HoldsRelative.shift (h : t.HoldsRelative v) (d : Int32) : t.HoldsRelative (v.shift d) :=
  ⟨h.relative, h.index_lt⟩

/-- **A shifted variable** has the value of the variable in the row below. -/
theorem valueAt_shift (hdvd : t.rows ∣ 2 ^ 32) (h : t.HoldsRelative v) (d : Int32) :
    t.valueAt row (v.shift d) = t.valueAt (Variable.turnedRow t.rows row d.toInt) v := by
  have hrow : (v.shift d).rowOf t.rows row =
      v.rowOf t.rows (Variable.turnedRow t.rows row d.toInt) := by
    rw [Variable.rowOf, Variable.rowOf, if_pos h.relative, if_pos (h.shift d).relative]
    exact Variable.turnedRow_add hdvd row v.rotation d
  exact congrArg (fun r => t.cellAt ⟨v.kind, v.index.toNat, r⟩) hrow

theorem HoldsRelative.fixedAt (h : t.HoldsRelative v) (hrow : row < t.rows)
    (hrows : t.rows ≤ 2 ^ 31) :
    t.HoldsAbsolute (v.fixedAt t.rows row) := by
  have hlt := Variable.turnedRow_lt hrow v.rotation.toInt
  have hrotation : (v.fixedAt t.rows row).rotation.toInt =
      Variable.turnedRow t.rows row v.rotation.toInt := Int32.toInt_ofNat_of_lt (hlt.trans_le hrows)
  refine ⟨rfl, h.index_lt, ?_, ?_⟩
  · rw [hrotation]
    exact Int.natCast_nonneg _
  · rw [hrotation]
    exact_mod_cast hlt

theorem HoldsRelative.valueAt_fixedAt (h : t.HoldsRelative v) (hrow : row < t.rows)
    (hrows : t.rows ≤ 2 ^ 31) (anchor : Nat) :
    t.valueAt anchor (v.fixedAt t.rows row) = t.valueAt row v := by
  have hcell : (v.fixedAt t.rows row).rowOf t.rows anchor = v.rowOf t.rows row := by
    rw [Variable.rowOf_fixedAt hrow hrows, Variable.rowOf, if_pos h.relative]
  exact congrArg t.cellAt (congrArg (Cell.mk v.kind v.index.toNat) hcell)

/-- An absolute variable does not depend on the row that it is read from. -/
theorem tryResolve_of_absolute (h : v.relative = false) (anchor : Nat) :
    t.tryResolve v anchor = t.tryValue v := by
  simp only [tryValue, tryResolve, Variable.row, h, Bool.false_eq_true, if_false]

/-- **A rebased variable** has from everywhere the value of the variable in the row. -/
theorem resolve_fixedAt (h : t.HoldsRelative v) (hrow : row < t.rows) (hrows : t.rows ≤ 2 ^ 31)
    (anchor : Nat) : t.resolve (v.fixedAt t.rows row) anchor = .ok (t.valueAt row v) := by
  have hfixed := h.fixedAt hrow hrows
  rw [resolve_eq_tryResolve, tryResolve_of_absolute hfixed.absolute, tryValue_eq hfixed,
    h.valueAt_fixedAt hrow hrows]
  rfl

end Table

/-! ### Constraints -/

namespace Expr

variable {t : Table k} {e : Expr k} {row : Nat}

/-- The value of a constraint with other variables in place of its own. -/
theorem atRow_mapVariables {f : Variable → Variable} {anchor : Nat}
    (h : ∀ v ∈ e.occurrences, t.resolve (f v) anchor = .ok (t.valueAt anchor (f v))) :
    (e.mapVariables f).atRow t anchor = .ok (e.scalar fun v => t.valueAt anchor (f v)) := by
  rw [atRow, ← scalar_mapVariables]
  refine evaluate_scalars_eq fun u hu => ?_
  obtain ⟨v, hv, rfl⟩ := mem_occurrences_mapVariables.mp hu
  exact h v hv

/-- The value of a shifted constraint. -/
theorem atRow_shift (hdvd : t.rows ∣ 2 ^ 32) (hvars : ∀ v ∈ e.occurrences, t.HoldsRelative v)
    (hrow : row < t.rows) (d : Int32) :
    (e.mapVariables (·.shift d)).atRow t row =
      .ok (e.scalar (t.valueAt (Variable.turnedRow t.rows row d.toInt))) := by
  have hrows : t.rows ≤ 2 ^ 62 := (Nat.le_of_dvd (by decide) hdvd).trans (by decide)
  rw [atRow_mapVariables fun v hv => Table.resolve_eq ((hvars v hv).shift d).holds hrow hrows]
  exact congrArg _ (scalar_congr fun v hv => Table.valueAt_shift hdvd (hvars v hv) d)

/-- The value of a rebased constraint. -/
theorem atRow_fixedAt (hvars : ∀ v ∈ e.occurrences, t.HoldsRelative v) (hrow : row < t.rows)
    (hrows : t.rows ≤ 2 ^ 31) (anchor : Nat) :
    (e.mapVariables (·.fixedAt t.rows row)).atRow t anchor = .ok (e.scalar (t.valueAt row)) := by
  have hvalue : ∀ v ∈ e.occurrences, t.valueAt anchor (v.fixedAt t.rows row) = t.valueAt row v :=
    fun v hv => (hvars v hv).valueAt_fixedAt hrow hrows anchor
  rw [atRow_mapVariables fun v hv => ?_]
  · exact congrArg _ (scalar_congr hvalue)
  · rw [Table.resolve_fixedAt (hvars v hv) hrow hrows, hvalue v hv]

/-- **Moving the variables** of a constraint is moving its row.  To add to each rotation is to read
the constraint from a row below, and the row that each variable reads from a row can be put into
absolute variables, which then give the same value from every row. -/
theorem atRow_shift_fixedAt (hpow : Count.IsPowerOfTwo t.rows) (hheight : t.rows ≤ 2 ^ 32)
    (hvars : ∀ v ∈ e.occurrences, t.HoldsRelative v) (hrow : row < t.rows) :
    (∀ d : Int32, ∃ r a, Variable.rotatedRow t.rows row d = .ok r ∧ r < t.rows ∧
      (e.mapVariables (·.shift d)).atRow t row = .ok a ∧ e.atRow t r = .ok a) ∧
    (t.rows ≤ 2 ^ 31 →
      (∀ v : Variable, (do
        Variable.absolute v.kind v.index (← Variable.rotatedRow t.rows row v.rotation)) =
          .ok (v.fixedAt t.rows row)) ∧
      ∃ a, e.atRow t row = .ok a ∧
        ∀ anchor, (e.mapVariables (·.fixedAt t.rows row)).atRow t anchor = .ok a) := by
  have hrows : t.rows ≤ 2 ^ 62 := hheight.trans (by decide)
  have hvalue {r : Nat} (hr : r < t.rows) : e.atRow t r = .ok (e.scalar (t.valueAt r)) :=
    atRow_eq (fun v hv => (hvars v hv).holds) hr hrows
  constructor
  · intro d
    have hlt := Variable.turnedRow_lt hrow d.toInt
    have hdvd : t.rows ∣ 2 ^ 32 := Count.IsPowerOfTwo.dvd hpow hheight
    exact ⟨_, _, Variable.rotatedRow_eq hrow hrows d, hlt, atRow_shift hdvd hvars hrow d,
      hvalue hlt⟩
  · intro hsmall
    exact ⟨Variable.absolute_rotatedRow hrow hsmall, _, hvalue hrow,
      atRow_fixedAt hvars hrow hsmall⟩

/-- From the last row, where the cell below is the first one. -/
theorem atRow_shift_fixedAt_squares :
    (∀ d : Int32, ∃ r a, Variable.rotatedRow 2 1 d = .ok r ∧ r < 2 ∧
      (squares.mapVariables (·.shift d)).atRow .squares 1 = .ok a ∧
        squares.atRow .squares r = .ok a) ∧
    ∃ a, squares.atRow .squares 1 = .ok a ∧
      ∀ anchor, (squares.mapVariables (·.fixedAt 2 1)).atRow .squares anchor = .ok a := by
  obtain ⟨hshift, hfixed⟩ := atRow_shift_fixedAt (t := .squares) (e := squares) rfl (by decide)
    (by decide) Nat.one_lt_two
  exact ⟨hshift, (hfixed (by decide)).2⟩

end Expr

end Plonkish
