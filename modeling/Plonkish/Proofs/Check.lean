import Plonkish.Circuit.Check
import Plonkish.Proofs.Cells
import Plonkish.Proofs.Values

/-!
# Proofs — checking a table

Where the cells that a circuit names exist, checking a table answers, and finds nothing exactly if
the table does what the circuit asks for:

* `Circuit.gateViolations_eq_nil_iff`: every constraint vanishes in the rows where its selector is
  not zero, be it one or any other value;
* `Circuit.copyViolations_eq_nil_iff`: the two cells of every copy constraint hold the same value.
-/

namespace Plonkish

variable {k : BaseField} {t : Table k}

/-! ### Gates -/

/-- In a row where the selector is not zero, the constraints vanish. -/
def Gate.SatisfiedAt (g : Gate k) (t : Table k) (row : Nat) : Prop :=
  t.cellAt ⟨.selector, g.selector, row⟩ ≠ 0 → ∀ e ∈ g.constraints, e.value (t.valueAt row) = 0

theorem Gate.violationAt_eq_none_iff {g : Gate k} {row : Nat} {constraint : Expr k × Nat}
    (hproper : constraint.1.Proper) (h : ∀ v ∈ constraint.1.occurrences, t.Holds v)
    (hrow : row < t.rows) (hrows : t.rows ≤ 2 ^ 62) :
    ∃ v, g.violationAt t row constraint = .ok v ∧
      (v = none ↔ constraint.1.value (t.valueAt row) = 0) := by
  rw [violationAt, Expr.tryAtRow_eq h hrow hrows, Expr.scalar_eq_scalar_value hproper,
    ← Felt.scalar_eq_zero]
  refine ⟨_, rfl, ?_⟩
  split
  · next hzero => exact iff_of_true rfl hzero
  · next hne => exact iff_of_false nofun hne

theorem Gate.violations_eq_nil_iff {g : Gate k} {row : Nat}
    (hproper : ∀ e ∈ g.constraints, e.Proper)
    (h : ∀ e ∈ g.constraints, ∀ v ∈ e.occurrences, t.Holds v) (hrow : row < t.rows)
    (hrows : t.rows ≤ 2 ^ 62) :
    ∃ vs, g.violations t row = .ok vs ∧ (vs = [] ↔ g.SatisfiedAt t row) := by
  unfold violations
  split
  · next henabled =>
      -- The constraints are numbered for the messages; the numbers play no part in what is found.
      rw [← List.zipIdx_map_fst 0 g.constraints, List.forall_mem_map] at h hproper
      obtain ⟨vs, hvs, hiff⟩ := exists_mapM_iff (f := g.violationAt t row) fun c hc =>
        violationAt_eq_none_iff (hproper c hc) (h c hc) hrow hrows
      refine ⟨_, bind_pure_eq_ok.mpr ⟨vs, hvs, rfl⟩, ?_⟩
      have hne := Table.enabled_iff.mp henabled
      rw [List.filterMap_eq_nil_iff, SatisfiedAt, forall_prop_of_true hne]
      conv_rhs => rw [← List.zipIdx_map_fst 0 g.constraints, List.forall_mem_map]
      exact hiff
  · next hdisabled =>
      refine ⟨[], rfl, iff_of_true rfl ?_⟩
      intro hne
      exact absurd (Table.enabled_iff.mpr hne) hdisabled

namespace Circuit

variable {c : Circuit k}

/-- **Checking the gates** finds nothing exactly if every constraint vanishes in every row that its
selector is enabled in. -/
theorem gateViolations_eq_nil_iff (hproper : ∀ g ∈ c.gates, ∀ e ∈ g.constraints, e.Proper)
    (h : ∀ g ∈ c.gates, ∀ e ∈ g.constraints, ∀ v ∈ e.occurrences, t.Holds v)
    (hrows : t.rows ≤ 2 ^ 62) :
    ∃ vs, c.gateViolations t = .ok vs ∧
      (vs = [] ↔ ∀ g ∈ c.gates, ∀ row < t.rows, g.SatisfiedAt t row) := by
  obtain ⟨vs, hvs, hiff⟩ := exists_mapM_iff (l := c.gates.toList) (B := (· = []))
    (f := fun g => if g.selector < t.width .selector then
      (do return (← (List.range t.rows).mapM (g.violations t)).flatten) else pure [])
    (Q := fun g => ∀ row < t.rows, g.SatisfiedAt t row) fun g hg => by
      split
      · obtain ⟨rows, hrows', hiff⟩ := exists_mapM_iff (f := g.violations t) fun row hrow =>
          Gate.violations_eq_nil_iff (hproper g (Array.mem_def.mpr hg)) (h g (Array.mem_def.mpr hg))
            (List.mem_range.mp hrow) hrows
        refine ⟨_, bind_pure_eq_ok.mpr ⟨rows, hrows', rfl⟩, ?_⟩
        rw [List.flatten_eq_nil_iff, hiff]
        exact forall_congr' fun row => by rw [List.mem_range]
      · -- A selector without a column is enabled nowhere.
        next hmissing =>
          refine ⟨[], rfl, iff_of_true rfl ?_⟩
          intro row _ hne
          exact absurd (Table.cellAt_of_not_has fun hcell => hmissing hcell.index_lt) hne
  refine ⟨_, bind_pure_eq_ok.mpr ⟨vs, hvs, rfl⟩, ?_⟩
  rw [List.flatten_eq_nil_iff, hiff]
  exact forall_congr' fun g => by rw [Array.mem_def]

end Circuit

/-! ### Copy constraints -/

theorem Table.cellOrRefusal_eq {v : Variable} (h : t.HoldsAbsolute v) (hrows : t.rows ≤ 2 ^ 62) :
    t.cellOrRefusal v = .ok (.ok (t.valueAt 0 v)) := by
  rw [cellOrRefusal, tryValue, tryResolve_eq h.holds h.rows_pos hrows]
  rfl

/-- The two cells hold the same value. -/
def CopyConstraint.Satisfied (c : CopyConstraint) (t : Table k) : Prop :=
  t.valueAt 0 c.first = t.valueAt 0 c.second

instance (c : CopyConstraint) (t : Table k) : Decidable (c.Satisfied t) :=
  inferInstanceAs (Decidable (_ = _))

theorem CopyConstraint.violation_eq_none_iff {c : CopyConstraint}
    (hfirst : t.HoldsAbsolute c.first) (hsecond : t.HoldsAbsolute c.second)
    (hrows : t.rows ≤ 2 ^ 62) : ∃ v, c.violation t = .ok v ∧ (v = none ↔ c.Satisfied t) := by
  rw [violation, Table.cellOrRefusal_eq hfirst hrows, Table.cellOrRefusal_eq hsecond hrows]
  refine ⟨_, rfl, ?_⟩
  split
  · next hsame => exact iff_of_true rfl hsame
  · next hdiffer => exact iff_of_false nofun hdiffer

namespace Circuit

variable {c : Circuit k}

/-- **Checking the copy constraints** finds nothing exactly if the two cells of each are equal. -/
theorem copyViolations_eq_nil_iff
    (h : ∀ copy ∈ c.copies, t.HoldsAbsolute copy.first ∧ t.HoldsAbsolute copy.second)
    (hrows : t.rows ≤ 2 ^ 62) :
    ∃ vs, c.copyViolations t = .ok vs ∧ (vs = [] ↔ ∀ copy ∈ c.copies, copy.Satisfied t) := by
  obtain ⟨vs, hvs, hiff⟩ := exists_mapM_iff (f := fun copy => copy.violation t) fun copy hcopy =>
    have hcells := h copy (Array.mem_def.mpr hcopy)
    CopyConstraint.violation_eq_none_iff hcells.1 hcells.2 hrows
  refine ⟨_, bind_pure_eq_ok.mpr ⟨vs, hvs, rfl⟩, ?_⟩
  rw [List.filterMap_eq_nil_iff]
  exact hiff.trans (forall_congr' fun copy => by rw [Array.mem_def])

/-- **Checking a table** answers where the cells that the circuit names exist, and finds nothing if
the gates hold in every row and the copied cells agree. -/
theorem exists_violations (hproper : ∀ g ∈ c.gates, ∀ e ∈ g.constraints, e.Proper)
    (hgates : ∀ g ∈ c.gates, ∀ e ∈ g.constraints, ∀ v ∈ e.occurrences, t.Holds v)
    (hcopies : ∀ copy ∈ c.copies, t.HoldsAbsolute copy.first ∧ t.HoldsAbsolute copy.second)
    (hrows : t.rows ≤ 2 ^ 62) :
    ∃ vs, c.violations t = .ok vs ∧ (vs = [] ↔
      (∀ g ∈ c.gates, ∀ row < t.rows, g.SatisfiedAt t row) ∧
        ∀ copy ∈ c.copies, copy.Satisfied t) := by
  obtain ⟨gates, hgates, hnil⟩ := gateViolations_eq_nil_iff hproper hgates hrows
  obtain ⟨copies, hcopies, hnil'⟩ := copyViolations_eq_nil_iff hcopies hrows
  refine ⟨gates ++ copies, ?_, ?_⟩
  · rw [violations, hgates, hcopies]
    rfl
  · rw [List.append_eq_nil_iff, hnil, hnil']

/-- **A table satisfies a circuit** whose gates hold in every row and whose copied cells agree. -/
theorem violations_eq_nil (hproper : ∀ g ∈ c.gates, ∀ e ∈ g.constraints, e.Proper)
    (hgates : ∀ g ∈ c.gates, ∀ e ∈ g.constraints, ∀ v ∈ e.occurrences, t.Holds v)
    (hcopies : ∀ copy ∈ c.copies, t.HoldsAbsolute copy.first ∧ t.HoldsAbsolute copy.second)
    (hrows : t.rows ≤ 2 ^ 62) (hrow : ∀ g ∈ c.gates, ∀ row < t.rows, g.SatisfiedAt t row)
    (hcopy : ∀ copy ∈ c.copies, copy.Satisfied t) : c.violations t = .ok [] := by
  obtain ⟨vs, hvs, hnil⟩ := exists_violations hproper hgates hcopies hrows
  rw [hvs, hnil.mpr ⟨hrow, hcopy⟩]

end Circuit

end Plonkish
