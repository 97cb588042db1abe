import Plonkish.Proofs.Check
import Plonkish.Proofs.Lookups
import Plonkish.Proofs.Operators
import Plonkish.Proofs.Writes

/-!
# Proofs — accepted tables

What is known of a table once checking it finds nothing, with nothing known of its cells beforehand.

* `Circuit.violations_eq_nil_iff`: checking a table finds nothing exactly if the table does what the
  circuit asks for (`Circuit.MetBy`).  A cell that does not exist is a violation, so the cells
  exist.
* `Table.tryResolve_eq_ok` and `Expr.tryAtRow_eq_ok`: a variable that has a value names a cell of
  the table, and so does every variable of a constraint that has one.

Rows are found by signed 64-bit arithmetic, which is exact for every table that can be held
(`Table.Held`).  New tables can be held, and stay so.
-/

namespace Plonkish

variable {k : BaseField} {t t' : Table k}

/-! ### Tables that can be held -/

namespace Table

/-- The cells of each region take fewer than `2 ^ 63` bytes. -/
def Held (t : Table k) : Prop := ∀ kind, t.Affords (t.width kind)

theorem Held.rows_le (h : t.Held) {kind : ColumnKind} (hcolumn : 0 < t.width kind) :
    t.rows ≤ 2 ^ 62 := by
  have hbytes : 2 ≤ k.wordBytes := by cases k <;> decide
  have hle : t.rows * 2 ≤ t.rows * t.width kind * k.wordBytes :=
    Nat.mul_le_mul (Nat.le_mul_of_pos_right _ hcolumn) hbytes
  have hlt : t.rows * t.width kind * k.wordBytes < 2 ^ 63 := h kind
  omega

theorem affords_of_cellsOf {height width n : Nat} (h : Matrix.cellsOf k height width = .ok n) :
    height * width * k.wordBytes < 2 ^ 63 := by
  obtain ⟨m, hm, hheld⟩ := bind_eq_ok.mp h
  obtain ⟨-, rfl⟩ := Count.check_eq_ok.mp hm
  exact (Count.entries_eq_ok.mp hheld).1

/-- A new table can be held. -/
theorem held_of_new {d : Description} (h : new k d = .ok t) : t.Held := by
  obtain ⟨_, hregions, rfl⟩ := bind_pure_eq_ok.mp h
  obtain ⟨_, hwitness, hregions⟩ := bind_eq_ok.mp hregions
  obtain ⟨_, hpublic, hregions⟩ := bind_eq_ok.mp hregions
  obtain ⟨_, hconstant, hregions⟩ := bind_eq_ok.mp hregions
  obtain ⟨_, hselector, -⟩ := bind_eq_ok.mp hregions
  intro kind
  cases kind with
  | witness => exact affords_of_cellsOf hwitness
  | publicInput => exact affords_of_cellsOf hpublic
  | constant => exact affords_of_cellsOf hconstant
  | selector => exact affords_of_cellsOf hselector

theorem Held.replace (hheld : t.Held) {kind : ColumnKind} {m : Matrix k} {h : m.height = t.rows}
    (hm : t.Affords m.width) : (t.replace kind m h).Held := by
  intro c
  rw [Affords, width_replace h]
  split
  · exact hm
  · exact hheld c

/-- Writing a cell keeps the shape of a table. -/
theorem Held.trySet (h : t.Held) {kind : ColumnKind} {index row : Nat} {a : Felt k}
    (hset : t.trySet kind index row a = .ok t') : t'.Held := by
  unfold Table.trySet at hset
  split at hset
  · split at hset
    · obtain rfl := Except.ok.inj hset
      exact h.replace (h kind)
    · cases hset
  · cases hset

/-- A selector column is appended only if it can be held. -/
theorem Held.tryEnable (h : t.Held) {selector row : Nat}
    (henable : t.tryEnable selector row = .ok t') : t'.Held := by
  unfold Table.tryEnable at henable
  split at henable
  · obtain ⟨_, hcheck, hput⟩ := bind_eq_ok.mp henable
    obtain rfl := Except.ok.inj hput
    rw [mapError_eq_ok, checkSelector] at hcheck
    refine h.replace ?_
    show t.Affords ((t.regions.get .selector).grown (selector + 1)).width
    rw [Matrix.width_grown]
    split at hcheck
    · next hold => exact (max_eq_left (Nat.succ_le_of_lt hold)).symm ▸ h .selector
    · next hnew =>
        obtain ⟨width, hwidth, hcells⟩ := bind_eq_ok.mp hcheck
        obtain ⟨-, rfl⟩ := Count.check_eq_ok.mp hwidth
        obtain ⟨_, hcells, -⟩ := bind_pure_eq_ok.mp hcells
        exact (max_eq_right (Nat.le_succ_of_le (not_lt.mp hnew))).symm ▸ affords_of_cellsOf hcells
  · cases henable

/-! ### Cells that have a value -/

theorem tryGet_eq_ok {kind : ColumnKind} {index row : Nat} {a : Felt k} :
    t.tryGet kind index row = .ok a ↔
      t.Has ⟨kind, index, row⟩ ∧ t.cellAt ⟨kind, index, row⟩ = a := by
  constructor
  · intro h
    have hcell : t.Has ⟨kind, index, row⟩ := by
      unfold tryGet at h
      split at h
      · next hindex =>
          split at h
          · next hrow => exact ⟨hindex, hrow⟩
          · cases h
      · cases h
    exact ⟨hcell, Except.ok.inj ((tryGet_eq hcell).symm.trans h)⟩
  · rintro ⟨hcell, rfl⟩
    exact tryGet_eq hcell

theorem exists_row_of_tryResolve {v : Variable} {anchor : Nat} {a : Felt k}
    (h : t.tryResolve v anchor = .ok a) :
    ∃ row, v.row anchor t.rows = .ok (some row) ∧ t.tryGet v.kind v.index.toNat row = .ok a := by
  obtain ⟨row?, hrow, hget⟩ := bind_eq_ok.mp h
  rw [mapError_eq_ok] at hrow
  cases row? with
  | none => cases hget
  | some row => exact ⟨row, hrow, mapError_eq_ok.mp hget⟩

/-- **A variable that has a value** names a cell of the table. -/
theorem tryResolve_eq_ok (hheld : t.Held) {v : Variable} {anchor : Nat} (ha : anchor < t.rows)
    {a : Felt k} (h : t.tryResolve v anchor = .ok a) :
    t.Has (v.cellOf t.rows anchor) ∧ t.valueAt anchor v = a := by
  obtain ⟨row, hrow, hget⟩ := exists_row_of_tryResolve h
  obtain ⟨hcell, hvalue⟩ := tryGet_eq_ok.mp hget
  have hrows := hheld.rows_le (Nat.zero_lt_of_lt hcell.index_lt)
  have hnonneg : v.relative = false → 0 ≤ v.rotation.toInt := by
    intro hrel
    by_contra hneg
    rw [Variable.row, hrel, if_neg Bool.false_ne_true, if_pos (not_le.mp hneg)] at hrow
    cases hrow
  rw [Variable.row_eq ha hrows hnonneg] at hrow
  obtain rfl := Option.some.inj (Except.ok.inj hrow)
  exact ⟨hcell, hvalue⟩

/-- An absolute variable that has a value names a cell, whatever the height of the table. -/
theorem tryValue_eq_ok {v : Variable} (hv : v.relative = false) {a : Felt k} :
    t.tryValue v = .ok a ↔ t.HoldsAbsolute v ∧ t.valueAt 0 v = a := by
  constructor
  · intro h
    obtain ⟨row, hrow, hget⟩ := exists_row_of_tryResolve h
    rw [Variable.row, hv, if_neg Bool.false_ne_true] at hrow
    split at hrow
    · cases hrow
    · next hnonneg =>
        obtain rfl := Option.some.inj (Except.ok.inj hrow)
        have hcell := (tryGet_eq_ok.mp hget).1
        have hholds : t.HoldsAbsolute v :=
          ⟨hv, hcell.index_lt, not_lt.mp hnonneg, Int.lt_of_toNat_lt hcell.row_lt⟩
        exact ⟨hholds, Except.ok.inj ((tryValue_eq hholds).symm.trans h)⟩
  · rintro ⟨hholds, rfl⟩
    exact tryValue_eq hholds

end Table

/-! ### Constraints that have a value -/

/-- **A constraint that has a value** reads cells of the table. -/
theorem Expr.tryAtRow_eq_ok (hheld : t.Held) {e : Expr k} {anchor : Nat} (ha : anchor < t.rows)
    {a : Scalar k} (h : e.tryAtRow t anchor = .ok a) :
    e.Within (fun v => t.Has (v.cellOf t.rows anchor)) ∧ e.scalar (t.valueAt anchor) = a := by
  have hread : ∀ v ∈ e.occurrences, t.Has (v.cellOf t.rows anchor) ∧
      t.tryResolve v anchor = .ok (t.valueAt anchor v) := by
    intro v hv
    obtain ⟨x, hx⟩ := exists_map_eq_ok.mp (exists_evaluate_iff.mp ⟨a, h⟩ v hv)
    obtain ⟨hcell, rfl⟩ := Table.tryResolve_eq_ok hheld ha hx
    exact ⟨hcell, hx⟩
  refine ⟨fun v hv => (hread v hv).1, ?_⟩
  exact Except.ok.inj ((evaluate_scalars_eq fun v hv => (hread v hv).2).symm.trans h)

/-! ### Accepted tables -/

/-- The table does what the circuit asks for. -/
structure Circuit.MetBy (c : Circuit k) (t : Table k) : Prop where
  /-- Where a gate is enabled, its constraints vanish. -/
  vanish {g : Gate k} : g ∈ c.gates → ∀ row, t.enabled g.selector row = true →
    ∀ e ∈ g.constraints, e.tryAtRow t row = .ok 0
  /-- Copied cells hold the same value. -/
  copied {copy : CopyConstraint} : copy ∈ c.copies →
    ∃ x, t.tryValue copy.first = .ok x ∧ t.tryValue copy.second = .ok x

theorem Gate.violationAt_eq_none {g : Gate k} {row : Nat} {constraint : Expr k × Nat} :
    g.violationAt t row constraint = .ok none ↔ constraint.1.tryAtRow t row = .ok 0 := by
  unfold violationAt
  split
  · next a ha =>
      by_cases hzero : a = 0
      · exact iff_of_true (by rw [if_pos hzero]; rfl) (hzero ▸ ha)
      · rw [if_neg hzero, ha]
        exact iff_of_false nofun fun h => hzero (Except.ok.inj h)
  · next e he => rw [he]; exact iff_of_false nofun nofun
  · next f hf => rw [hf]; exact iff_of_false nofun nofun

/-- Calls that find something or nothing. -/
theorem filterMap_mapM_eq_nil {ε α β : Type} {f : α → Except ε (Option β)} {l : List α} :
    (do return (← l.mapM f).filterMap id) = .ok [] ↔ ∀ a ∈ l, f a = .ok none := by
  rw [bind_pure_eq_ok]
  simp only [List.filterMap_eq_nil_iff, id]
  rw [exists_mapM_forall]
  simp only [exists_eq_right]

/-- Calls that find some things. -/
theorem flatten_mapM_eq_nil {ε α β : Type} {f : α → Except ε (List β)} {l : List α} :
    (do return (← l.mapM f).flatten) = .ok [] ↔ ∀ a ∈ l, f a = .ok [] := by
  rw [bind_pure_eq_ok]
  simp only [List.flatten_eq_nil_iff]
  rw [exists_mapM_forall]
  simp only [exists_eq_right]

theorem Gate.violations_eq_nil {g : Gate k} {row : Nat} : g.violations t row = .ok [] ↔
    (t.enabled g.selector row = true → ∀ e ∈ g.constraints, e.tryAtRow t row = .ok 0) := by
  unfold violations
  split
  · next henabled =>
      rw [filterMap_mapM_eq_nil, forall_prop_of_true henabled]
      simp only [violationAt_eq_none]
      conv_rhs => rw [← List.zipIdx_map_fst 0 g.constraints, List.forall_mem_map]
  · next hdisabled => exact iff_of_true rfl fun h => absurd h hdisabled

theorem Table.lt_of_enabled {selector row : Nat} (h : t.enabled selector row = true) :
    selector < t.width .selector ∧ row < t.rows := by
  by_contra hmissing
  refine enabled_iff.mp h (cellAt_of_not_has fun hcell => hmissing ?_)
  exact ⟨hcell.index_lt, hcell.row_lt⟩

theorem CopyConstraint.violation_eq_none {c : CopyConstraint} : c.violation t = .ok none ↔
    ∃ x, t.tryValue c.first = .ok x ∧ t.tryValue c.second = .ok x := by
  unfold violation Table.cellOrRefusal
  rcases t.tryValue c.first with (e | f) | x <;> rcases t.tryValue c.second with (e' | f') | y
  case ok.ok =>
    show Except.ok (if x = y then none else _) = .ok none ↔ _
    by_cases h : x = y
    · exact iff_of_true (by rw [if_pos h]) ⟨x, rfl, h ▸ rfl⟩
    · rw [if_neg h]
      refine iff_of_false nofun ?_
      rintro ⟨z, hx, hy⟩
      exact h ((Except.ok.inj hx).trans (Except.ok.inj hy).symm)
  all_goals exact iff_of_false nofun nofun

/-- **Checking a table** finds nothing exactly if the table does what the circuit asks for. -/
theorem Circuit.violations_eq_nil_iff {c : Circuit k} : c.violations t = .ok [] ↔ c.MetBy t := by
  have hgates : c.gateViolations t = .ok [] ↔ ∀ g ∈ c.gates, ∀ row,
      t.enabled g.selector row = true →
      ∀ e ∈ g.constraints, e.tryAtRow t row = .ok 0 := by
    unfold gateViolations
    rw [flatten_mapM_eq_nil]
    simp only [Array.mem_toList_iff]
    refine forall_congr' fun g => forall_congr' fun _ => ?_
    split
    · simp only [flatten_mapM_eq_nil, List.mem_range, Gate.violations_eq_nil]
      exact forall_congr' fun row => ⟨fun h he => h (Table.lt_of_enabled he).2 he, fun h _ => h⟩
    · -- A selector without a column is enabled nowhere.
      next hmissing =>
        exact iff_of_true rfl fun row he => absurd (Table.lt_of_enabled he).1 hmissing
  have hcopies : c.copyViolations t = .ok [] ↔ ∀ copy ∈ c.copies,
      ∃ x, t.tryValue copy.first = .ok x ∧ t.tryValue copy.second = .ok x := by
    unfold copyViolations
    rw [filterMap_mapM_eq_nil]
    simp only [Array.mem_toList_iff, CopyConstraint.violation_eq_none]
  constructor
  · intro h
    obtain ⟨gates, hg, h⟩ := bind_eq_ok.mp h
    obtain ⟨copies, hc, h⟩ := bind_pure_eq_ok.mp h
    obtain ⟨rfl, rfl⟩ := List.append_eq_nil_iff.mp h
    exact ⟨fun hmem => hgates.mp hg _ hmem, fun hmem => hcopies.mp hc _ hmem⟩
  · intro h
    rw [violations, hgates.mpr fun _ => h.vanish, hcopies.mpr fun _ => h.copied]
    rfl

end Plonkish
