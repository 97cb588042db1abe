import Plonkish.Proofs.Accepted
import Plonkish.Proofs.Store

/-!
# Proofs — refusals in place of faults

The accessors of a table come in pairs: one may be refused, and its companion faults instead.
`StandsIn x y` says that the first call of a pair can always be made in place of the second one: it
does not fault, it answers what the other call answers, and it is refused exactly where the other
call faults, for the reason that is the text of that fault.

* Reading and writing a cell are such pairs.  In a table that can be held no arithmetic on the place
  of a cell overflows once the column and the row have been looked at (`Table.get_of_tryGet`,
  `Table.set_of_trySet`, `Table.set_of_tryEnable`).
* Reading a variable is one if the row of the variable can be found.  For a relative variable that
  asks for a table with a row, and for a sum that is a signed 64-bit number (`Variable.Turns`).
* Enabling a selector is one if there is memory for its column.

`StandsInIf P x y` is for pairs of the last two kinds: the first call stands in for the second one
exactly if `P`, and without `P` both fault, with the same fault.  `Table.accessors_stand_in` is
about the tables that a new one can become.
-/

namespace Plonkish

variable {k : BaseField}

/-! ### Pairs of calls -/

section Pairs

variable {α : Type}

/-- A call that may be refused does not fault, and does otherwise what its companion does. -/
structure StandsIn (x : Except Failure α) (y : Except Fault α) : Prop where
  /-- It does not fault. -/
  ne_fault (f : Fault) : x ≠ .error (.fault f)
  /-- It answers what its companion answers. -/
  eq_ok_iff (a : α) : x = .ok a ↔ y = .ok a
  /-- It is refused exactly if its companion faults. -/
  refused_iff : (∃ e, x = .error (.refused e)) ↔ ∃ f, y = .error f
  /-- The reason is the same. -/
  reason_iff (e : TableError) : x = .error (.refused e) ↔ y = .error (.table e)

/-- A call that may be refused stands in for its companion exactly on a condition.  Where that is
not met, both of them fault alike. -/
structure StandsInIf (P : Prop) (x : Except Failure α) (y : Except Fault α) : Prop where
  /-- The condition is that for standing in. -/
  standsIn_iff : StandsIn x y ↔ P
  /-- Without it there is a fault. -/
  faults : ¬ P → ∃ f, x = .error (.fault f) ∧ y = .error f

/-- A call that does not fault stands in for the one that faults where it is refused. -/
theorem standsIn_asFault {x : Except Failure α} (h : ∀ f, x ≠ .error (.fault f)) :
    StandsIn x (x.mapError Failure.asFault) := by
  rcases x with (e | f) | a
  · refine ⟨h, fun a => ⟨nofun, nofun⟩, ⟨fun _ => ⟨_, rfl⟩, fun _ => ⟨e, rfl⟩⟩, fun e' => ⟨?_, ?_⟩⟩
    · rintro ⟨⟩
      rfl
    · rintro ⟨⟩
      rfl
  · exact absurd rfl (h f)
  · exact ⟨h, fun b =>
      ⟨fun hb => congrArg _ (Except.ok.inj hb), fun hb => congrArg _ (Except.ok.inj hb)⟩,
      ⟨nofun, nofun⟩, fun e => ⟨nofun, nofun⟩⟩

/-- A call that is only ever refused stands in for the one that faults instead. -/
theorem standsIn_refused (x : Except TableError α) :
    StandsIn (x.mapError .refused) (x.mapError .table) := by
  have hrefused : x.mapError .table = (x.mapError .refused).mapError Failure.asFault := by
    cases x <;> rfl
  rw [hrefused]
  exact standsIn_asFault fun f => by cases x <;> exact nofun

/-- The condition is that the call does not fault. -/
theorem standsInIf_asFault {x : Except Failure α} {P : Prop}
    (h : (∃ f, x = .error (.fault f)) ↔ ¬ P) : StandsInIf P x (x.mapError Failure.asFault) where
  standsIn_iff := by
    constructor
    · intro hstands
      by_contra hP
      obtain ⟨f, hf⟩ := h.mpr hP
      exact hstands.ne_fault f hf
    · intro hP
      exact standsIn_asFault fun f hf => h.mp ⟨f, hf⟩ hP
  faults hP := by
    obtain ⟨f, rfl⟩ := h.mpr hP
    exact ⟨f, rfl, rfl⟩

end Pairs

/-! ### Rows of variables -/

namespace Variable

variable {rows anchor : Nat}

/-- A table of a height can be turned by a rotation from an anchor row: it has a row, and the sum of
the anchor, read as a signed 64-bit number, and the rotation is one, and its remainder is. -/
structure Turns (rows anchor : Nat) (rotation : Int32) : Prop where
  /-- There is a row. -/
  rows_pos : 0 < rows
  /-- The sum is not too small. -/
  le_sum : -2 ^ 63 ≤ Int.bmod anchor (2 ^ 64) + rotation.toInt
  /-- The sum is not too large. -/
  sum_lt : Int.bmod anchor (2 ^ 64) + rotation.toInt < 2 ^ 63
  /-- The smallest number is not divided by minus one, as the largest height is read. -/
  not_both : ¬ (Int.bmod anchor (2 ^ 64) + rotation.toInt = -2 ^ 63 ∧ Int.bmod rows (2 ^ 64) = -1)

/-- The row that a variable reads from an anchor row can be found. -/
def FindsRow (v : Variable) (rows anchor : Nat) : Prop :=
  v.relative = true → Turns rows anchor v.rotation

theorem rotatedRow_faults_iff {rotation : Int32} :
    (∃ f, rotatedRow rows anchor rotation = .error f) ↔ ¬ Turns rows anchor rotation := by
  unfold rotatedRow
  simp only [Nat.one_shiftLeft]
  split
  · next hrows => exact iff_of_true ⟨_, rfl⟩ fun h => h.rows_pos.ne' hrows
  · next hrows =>
      split
      · next hrange =>
          refine iff_of_true ⟨_, rfl⟩ fun h => ?_
          have hlow := h.le_sum
          have hhigh := h.sum_lt
          omega
      · next hrange =>
          split
          · next hboth => exact iff_of_true ⟨_, rfl⟩ fun h => h.not_both hboth
          · next hboth =>
              refine iff_of_false nofun (not_not.mpr ⟨Nat.pos_of_ne_zero hrows, ?_, ?_, hboth⟩)
              · omega
              · omega

theorem row_faults_iff {v : Variable} :
    (∃ f, v.row anchor rows = .error f) ↔ ¬ v.FindsRow rows anchor := by
  unfold row FindsRow
  by_cases hrelative : v.relative = true
  · rw [if_pos hrelative, Classical.not_imp, ← rotatedRow_faults_iff]
    cases rotatedRow rows anchor v.rotation with
    | error f => exact iff_of_true ⟨f, rfl⟩ ⟨hrelative, f, rfl⟩
    | ok row => exact iff_of_false nofun fun h => nomatch h.2
  · rw [if_neg hrelative]
    refine iff_of_false ?_ (not_not.mpr fun h => absurd h hrelative)
    split <;> exact nofun

/-- Anchors up to almost `2 ^ 63` can be turned from, if there is a row. -/
theorem turns_of_lt (hpos : 0 < rows) (hanchor : anchor < 2 ^ 63 - 2 ^ 31) (rotation : Int32) :
    Turns rows anchor rotation := by
  have hlow : -2 ^ 31 ≤ rotation.toInt := rotation.le_toInt
  have hhigh : rotation.toInt < 2 ^ 31 := rotation.toInt_lt
  have hsigned : Int.bmod anchor (2 ^ 64) = anchor := by
    rw [Int.bmod_eq_of_le] <;> omega
  refine ⟨hpos, ?_, ?_, fun h => ?_⟩
  · rw [hsigned]
    omega
  · rw [hsigned]
    omega
  · rw [hsigned] at h
    omega

end Variable

/-! ### Cells -/

namespace Matrix

variable {m : Matrix k} {c r : Nat}

/-- The place of a cell is found without overflow in a matrix that can be held. -/
theorem mul_width_eq (hheld : m.height * m.width * k.wordBytes < 2 ^ 63) (hr : r < m.height) :
    Count.mul m.width r = .ok (m.width * r) := by
  have hbytes : 0 < k.wordBytes := by cases k <;> decide
  have hcells : m.height * m.width < 2 ^ 63 := (Nat.le_mul_of_pos_right _ hbytes).trans_lt hheld
  have hle : m.width * r ≤ m.height * m.width := by
    rw [Nat.mul_comm]
    exact Nat.mul_le_mul_right _ hr.le
  exact Count.check_of_lt (by omega)

theorem get_eq (hheld : m.height * m.width * k.wordBytes < 2 ^ 63) (hc : c < m.width)
    (hr : r < m.height) : m.get c r = .ok (m.cell c r hc hr) :=
  bind_eq_ok.mpr ⟨_, mul_width_eq hheld hr, dif_pos ⟨hc, hr⟩⟩

theorem growTo_eq {width : Nat} (h : m.height * (m.grown width).width * k.wordBytes < 2 ^ 63) :
    m.growTo width = .ok (m.grown width) := by
  unfold growTo
  split
  · next hle =>
      rw [grown, if_pos hle]
      rfl
  · next hle =>
      rw [width_grown, max_eq_right (Nat.le_of_not_le hle)] at h
      exact bind_eq_ok.mpr ⟨_, cellsOf_eq h, rfl⟩

theorem set_eq (hheld : m.height * m.width * k.wordBytes < 2 ^ 63) (hc : c < m.width)
    (hr : r < m.height) (a : Felt k) : m.set c r a = .ok (m.put c r a hc hr) :=
  bind_eq_ok.mpr ⟨_, mul_width_eq hheld hr, dif_pos ⟨hc, hr⟩⟩

end Matrix

namespace Table

variable {t t' : Table k} {kind : ColumnKind} {index selector row : Nat} {a : Felt k} {v : Variable}

theorem Held.region (h : t.Held) (kind : ColumnKind) :
    (t.regions.get kind).height * (t.regions.get kind).width * k.wordBytes < 2 ^ 63 := by
  rw [t.height_eq]
  exact h kind

/-- **A cell that is read** is read without a fault from its region. -/
theorem get_of_tryGet (hheld : t.Held) (h : t.tryGet kind index row = .ok a) :
    (t.regions.get kind).get index row = .ok a := by
  unfold tryGet at h
  split at h
  · next hindex =>
      split at h
      · next hrow =>
          obtain rfl := Except.ok.inj h
          exact Matrix.get_eq (hheld.region kind) hindex (t.height_eq kind ▸ hrow)
      · cases h
  · cases h

/-- **A cell that is written** is written without a fault to its region. -/
theorem set_of_trySet (hheld : t.Held) (h : t.trySet kind index row a = .ok t') :
    (t.regions.get kind).set index row a = .ok (t'.regions.get kind) := by
  unfold trySet at h
  split at h
  · next hindex =>
      split at h
      · next hrow =>
          obtain rfl := Except.ok.inj h
          rw [Matrix.set_eq (hheld.region kind) hindex (t.height_eq kind ▸ hrow) a]
          exact congrArg _ (Regions.get_set_self _ _ _).symm
      · cases h
  · cases h

/-! ### Variables -/

theorem tryResolve_faults_iff {anchor : Nat} :
    (∃ f, t.tryResolve v anchor = .error (.fault f)) ↔ ¬ v.FindsRow t.rows anchor := by
  rw [← Variable.row_faults_iff, tryResolve]
  refine exists_congr fun f => ?_
  rcases v.row anchor t.rows with f' | _ | row
  · constructor
    · rintro ⟨⟩
      rfl
    · rintro ⟨⟩
      rfl
  · constructor <;> rintro ⟨⟩
  · constructor
    · intro hf
      replace hf : (t.tryGet v.kind v.index.toNat row).mapError Failure.refused =
          .error (.fault f) := hf
      obtain ⟨e, -, he⟩ := mapError_eq_error.mp hf
      cases he
    · rintro ⟨⟩

/-- **Reading a variable** is refused in place of a fault if its row can be found. -/
theorem tryResolve_standsInIf (t : Table k) (v : Variable) (anchor : Nat) :
    StandsInIf (v.FindsRow t.rows anchor) (t.tryResolve v anchor) (t.resolve v anchor) := by
  rw [resolve_eq_tryResolve]
  exact standsInIf_asFault tryResolve_faults_iff

theorem findsRow_zero_iff : v.FindsRow t.rows 0 ↔ (v.relative = true → 0 < t.rows) :=
  ⟨fun h hrelative => (h hrelative).rows_pos,
    fun h hrelative => Variable.turns_of_lt (h hrelative) (by decide) v.rotation⟩

/-! ### Selectors -/

theorem checkSelector_eq_ok_iff (hpos : 0 < t.rows) :
    t.checkSelector selector = .ok () ↔ selector < t.width .selector ∨
      t.Affords (selector + 1) := by
  constructor
  · intro h
    unfold checkSelector at h
    split at h
    · next hold => exact .inl hold
    · obtain ⟨width, hwidth, hcells⟩ := bind_eq_ok.mp h
      obtain ⟨-, rfl⟩ := Count.check_eq_ok.mp hwidth
      obtain ⟨_, hcells, -⟩ := bind_pure_eq_ok.mp hcells
      exact .inr (affords_of_cellsOf hcells)
  · rintro (hold | haffords)
    · exact if_pos hold
    · exact checkSelector_eq haffords (Nat.lt_succ_self selector) hpos

theorem tryEnable_faults_iff :
    (∃ f, t.tryEnable selector row = .error (.fault f)) ↔
      ¬ (row < t.rows → selector < t.width .selector ∨ t.Affords (selector + 1)) := by
  unfold tryEnable
  split
  · next hrow =>
      rw [← checkSelector_eq_ok_iff (Nat.zero_lt_of_lt hrow)]
      cases hcheck : t.checkSelector selector with
      | error f => exact iff_of_true ⟨f, rfl⟩ fun h => nomatch h hrow
      | ok => exact iff_of_false nofun (not_not.mpr fun _ => rfl)
  · next hrow => exact iff_of_false nofun (not_not.mpr fun h => absurd h hrow)

/-- **Enabling a selector** is refused in place of a fault if there is memory for its column. -/
theorem tryEnable_standsInIf (t : Table k) (selector row : Nat) :
    StandsInIf (row < t.rows → selector < t.width .selector ∨ t.Affords (selector + 1))
      (t.tryEnable selector row) (t.enable selector row) :=
  standsInIf_asFault tryEnable_faults_iff

/-- **A selector that is enabled** is written without a fault to its region, made wide enough. -/
theorem set_of_tryEnable (hheld : t.Held) (h : t.tryEnable selector row = .ok t') :
    (do (← (t.regions.get .selector).growTo (selector + 1)).set selector row 1) =
      .ok (t'.regions.get .selector) := by
  have hgrown := (hheld.tryEnable h).region .selector
  unfold tryEnable at h
  split at h
  · next hrow =>
      obtain ⟨_, -, hput⟩ := bind_eq_ok.mp h
      obtain rfl := Except.ok.inj hput
      set m := (t.regions.get .selector).grown (selector + 1) with hm
      have hheight : m.height = t.rows := (Matrix.height_grown _ _).trans (t.height_eq _)
      have hwidth : selector < m.width := by
        rw [hm, Matrix.width_grown]
        exact lt_max_of_lt_right (Nat.lt_succ_self selector)
      replace hgrown : m.height * m.width * k.wordBytes < 2 ^ 63 := hgrown
      refine bind_eq_ok.mpr ⟨m, Matrix.growTo_eq ?_, Matrix.set_eq hgrown hwidth (hheight ▸ hrow) 1⟩
      rwa [← hm, ← Matrix.height_grown _ (selector + 1)]
  · cases h

end Table

/-! ### Constraints -/

namespace Expr

variable {t : Table k} {e : Expr k} {row : Nat}

/-- Where the value of a constraint is refused, that of one all of whose cells have to exist faults.
-/
theorem atRow_eq_tryAtRow (e : Expr k) (t : Table k) (row : Nat) :
    e.atRow t row = (e.tryAtRow t row).mapError Failure.asFault := by
  rw [atRow, tryAtRow, ← evaluate_mapError]
  simp only [Table.resolve_eq_tryResolve, mapError_map]

/-- In the order of evaluation, no variable whose row cannot be found comes before one that has no
value. -/
def FindsRows (e : Expr k) (t : Table k) (row : Nat) : Prop :=
  ∀ before v, before ++ [v] <+: e.occurrences → (∀ u ∈ before, ∃ a, t.tryResolve u row = .ok a) →
    v.FindsRow t.rows row

theorem tryAtRow_faults_iff :
    (∃ f, e.tryAtRow t row = .error (.fault f)) ↔ ¬ e.FindsRows t row := by
  simp only [FindsRows, not_forall, ← Table.tryResolve_faults_iff, tryAtRow, evaluate_eq_error,
    firstFailure_iff, exists_map_eq_ok, map_eq_error]
  constructor
  · rintro ⟨f, before, v, hstarts, hanswers, hfails⟩
    exact ⟨before, v, hstarts, hanswers, f, hfails⟩
  · rintro ⟨before, v, hstarts, hanswers, f, hfails⟩
    exact ⟨f, before, v, hstarts, hanswers, hfails⟩

/-- **The value of a constraint** is refused in place of a fault if the rows of its variables can be
found, as far as they are read. -/
theorem tryAtRow_standsInIf (e : Expr k) (t : Table k) (row : Nat) :
    StandsInIf (e.FindsRows t row) (e.tryAtRow t row) (e.atRow t row) := by
  rw [atRow_eq_tryAtRow]
  exact standsInIf_asFault tryAtRow_faults_iff

end Expr

/-! ### Tables -/

namespace Table

variable {t : Table k}

/-- A table can be held after any calls. -/
theorem Held.run (h : t.Held) (calls : List (Call k)) : (t.run calls).Held := by
  induction calls generalizing t with
  | nil => exact h
  | cons call calls ih =>
      refine ih (t := (t.step call).2) ?_
      unfold step
      split
      · next t' ht' =>
          cases call with
          | set c a => exact h.trySet (mapError_eq_ok.mp ht')
          | enable selector row => exact h.tryEnable ht'
      · exact h

/-- **Refusals stand in for faults.**  Take a new table after any calls.  Reading or writing a cell
never faults, answers what the call for a cell that has to exist answers, and is refused exactly
where that faults; nor does a fault come from below, where the cells of a region are indexed.  The
same holds of reading a variable or a constraint if the rows that are asked for can be found, and of
enabling a selector if there is memory for its column.  Where they cannot or there is not, both
calls of the pair fault. -/
theorem accessors_stand_in {d : Description} {t₀ : Table k} (hnew : new k d = .ok t₀)
    (calls : List (Call k)) :
    let t := t₀.run calls
    (∀ kind index row,
      StandsIn ((t.tryGet kind index row).mapError .refused) (t.get kind index row) ∧
      ∀ a, t.tryGet kind index row = .ok a → (t.regions.get kind).get index row = .ok a) ∧
    (∀ kind index row a,
      StandsIn ((t.trySet kind index row a).mapError .refused) (t.set kind index row a) ∧
      ∀ t', t.trySet kind index row a = .ok t' →
        (t.regions.get kind).set index row a = .ok (t'.regions.get kind)) ∧
    (∀ v anchor, StandsInIf (v.FindsRow t.rows anchor) (t.tryResolve v anchor)
      (t.resolve v anchor)) ∧
    (∀ v, StandsInIf (v.relative = true → 0 < t.rows) (t.tryValue v) (t.value v)) ∧
    (∀ selector row,
      StandsInIf (row < t.rows → selector < t.width .selector ∨ t.Affords (selector + 1))
        (t.tryEnable selector row) (t.enable selector row) ∧
      ∀ t', t.tryEnable selector row = .ok t' →
        (do (← (t.regions.get .selector).growTo (selector + 1)).set selector row 1) =
          .ok (t'.regions.get .selector)) ∧
    ∀ (e : Expr k) (row), StandsInIf (e.FindsRows t row) (e.tryAtRow t row) (e.atRow t row) := by
  intro t
  have hheld : t.Held := (held_of_new hnew).run calls
  refine ⟨fun kind index row => ⟨standsIn_refused _, fun a => get_of_tryGet hheld⟩,
    fun kind index row a => ⟨standsIn_refused _, fun t' => set_of_trySet hheld⟩,
    t.tryResolve_standsInIf, fun v => ?_,
    fun selector row => ⟨t.tryEnable_standsInIf selector row, fun t' => set_of_tryEnable hheld⟩,
    fun e row => e.tryAtRow_standsInIf t row⟩
  rw [← findsRow_zero_iff]
  exact t.tryResolve_standsInIf v 0

theorem accessors_stand_in_four :
    let d : Description := ⟨⟨1, 0, 0, 1⟩, 4, 4⟩
    let t := (zero .goldilocks d).run [.enable 2 3]
    new .goldilocks d = .ok (zero .goldilocks d) ∧
      StandsIn (t.tryResolve ⟨.witness, 0, -7, true⟩ 3) (t.resolve ⟨.witness, 0, -7, true⟩ 3) ∧
      StandsIn (t.tryEnable 1 9) (t.enable 1 9) ∧
      ¬ StandsIn (t.tryResolve ⟨.witness, 0, 1, true⟩ (2 ^ 63 - 1))
        (t.resolve ⟨.witness, 0, 1, true⟩ (2 ^ 63 - 1)) := by
  intro d t
  have hnew : new .goldilocks d = .ok (zero .goldilocks d) := rfl
  obtain ⟨-, -, hresolve, -, henable, -⟩ := accessors_stand_in hnew [.enable 2 3]
  refine ⟨hnew, ?_, ?_, ?_⟩
  · exact (hresolve _ 3).standsIn_iff.mpr fun _ => Variable.turns_of_lt (by decide) (by decide) _
  · exact (henable 1 9).1.standsIn_iff.mpr fun hrow => absurd hrow (by decide)
  · exact fun hstands => absurd ((hresolve _ _).standsIn_iff.mp hstands rfl).sum_lt (by decide)

/-- A call that may be refused can fault: no row of a table without rows can be found, nor one past
the largest signed number, and a selector may have no successor. -/
theorem accessors_fault :
    new .goldilocks ⟨⟨1, 0, 0, 0⟩, 0, 0⟩ = .ok (zero .goldilocks ⟨⟨1, 0, 0, 0⟩, 0, 0⟩) ∧
      (zero .goldilocks ⟨⟨1, 0, 0, 0⟩, 0, 0⟩).tryResolve ⟨.witness, 0, 0, true⟩ 0 =
        .error (.fault .emptyRotation) ∧
      (zero .goldilocks ⟨⟨1, 0, 0, 0⟩, 4, 4⟩).tryResolve ⟨.witness, 0, 1, true⟩ (2 ^ 63 - 1) =
        .error (.fault .overflow) ∧
      (zero .goldilocks ⟨⟨1, 0, 0, 0⟩, 4, 4⟩).tryEnable (2 ^ 64 - 1) 0 =
        .error (.fault .overflow) :=
  ⟨rfl, rfl, rfl, rfl⟩

end Table

end Plonkish
