import Mathlib.Data.Set.Insert
import Plonkish.Proofs.Cells

/-!
# Proofs — writing cells

`t.Changes t' written` says that the table `t'` differs from `t` in the cells `written` at most, and
in selector columns that were appended.  An appended column is zero, as `t.cellAt` is where there is
no column, so appending alone changes nothing.

Every way to write to a table is such a change: `Table.trySet_changes` for a cell,
`Table.tryEnable_changes` for a selector, which asks for memory for its column, and
`Table.enableRange_changes` for a selector on consecutive rows.
-/

namespace Plonkish

variable {k : BaseField}

/-! ### Matrices -/

namespace Matrix

variable {m : Matrix k} {c r : Nat}

/-- A write changes its own entry only. -/
theorem entry_put {a : Felt k} (hc : c < m.width) (hr : r < m.height) (d s : Nat) :
    (m.put c r a hc hr).entry d s = if d = c ∧ s = r then a else m.entry d s := by
  by_cases h : s < m.height ∧ d < m.width
  · have hput : (m.put c r a hc hr).entry d s = (m.put c r a hc hr).cell d s h.2 h.1 := dif_pos h
    have hentry : m.entry d s = m.cell d s h.2 h.1 := dif_pos h
    rw [hput, hentry]
    split
    · next hsame =>
        obtain ⟨rfl, rfl⟩ := hsame
        exact cell_put_self m d s a hc hr
    · next hne =>
        exact cell_put_of_ne m a hc hr h.2 h.1 fun hsame => hne ⟨hsame.1.symm, hsame.2.symm⟩
  · have hput : (m.put c r a hc hr).entry d s = 0 := dif_neg h
    have hentry : m.entry d s = 0 := dif_neg h
    rw [hput, hentry, if_neg]
    rintro ⟨rfl, rfl⟩
    exact h ⟨hr, hc⟩

/-- Appending zero columns changes no entry. -/
theorem entry_grown (width : Nat) : (m.grown width).entry c r = m.entry c r := by
  by_cases hr : r < m.height
  · by_cases hc : c < (m.grown width).width
    · rw [entry, dif_pos ⟨(height_grown m width).symm ▸ hr, hc⟩, cell_grown m hc hr, entry]
      by_cases hold : c < m.width
      · rw [dif_pos hold, dif_pos ⟨hr, hold⟩]
      · rw [dif_neg hold, dif_neg fun h => hold h.2]
    · -- There is no such column, and there was none.
      have hold : ¬ c < m.width := by
        rw [width_grown] at hc
        exact fun h => hc (lt_max_of_lt_left h)
      rw [entry, entry, dif_neg fun h => hc h.2, dif_neg fun h => hold h.2]
  · rw [entry, entry, dif_neg fun h => hr (height_grown m width ▸ h.1), dif_neg fun h => hr h.1]

end Matrix

namespace Table

/-! ### Changes -/

/-- The tables differ in some cells at most, and in appended selector columns. -/
structure Changes (t t' : Table k) (written : Set Cell) : Prop where
  /-- The height stays. -/
  rows_eq : t'.rows = t.rows
  /-- Only selector columns are appended. -/
  width_eq : ∀ kind ≠ .selector, t'.width kind = t.width kind
  /-- Selector columns stay. -/
  width_le : t.width .selector ≤ t'.width .selector
  /-- The other cells stay. -/
  frame : ∀ c ∉ written, t'.cellAt c = t.cellAt c

namespace Changes

variable {t t' t'' : Table k} {written written' : Set Cell}

theorem refl (t : Table k) : t.Changes t ∅ := ⟨rfl, fun _ _ => rfl, le_rfl, fun _ _ => rfl⟩

theorem trans (h : t.Changes t' written) (h' : t'.Changes t'' written') :
    t.Changes t'' (written ∪ written') where
  rows_eq := h'.rows_eq.trans h.rows_eq
  width_eq kind hkind := (h'.width_eq kind hkind).trans (h.width_eq kind hkind)
  width_le := h.width_le.trans h'.width_le
  frame c hc := by
    rw [Set.mem_union, not_or] at hc
    rw [h'.frame c hc.2, h.frame c hc.1]

theorem mono (h : t.Changes t' written) (hsub : written ⊆ written') : t.Changes t' written' :=
  ⟨h.rows_eq, h.width_eq, h.width_le, fun c hc => h.frame c fun hmem => hc (hsub hmem)⟩

theorem width_mono (h : t.Changes t' written) (kind : ColumnKind) :
    t.width kind ≤ t'.width kind := by
  by_cases hkind : kind = .selector
  · subst hkind
    exact h.width_le
  · exact (h.width_eq kind hkind).ge

/-- Cells do not go away. -/
theorem has (h : t.Changes t' written) {c : Cell} (hc : t.Has c) : t'.Has c :=
  ⟨hc.index_lt.trans_le (h.width_mono c.kind), h.rows_eq ▸ hc.row_lt⟩

/-- Nor does the cell of an absolute variable, which no added row can move. -/
theorem holdsAbsolute (h : t.Changes t' written) {v : Variable} (hv : t.HoldsAbsolute v) :
    t'.HoldsAbsolute v :=
  ⟨hv.absolute, hv.index_lt.trans_le (h.width_mono v.kind), hv.row_nonneg, h.rows_eq ▸ hv.row_lt⟩

theorem holdsRelative (h : t.Changes t' written) {v : Variable} (hv : t.HoldsRelative v) :
    t'.HoldsRelative v :=
  ⟨hv.relative, hv.index_lt.trans_le (h.width_mono v.kind)⟩

/-- A variable keeps its value when its cell is not among the written ones. -/
theorem valueAt_eq (h : t.Changes t' written) {v : Variable} {anchor : Nat}
    (hv : v.cellOf t.rows anchor ∉ written) : t'.valueAt anchor v = t.valueAt anchor v := by
  rw [valueAt, valueAt, h.rows_eq, h.frame _ hv]

theorem tryValue_eq (h : t.Changes t' written) {v : Variable} (hv : t.HoldsAbsolute v)
    (hframe : v.cellOf t.rows 0 ∉ written) : t'.tryValue v = .ok (t.valueAt 0 v) := by
  rw [Table.tryValue_eq (h.holdsAbsolute hv), h.valueAt_eq hframe]

end Changes

/-! ### Single cells -/

theorem width_replace {t : Table k} {kind : ColumnKind} {m : Matrix k} (h : m.height = t.rows)
    (c : ColumnKind) : (t.replace kind m h).width c = if c = kind then m.width else t.width c := by
  show ((t.regions.set kind m).get c).width = _
  split
  · next hc => rw [hc, Regions.get_set_self]
  · next hc => rw [Regions.get_set_of_ne _ _ (Ne.symm hc)]; rfl

theorem cellAt_replace {t : Table k} {kind : ColumnKind} {m : Matrix k} (h : m.height = t.rows)
    (c : Cell) : (t.replace kind m h).cellAt c =
      if c.kind = kind then m.entry c.index c.row else t.cellAt c := by
  show ((t.regions.set kind m).get c.kind).entry c.index c.row = _
  split
  · next hc => rw [hc, Regions.get_set_self]
  · next hc => rw [Regions.get_set_of_ne _ _ (Ne.symm hc)]; rfl

/-- Putting an entry into a matrix that has the entries of a region, and maybe more columns. -/
theorem replace_put_changes {t : Table k} {kind : ColumnKind} {m : Matrix k} {index row : Nat}
    {a : Felt k} (hindex : index < m.width) (hrow : row < m.height)
    (h : (m.put index row a hindex hrow).height = t.rows)
    (hentry : ∀ c r, m.entry c r = (t.regions.get kind).entry c r) (hle : t.width kind ≤ m.width)
    (hwidth : kind ≠ .selector → m.width = t.width kind) :
    t.Changes (t.replace kind (m.put index row a hindex hrow) h) {⟨kind, index, row⟩} ∧
      (t.replace kind (m.put index row a hindex hrow) h).cellAt ⟨kind, index, row⟩ = a := by
  refine ⟨⟨rfl, ?_, ?_, ?_⟩, ?_⟩
  · intro c hc
    rw [width_replace]
    split
    · next hkind =>
        subst hkind
        exact hwidth hc
    · rfl
  · rw [width_replace]
    split
    · next hkind =>
        subst hkind
        exact hle
    · exact le_rfl
  · intro c hc
    rw [cellAt_replace]
    split
    · next hkind =>
        subst hkind
        rw [Matrix.entry_put, if_neg, hentry]
        · rfl
        · rintro ⟨rfl, rfl⟩
          exact hc rfl
    · rfl
  · rw [cellAt_replace, if_pos rfl, Matrix.entry_put, if_pos ⟨rfl, rfl⟩]

/-- **Writing a cell** that the table has. -/
theorem trySet_changes {t : Table k} {kind : ColumnKind} {index row : Nat}
    (h : t.Has ⟨kind, index, row⟩) (a : Felt k) :
    ∃ t', t.trySet kind index row a = .ok t' ∧ t.Changes t' {⟨kind, index, row⟩} ∧
      t'.cellAt ⟨kind, index, row⟩ = a := by
  rw [trySet, dif_pos h.index_lt, dif_pos h.row_lt]
  exact ⟨_, rfl, replace_put_changes h.index_lt (t.height_eq kind ▸ h.row_lt)
    (t.height_eq kind) (fun _ _ => rfl) le_rfl fun _ => rfl⟩

/-- A cell that was written is one that the table has. -/
theorem changes_of_trySet {t t' : Table k} {kind : ColumnKind} {index row : Nat} {a : Felt k}
    (h : t.trySet kind index row a = .ok t') :
    t.Changes t' {⟨kind, index, row⟩} ∧ t'.cellAt ⟨kind, index, row⟩ = a := by
  have hcell : t.Has ⟨kind, index, row⟩ := by
    unfold trySet at h
    split at h
    · next hindex =>
        split at h
        · next hrow => exact ⟨hindex, hrow⟩
        · cases h
    · cases h
  obtain ⟨t'', h', hchanges⟩ := trySet_changes hcell a
  exact Except.ok.inj (h'.symm.trans h) ▸ hchanges

/-! ### Selectors -/

/-- There is memory for a number of selector columns. -/
def Affords (t : Table k) (columns : Nat) : Prop := t.rows * columns * k.wordBytes < 2 ^ 63

instance (t : Table k) (columns : Nat) : Decidable (t.Affords columns) :=
  inferInstanceAs (Decidable (_ < _))

theorem Affords.mono {t : Table k} {columns columns' : Nat} (h : t.Affords columns')
    (hle : columns ≤ columns') : t.Affords columns :=
  (Nat.mul_le_mul_right _ (Nat.mul_le_mul_left _ hle)).trans_lt h

/-- A selector below an affordable number of columns is accepted. -/
theorem checkSelector_eq {t : Table k} {selector columns : Nat} (h : t.Affords columns)
    (hlt : selector < columns) (hrow : 0 < t.rows) : t.checkSelector selector = .ok () := by
  have hbytes : 0 < k.wordBytes := by cases k <;> decide
  have hle : t.rows * (selector + 1) ≤ t.rows * columns := Nat.mul_le_mul_left _ hlt
  have hcells : t.rows * (selector + 1) * k.wordBytes < 2 ^ 63 :=
    (Nat.mul_le_mul_right _ hle).trans_lt h
  have hcount : t.rows * (selector + 1) < 2 ^ 63 :=
    (Nat.le_mul_of_pos_right _ hbytes).trans_lt hcells
  have hwidth : selector + 1 < 2 ^ 63 := (Nat.le_mul_of_pos_left _ hrow).trans_lt hcount
  have hadd : Count.add selector 1 = .ok (selector + 1) := Count.check_of_lt (by omega)
  have hmul : Count.mul t.rows (selector + 1) = .ok (t.rows * (selector + 1)) :=
    Count.check_of_lt (by omega)
  have hheld : Count.held k (t.rows * (selector + 1)) = .ok (t.rows * (selector + 1)) :=
    Count.entries_eq_ok.mpr ⟨hcells, rfl⟩
  unfold checkSelector
  split
  · rfl
  · rw [hadd]
    show (do let _ ← Matrix.cellsOf k t.rows (selector + 1); return ()) = _
    rw [Matrix.cellsOf, hmul]
    show (do let _ ← Count.held k (t.rows * (selector + 1)); return ()) = _
    rw [hheld]
    rfl

/-- A selector that was enabled is one in its row, which exists. -/
theorem changes_of_tryEnable {t t' : Table k} {selector row : Nat}
    (h : t.tryEnable selector row = .ok t') :
    row < t.rows ∧ t.Changes t' {⟨.selector, selector, row⟩} ∧
      t'.cellAt ⟨.selector, selector, row⟩ = 1 := by
  have hm : ((t.regions.get .selector).grown (selector + 1)).height = t.rows :=
    (Matrix.height_grown _ _).trans (t.height_eq _)
  have hwidth := (t.regions.get .selector).width_grown (selector + 1)
  unfold tryEnable at h
  split at h
  · next hrow =>
      obtain ⟨_, -, hput⟩ := bind_eq_ok.mp h
      obtain rfl := Except.ok.inj hput
      refine ⟨hrow, replace_put_changes ?_ (hm ▸ hrow) hm (fun _ _ => Matrix.entry_grown _) ?_ ?_⟩
      · exact hwidth ▸ lt_max_of_lt_right (Nat.lt_succ_self selector)
      · exact hwidth ▸ le_max_left _ _
      · exact fun hkind => absurd rfl hkind
  · cases h

/-- **Enabling a selector** writes its cell in the row. -/
theorem tryEnable_changes {t : Table k} {selector row columns : Nat} (hrow : row < t.rows)
    (h : t.Affords columns) (hlt : selector < columns) :
    ∃ t', t.tryEnable selector row = .ok t' ∧ t.Changes t' {⟨.selector, selector, row⟩} := by
  have henable : ∃ t', t.tryEnable selector row = .ok t' := by
    rw [tryEnable, dif_pos hrow, checkSelector_eq h hlt (Nat.zero_lt_of_lt hrow)]
    exact ⟨_, rfl⟩
  obtain ⟨t', ht'⟩ := henable
  exact ⟨t', ht', (changes_of_tryEnable ht').2.1⟩

/-- The cells of a selector in some rows. -/
def selectorCells (selector : Nat) (rows : List Nat) : Set Cell :=
  {c | c.kind = .selector ∧ c.index = selector ∧ c.row ∈ rows}

/-- Switching a selector on row by row changes its own cells only, in a table that can afford the
column. By induction on the rows. -/
theorem enableEach_changes {t : Table k} {selector columns : Nat} {rows : List Nat}
    (hrows : ∀ row ∈ rows, row < t.rows) (h : t.Affords columns) (hlt : selector < columns) :
    ∃ t', enableEach selector rows t = (t', .ok ()) ∧
      t.Changes t' (selectorCells selector rows) := by
  induction rows generalizing t with
  | nil => exact ⟨t, rfl, (Changes.refl t).mono (Set.empty_subset _)⟩
  | cons row rows ih =>
      obtain ⟨t₁, ht₁, hchange⟩ := tryEnable_changes (hrows row List.mem_cons_self) h hlt
      have hrows₁ : ∀ r ∈ rows, r < t₁.rows := fun r hr =>
        hchange.rows_eq ▸ hrows r (List.mem_cons_of_mem _ hr)
      obtain ⟨t₂, ht₂, hchange'⟩ := ih hrows₁ (by rwa [Affords, hchange.rows_eq])
      refine ⟨t₂, ?_, (hchange.trans hchange').mono ?_⟩
      · rw [enableEach, ht₁]
        exact ht₂
      · rintro c (rfl | ⟨hkind, hindex, hrow⟩)
        · exact ⟨rfl, rfl, List.mem_cons_self⟩
        · exact ⟨hkind, hindex, List.mem_cons_of_mem _ hrow⟩

/-- The rows of a range inside the table. -/
theorem rangeRows_eq {rows first count : Nat} (h : first + count < rows) :
    rangeRows rows first (first + count) 1 = List.range' first (count + 1) := by
  rw [rangeRows, max_self, if_pos (Nat.le_add_right _ _), if_pos (by omega), Nat.div_one,
    Nat.div_one, min_eq_left (by omega), Nat.add_sub_cancel_left]

/-- **Enabling a selector on consecutive rows** writes its cells in these rows. -/
theorem enableRange_changes {t : Table k} {selector first count columns : Nat}
    (hrows : first + count < t.rows) (h : t.Affords columns) (hlt : selector < columns) :
    ∃ t', t.enableRange selector first (first + count) 1 = (t', .ok ()) ∧
      t.Changes t' (selectorCells selector (List.range' first (count + 1))) := by
  rw [enableRange, rangeRows_eq hrows]
  refine enableEach_changes ?_ h hlt
  intro row hrow
  obtain ⟨i, hi, rfl⟩ := List.mem_range'.mp hrow
  omega

end Table

end Plonkish
