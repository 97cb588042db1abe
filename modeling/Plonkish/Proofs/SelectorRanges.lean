import Mathlib.Order.Bounds.Basic
import Plonkish.Proofs.Refusals

/-!
# Proofs — selector ranges

A selector is enabled on the rows `first, first + step, …` up to `last`, one after the other, and
the column of the selector is appended on the way.  The rows that are asked for may go on far past
the end of the table, so those that `Table.rangeRows` lists are cut off; `rangeRows_cases` says that
nothing is lost by this, as the listing ends with the first row that the table does not have.

`t.Enables t' selector rows` says that `t'` is the table `t` with a selector enabled on a set of
rows, and that nothing else has been done.

* `Enables.of_tryEnable`: one row.
* `enableEach_enables`: rows that the table has, if there is room for the selector.
* `enableRange_enables`: a range.  All rows before the first that is missing are enabled, and that
  row is the one that the refusal names.  Without room for the selector nothing is done.
-/

namespace Plonkish

variable {k : BaseField}

namespace Table

variable {t t' t'' : Table k} {selector first last step row : Nat} {rows rows' : Set Nat}

/-! ### The rows of a range -/

/-- The rows `first, first + step, …` up to `last`.  A step of zero counts as one. -/
def progression (first last step : Nat) : Set Nat :=
  {row | ∃ i, row = first + max step 1 * i ∧ row ≤ last}

theorem add_mul_le_iff {s i : Nat} (hs : 0 < s) :
    first + s * i ≤ last ↔ i < if first ≤ last then (last - first) / s + 1 else 0 := by
  split
  · next h =>
      rw [Nat.lt_succ_iff, Nat.le_div_iff_mul_le hs, Nat.mul_comm i]
      omega
  · next h => omega

theorem add_mul_lt_iff {s i bound : Nat} (hs : 0 < s) :
    first + s * i < bound ↔ i < if first < bound then (bound - 1 - first) / s + 1 else 0 := by
  cases bound with
  | zero => simp
  | succ last =>
      simp only [Nat.lt_succ_iff, Nat.add_sub_cancel]
      exact add_mul_le_iff hs

/-- **The rows that are listed** are those of the range, or they are those that are below `rows` and
then the first that is not. -/
theorem rangeRows_cases (bound first last step : Nat) :
    (∀ row, row ∈ rangeRows bound first last step ↔ row ∈ progression first last step) ∧
      (∀ row ∈ progression first last step, row < bound) ∨
    ∃ present row, rangeRows bound first last step = present ++ [row] ∧
      (∀ row, row ∈ present ↔ row ∈ progression first last step ∧ row < bound) ∧
      IsLeast {row ∈ progression first last step | bound ≤ row} row := by
  have hs : 0 < max step 1 := lt_max_of_lt_right Nat.zero_lt_one
  unfold rangeRows progression
  simp only
  set s := max step 1
  set wanted := if first ≤ last then (last - first) / s + 1 else 0
  set present := if first < bound then (bound - 1 - first) / s + 1 else 0
  have hwanted (i : Nat) : first + s * i ≤ last ↔ i < wanted := add_mul_le_iff hs
  have hpresent (i : Nat) : first + s * i < bound ↔ i < present := add_mul_lt_iff hs
  rcases Nat.lt_or_ge present wanted with hcut | hall
  · refine .inr ⟨List.range' first present s, first + s * present, ?_, fun row => ?_, ⟨?_, ?_⟩⟩
    · rw [min_eq_right hcut, List.range'_concat]
    · rw [List.mem_range']
      constructor
      · rintro ⟨i, hi, rfl⟩
        exact ⟨⟨i, rfl, (hwanted i).mpr (hi.trans hcut)⟩, (hpresent i).mpr hi⟩
      · rintro ⟨⟨i, rfl, -⟩, hi⟩
        exact ⟨i, (hpresent i).mp hi, rfl⟩
    · exact ⟨⟨present, rfl, (hwanted present).mpr hcut⟩,
        Nat.le_of_not_lt fun h => absurd ((hpresent present).mp h) (Nat.lt_irrefl _)⟩
    · rintro _ ⟨⟨i, rfl, -⟩, hi⟩
      have hle : present ≤ i := Nat.le_of_not_lt fun h =>
        absurd ((hpresent i).mpr h) (Nat.not_lt.mpr hi)
      exact Nat.add_le_add_left (Nat.mul_le_mul_left _ hle) _
  · refine .inl ⟨fun row => ?_, ?_⟩
    · rw [min_eq_left (Nat.le_succ_of_le hall), List.mem_range']
      constructor
      · rintro ⟨i, hi, rfl⟩
        exact ⟨i, rfl, (hwanted i).mpr hi⟩
      · rintro ⟨i, rfl, hi⟩
        exact ⟨i, (hwanted i).mp hi, rfl⟩
    · rintro _ ⟨i, rfl, hi⟩
      exact (hpresent i).mpr (((hwanted i).mp hi).trans_le hall)

/-- The first row is listed, whether the table has it or not. -/
theorem exists_rangeRows_eq_cons (h : first ≤ last) (bound step : Nat) :
    ∃ others, rangeRows bound first last step = first :: others := by
  unfold rangeRows
  simp only [if_pos h, Nat.succ_min_succ]
  exact ⟨_, List.range'_succ⟩

/-! ### Enabled rows -/

/-- A selector has been enabled on some rows, and nothing else has been done. -/
structure Enables (t t' : Table k) (selector : Nat) (rows : Set Nat) : Prop where
  /-- The cells of the selector in these rows are one. -/
  one {row : Nat} : row ∈ rows → t'.cellAt ⟨.selector, selector, row⟩ = 1
  /-- The other cells stay. -/
  frame {c : Cell} : ¬ (c.kind = .selector ∧ c.index = selector ∧ c.row ∈ rows) →
    t'.cellAt c = t.cellAt c
  /-- The columns up to that of the selector have been appended, and no others. -/
  description_eq : rows.Nonempty → t'.description = t.description.widened (selector + 1)
  /-- Without a row there is no change at all. -/
  eq_of_empty : rows = ∅ → t' = t

namespace Enables

theorem refl (t : Table k) (selector : Nat) : t.Enables t selector ∅ :=
  ⟨fun h => absurd h (Set.notMem_empty _), fun _ => rfl, fun h => absurd h Set.not_nonempty_empty,
    fun _ => rfl⟩

theorem rows_eq (h : t.Enables t' selector rows) : t'.rows = t.rows := by
  rcases rows.eq_empty_or_nonempty with hempty | hne
  · rw [h.eq_of_empty hempty]
  · exact congrArg (·.rows) (h.description_eq hne)

theorem trans (h : t.Enables t' selector rows) (h' : t'.Enables t'' selector rows') :
    t.Enables t'' selector (rows ∪ rows') where
  one {row} hrow := by
    by_cases hlater : row ∈ rows'
    · exact h'.one hlater
    · rw [h'.frame fun hc => hlater hc.2.2]
      exact h.one (hrow.resolve_right hlater)
  frame hc := by
    rw [h'.frame fun hmem => hc ⟨hmem.1, hmem.2.1, .inr hmem.2.2⟩,
      h.frame fun hmem => hc ⟨hmem.1, hmem.2.1, .inl hmem.2.2⟩]
  description_eq hne := by
    rcases rows'.eq_empty_or_nonempty with hempty | hlater
    · rw [h'.eq_of_empty hempty]
      exact h.description_eq (by rwa [hempty, Set.union_empty] at hne)
    · rw [h'.description_eq hlater]
      rcases rows.eq_empty_or_nonempty with hempty | hearlier
      · rw [h.eq_of_empty hempty]
      · rw [h.description_eq hearlier, Description.widened_widened, max_self]
  eq_of_empty hempty := by
    obtain ⟨hearlier, hlater⟩ := Set.union_empty_iff.mp hempty
    rw [h'.eq_of_empty hlater, h.eq_of_empty hearlier]

/-- **One row** that a selector is enabled on. -/
theorem of_tryEnable (h : t.tryEnable selector row = .ok t') : t.Enables t' selector {row} := by
  obtain ⟨-, hchanges, hone⟩ := changes_of_tryEnable h
  refine ⟨?_, fun {c} hc => ?_, fun _ => description_of_tryEnable h, fun hempty => ?_⟩
  · rintro _ rfl
    exact hone
  · refine hchanges.frame c fun hmem => hc ?_
    obtain rfl := hmem
    exact ⟨rfl, rfl, rfl⟩
  · exact absurd hempty (Set.singleton_ne_empty row)

/-- The selectors that are enabled are those from before, and this one on these rows. -/
theorem enabled_iff (h : t.Enables t' selector rows) (s row : Nat) :
    t'.enabled s row = true ↔ t.enabled s row = true ∨ s = selector ∧ row ∈ rows := by
  rw [Table.enabled_iff, Table.enabled_iff]
  by_cases hrow : s = selector ∧ row ∈ rows
  · obtain ⟨rfl, hmem⟩ := hrow
    exact iff_of_true (h.one hmem ▸ one_ne_zero) (.inr ⟨rfl, hmem⟩)
  · rw [h.frame fun hc => hrow hc.2, or_iff_left hrow]

end Enables

/-! ### Runs over rows -/

/-- There is room for a selector: it has a column, or there is memory for one. -/
def Houses (t : Table k) (selector : Nat) : Prop :=
  selector < t.width .selector ∨ t.Affords (selector + 1)

instance (t : Table k) (selector : Nat) : Decidable (t.Houses selector) :=
  inferInstanceAs (Decidable (_ ∨ _))

theorem exists_tryEnable (hrow : row < t.rows) (h : t.Houses selector) :
    ∃ t', t.tryEnable selector row = .ok t' := by
  rw [tryEnable, dif_pos hrow, (checkSelector_eq_ok_iff (Nat.zero_lt_of_lt hrow)).mpr h]
  exact ⟨_, rfl⟩

/-- After it has been enabled once, a selector has a column. -/
theorem houses_of_tryEnable (h : t.tryEnable selector row = .ok t') : t'.Houses selector := by
  have hwidth : t'.width .selector = max (t.width .selector) (selector + 1) :=
    congrArg (·.columns.selector) (description_of_tryEnable h)
  exact .inl (hwidth ▸ lt_max_of_lt_right (Nat.lt_succ_self selector))

theorem checkSelector_eq_overflow (hpos : 0 < t.rows) (h : ¬ t.Houses selector) :
    t.checkSelector selector = .error .overflow := by
  have hcount {n : Nat} {f : Fault} (hn : Count.check n = .error f) : f = .overflow := by
    unfold Count.check at hn
    split at hn <;> cases hn
    rfl
  have hheld {n : Nat} {f : Fault} (hn : Count.held k n = .error f) : f = .overflow := by
    unfold Count.held Count.entries at hn
    split at hn <;> cases hn
    rfl
  cases hcheck : t.checkSelector selector with
  | ok => exact absurd ((checkSelector_eq_ok_iff hpos).mp hcheck) h
  | error f =>
      -- Whichever of the counts is too large, the fault is the same.
      rw [checkSelector, if_neg fun hold => h (.inl hold)] at hcheck
      obtain hwidth | ⟨width, -, hrest⟩ := bind_eq_error.mp hcheck
      · rw [hcount hwidth]
      · obtain hcells | ⟨_, -, hpure⟩ := bind_eq_error.mp hrest
        · obtain hmul | ⟨_, -, hentries⟩ := bind_eq_error.mp hcells
          · rw [hcount hmul]
          · rw [hheld hentries]
        · cases hpure

theorem tryEnable_eq_overflow (hrow : row < t.rows) (h : ¬ t.Houses selector) :
    t.tryEnable selector row = .error (.fault .overflow) := by
  rw [tryEnable, dif_pos hrow, checkSelector_eq_overflow (Nat.zero_lt_of_lt hrow) h]
  rfl

/-- **Rows that the table has** are enabled one after the other. -/
theorem enableEach_enables {l : List Nat} (hrows : ∀ row ∈ l, row < t.rows)
    (hroom : l ≠ [] → t.Houses selector) :
    ∃ t', enableEach selector l t = (t', .ok ()) ∧ t.Enables t' selector {row | row ∈ l} := by
  induction l generalizing t with
  | nil => exact ⟨t, rfl, by simpa using Enables.refl t selector⟩
  | cons row l ih =>
      obtain ⟨t₁, ht₁⟩ := exists_tryEnable (hrows row List.mem_cons_self)
        (hroom (List.cons_ne_nil _ _))
      have hrows₁ : t₁.rows = t.rows := (changes_of_tryEnable ht₁).2.1.rows_eq
      obtain ⟨t₂, ht₂, henables⟩ :=
        ih (fun r hr => hrows₁ ▸ hrows r (List.mem_cons_of_mem _ hr)) fun _ =>
          houses_of_tryEnable ht₁
      refine ⟨t₂, ?_, ?_⟩
      · rw [enableEach, ht₁]
        exact ht₂
      · simpa [Set.insert_def] using (Enables.of_tryEnable ht₁).trans henables

theorem enableEach_append {l : List Nat} (h : enableEach selector l t = (t', .ok ()))
    (m : List Nat) :
    enableEach selector (l ++ m) t = enableEach selector m t' := by
  induction l generalizing t with
  | nil => rw [← (Prod.mk.inj h).1, List.nil_append]
  | cons row l ih =>
      rw [enableEach] at h
      rw [List.cons_append, enableEach]
      split at h
      · next t₁ ht₁ => exact ih h
      · cases (Prod.mk.inj h).2

/-! ### Ranges -/

/-- The rows of a range that the table has are enabled.  If there are any, the first row is one of
them, so it is enough to have room for the selector in that case. -/
theorem enableEach_progression {l : List Nat}
    (hl : ∀ row, row ∈ l ↔ row ∈ progression first last step ∧ row < t.rows)
    (hroom : first ≤ last → first < t.rows → t.Houses selector) :
    ∃ t', enableEach selector l t = (t', .ok ()) ∧
      t.Enables t' selector {row ∈ progression first last step | row < t.rows} := by
  have hroom' (hne : l ≠ []) : t.Houses selector := by
    obtain ⟨row, hmem⟩ := List.exists_mem_of_ne_nil l hne
    obtain ⟨⟨i, hi, hlast⟩, hrow⟩ := (hl row).mp hmem
    have hfirst : first ≤ row := hi ▸ Nat.le_add_right _ _
    exact hroom (hfirst.trans hlast) (hfirst.trans_lt hrow)
  have hrows : {row | row ∈ l} = {row ∈ progression first last step | row < t.rows} := Set.ext hl
  rw [← hrows]
  exact enableEach_enables (fun row hmem => ((hl row).mp hmem).2) hroom'

/-- **Enabling a selector on a range.**  If there is room for the selector, which only matters if
the first row exists, it is enabled on the rows of the range that the table has, and nothing else
changes.  The call is refused exactly if the range has other rows, and names the first of them.  If
there is no room, nothing changes. -/
theorem enableRange_enables (t : Table k) (selector first last step : Nat) :
    let asked := progression first last step
    ((first ≤ last → first < t.rows → t.Houses selector) →
      ∃ t' answer, t.enableRange selector first last step = (t', answer) ∧
        t.Enables t' selector {row ∈ asked | row < t.rows} ∧
        (∀ s row, t'.enabled s row = true ↔
          t.enabled s row = true ∨ s = selector ∧ row ∈ asked ∧ row < t.rows) ∧
        ((∀ row ∈ asked, row < t.rows) ∧ answer = .ok () ∨
          ∃ row, IsLeast {row ∈ asked | t.rows ≤ row} row ∧
            answer = .error (.refused (.rowOutOfRange row t.rows)))) ∧
    (first ≤ last → first < t.rows → ¬ t.Houses selector →
      t.enableRange selector first last step = (t, .error (.fault .overflow))) := by
  intro asked
  refine ⟨fun hroom => ?_, fun hle hlt hfull => ?_⟩
  · unfold enableRange
    obtain ⟨hmem, hall⟩ | ⟨present, row, hrows, hmem, hleast⟩ :=
      rangeRows_cases t.rows first last step
    · obtain ⟨t', ht', henables⟩ := enableEach_progression
        (fun row => (hmem row).trans (iff_self_and.mpr (hall row))) hroom
      exact ⟨t', _, ht', henables, henables.enabled_iff, .inl ⟨hall, rfl⟩⟩
    · obtain ⟨t', ht', henables⟩ := enableEach_progression hmem hroom
      have hrow : ¬ row < t'.rows := henables.rows_eq ▸ Nat.not_lt.mpr hleast.1.2
      refine ⟨t', _, ?_, henables, henables.enabled_iff, .inr ⟨row, hleast, rfl⟩⟩
      rw [hrows, enableEach_append ht', enableEach, tryEnable, dif_neg hrow, henables.rows_eq]
  · obtain ⟨others, hrows⟩ := exists_rangeRows_eq_cons hle t.rows step
    rw [enableRange, hrows, enableEach, tryEnable_eq_overflow hlt hfull]

/-- In a table of four rows, the odd rows are one and three, and five is the first that is missing.
-/
theorem enableRange_enables_odd :
    let t := zero .goldilocks ⟨⟨1, 0, 0, 1⟩, 4, 4⟩
    t.Houses 2 ∧
      ∃ t', t.enableRange 2 1 (2 ^ 64 - 1) 2 = (t', .error (.refused (.rowOutOfRange 5 4))) ∧
        t'.description = ⟨⟨1, 0, 0, 3⟩, 4, 4⟩ ∧ t'.enabled 2 3 = true ∧
          ¬ t'.enabled 2 2 = true := by
  intro t
  have hroom : t.Houses 2 := by decide
  obtain ⟨t', answer, hrun, henables, henabled, hanswer⟩ :=
    (t.enableRange_enables 2 1 (2 ^ 64 - 1) 2).1 fun _ _ => hroom
  have hthree : 3 ∈ progression 1 (2 ^ 64 - 1) 2 := ⟨1, by decide, by decide⟩
  have hleast : IsLeast {row ∈ progression 1 (2 ^ 64 - 1) 2 | 4 ≤ row} 5 := by
    refine ⟨⟨⟨2, by decide, by decide⟩, by decide⟩, ?_⟩
    rintro _ ⟨⟨i, rfl, -⟩, hi⟩
    replace hi : 4 ≤ 1 + 2 * i := hi
    show 5 ≤ 1 + 2 * i
    omega
  refine ⟨hroom, t', ?_, ?_, ?_, ?_⟩
  · rcases hanswer with ⟨hall, -⟩ | ⟨row, hrow, rfl⟩
    · exact absurd (hall 5 hleast.1.1) (by decide)
    · rwa [hrow.unique hleast] at hrun
  · exact henables.description_eq ⟨3, hthree, by decide⟩
  · exact (henabled 2 3).mpr (.inr ⟨rfl, hthree, by decide⟩)
  · rw [henabled]
    rintro (hbefore | ⟨-, ⟨i, hi, -⟩, -⟩)
    · exact absurd hbefore (by decide)
    · replace hi : 2 = 1 + 2 * i := hi
      omega

/-- A column of a table may be too long for any memory, although its rows exist. -/
theorem enableRange_faults :
    let t := zero .goldilocks ⟨⟨0, 0, 0, 0⟩, 0, 2 ^ 62⟩
    new .goldilocks ⟨⟨0, 0, 0, 0⟩, 0, 2 ^ 62⟩ = .ok t ∧
      (∀ row ∈ progression 0 0 1, row < t.rows) ∧
      t.enableRange 0 0 0 1 = (t, .error (.fault .overflow)) := by
  refine ⟨rfl, ?_, rfl⟩
  rintro row ⟨-, -, hrow⟩
  exact hrow.trans_lt (by decide)

end Table

end Plonkish
