import Mathlib.Order.Interval.Finset.Nat
import Plonkish.Proofs.Check
import Plonkish.Proofs.Instances

/-!
# Proofs — composed circuits

Instances of gadgets are placed one after the other, each on the assembly that the ones before it
left (`Assembly.after`).  They compose (`Composable`) if each fits when its turn comes, none writes
an input of its own or of an earlier one, and different ones take different rows.

* `Assembly.InOrder.place`: an instance that fits leaves an assembly in order.  Gates are shared: a
  gate is enabled in rows of several instances, and in each of them the gate that is found by its
  constraints is one that the instance asked for.
* `Composable.runs`: so does placing all instances, one after the other.
* `Composable.of_publicInputs`: instances that read public inputs only compose if they fit
  beforehand.
* `Composable.complete`: from a table on in which no selector is enabled, as in a new one with any
  public inputs, every call answers, and the table satisfies the circuit in the end.

A selector gets its column when it is first enabled, and all columns together take less than `2 ^
63` bytes.  There are no more gates than rows, so only a very large table can run out of columns.
-/

namespace Plonkish

variable {k : BaseField}

open Build (Runs)

/-! ### Placements -/

/-- An instance of a gadget that is to be placed. -/
structure Placement (k : BaseField) where
  /-- The gadget. -/
  gadget : Gadget k
  /-- The cells of the input. -/
  input : List Variable
  /-- The first row. -/
  start : Nat

namespace Placement

/-- Places the instance. -/
def place (p : Placement k) : Build k (List Variable) := p.gadget.synthesize p.input p.start

/-- The rows of the instance. -/
def rows (p : Placement k) : Finset Nat := Finset.Ico p.start (p.start + p.gadget.rows)

/-- The cells that placing the instance writes. -/
def written (p : Placement k) (a : Assembly k) : Set Cell :=
  p.gadget.written (a.circuit.addGates p.gadget.constraintLists).1 p.start

/-- What the instance asks of the assembly it is placed on. -/
structure Fits (p : Placement k) (a : Assembly k) : Prop where
  /-- The layout has the columns that the gadget needs. -/
  made : p.gadget.Made
  /-- The columns of the layout are different and exist. -/
  layout : a.table.HasLayout p.gadget.layout
  /-- The rows exist. -/
  rows_le : p.start + p.gadget.rows ≤ a.table.rows
  /-- The cells of the input exist. -/
  input : ∀ v ∈ p.input, a.table.HoldsAbsolute v
  /-- The gadget is meant for the values of the input. -/
  admits : p.gadget.Admits (p.input.map (a.table.valueAt 0))

end Placement

/-- The circuit after an instance is placed. -/
def Circuit.extend (c : Circuit k) (p : Placement k) : Circuit k :=
  (c.addGates p.gadget.constraintLists).2.addCopies (p.gadget.copyPairs p.input p.start)

/-- The assembly that placing some instances leaves. -/
def Assembly.after (a : Assembly k) (ps : List (Placement k)) : Assembly k :=
  ps.foldl (fun a p => (p.place.run.run a).2) a

/-- The rows that some instances take. -/
def takenRows (ps : List (Placement k)) : Set Nat := {row | ∃ p ∈ ps, row ∈ p.rows}

/-- Some instances can be placed one after the other. -/
structure Composable (a : Assembly k) (ps : List (Placement k)) : Prop where
  /-- Each instance fits when its turn comes. -/
  fits {before after : List (Placement k)} {p : Placement k} :
    ps = before ++ p :: after → p.Fits (a.after before)
  /-- No instance writes to an input of its own or of an earlier one. -/
  spares {before after : List (Placement k)} {p : Placement k} : ps = before ++ p :: after →
    ∀ q ∈ before ++ [p], ∀ v ∈ q.input, v.cellOf a.table.rows 0 ∉ p.written (a.after before)
  /-- Different instances take different rows. -/
  disjoint : ps.Pairwise fun p q => Disjoint p.rows q.rows

theorem Assembly.after_concat (a : Assembly k) (ps : List (Placement k)) (p : Placement k) :
    a.after (ps ++ [p]) = (p.place.run.run (a.after ps)).2 :=
  List.foldl_append

theorem Composable.init {a : Assembly k} {ps : List (Placement k)} {p : Placement k}
    (h : Composable a (ps ++ [p])) : Composable a ps where
  fits hsplit := h.fits (by rw [hsplit, List.append_assoc]; rfl)
  spares hsplit := h.spares (by rw [hsplit, List.append_assoc]; rfl)
  disjoint := (List.pairwise_append.mp h.disjoint).1

theorem Composable.concat {a : Assembly k} {ps : List (Placement k)} {p : Placement k}
    (h : Composable a ps) (hfits : p.Fits (a.after ps))
    (hspares : ∀ q ∈ ps ++ [p], ∀ v ∈ q.input, v.cellOf a.table.rows 0 ∉ p.written (a.after ps))
    (hdisjoint : ∀ q ∈ ps, Disjoint q.rows p.rows) : Composable a (ps ++ [p]) := by
  have hcases : ∀ {before after : List (Placement k)} {q : Placement k},
      ps ++ [p] = before ++ q :: after →
        before = ps ∧ q = p ∨ ∃ after', ps = before ++ q :: after' := by
    intro before after q hsplit
    -- What comes after the instance is nothing, or ends in the last one.
    rcases List.eq_nil_or_concat after with rfl | ⟨after', r, rfl⟩
    · obtain ⟨rfl, hlast⟩ := List.append_inj' hsplit rfl
      exact .inl ⟨rfl, (List.singleton_inj.mp hlast).symm⟩
    · rw [List.concat_eq_append, ← List.cons_append, ← List.append_assoc] at hsplit
      exact .inr ⟨after', (List.append_inj' hsplit rfl).1⟩
  refine ⟨?_, ?_, ?_⟩
  · intro before after q hsplit
    rcases hcases hsplit with ⟨rfl, rfl⟩ | ⟨after', hsplit'⟩
    · exact hfits
    · exact h.fits hsplit'
  · intro before after q hsplit
    rcases hcases hsplit with ⟨rfl, rfl⟩ | ⟨after', hsplit'⟩
    · exact hspares
    · exact h.spares hsplit'
  · refine List.pairwise_append.mpr ⟨h.disjoint, List.pairwise_singleton _ _, ?_⟩
    intro q hq r hr
    obtain rfl := List.mem_singleton.mp hr
    exact hdisjoint q hq

/-! ### Assemblies in order -/

/-- The circuit and the table after some instances were placed. -/
structure Assembly.InOrder (a : Assembly k) (ps : List (Placement k)) : Prop where
  /-- The gates are registered. -/
  registered : a.circuit.Registered
  /-- The coefficients of the constraints are proper words. -/
  proper : ∀ g ∈ a.circuit.gates, ∀ e ∈ g.constraints, e.Proper
  /-- The constraints name columns that exist. -/
  holds : ∀ g ∈ a.circuit.gates, ∀ e ∈ g.constraints, e.Within a.table.HoldsRelative
  /-- A selector that is enabled has a gate, and is enabled in the rows of the instances only. -/
  enabled {s row : Nat} : a.table.cellAt ⟨.selector, s, row⟩ ≠ 0 →
    s < a.circuit.gates.size ∧ row ∈ takenRows ps
  /-- Where a gate is enabled, its constraints vanish. -/
  vanish {g : Gate k} : g ∈ a.circuit.gates → ∀ row, g.SatisfiedAt a.table row
  /-- Where a gate is enabled, its constraints read the rows of the instances only. -/
  reads {g : Gate k} {row : Nat} : g ∈ a.circuit.gates →
    a.table.cellAt ⟨.selector, g.selector, row⟩ ≠ 0 → ∀ e ∈ g.constraints,
      e.Within fun v => v.rowOf a.table.rows row ∈ takenRows ps
  /-- The cells of the copy constraints exist and are equal. -/
  copied {copy : CopyConstraint} : copy ∈ a.circuit.copies →
    a.table.HoldsAbsolute copy.first ∧ a.table.HoldsAbsolute copy.second ∧ copy.Satisfied a.table
  /-- A copy constraint ties an input of an instance to a row of an instance. -/
  sources {copy : CopyConstraint} : copy ∈ a.circuit.copies →
    (∃ p ∈ ps, copy.first ∈ p.input) ∧ copy.second.rowOf a.table.rows 0 ∈ takenRows ps

/-! ### Placing an instance -/

/-- The table that placing an instance leaves. -/
structure Placement.Leaves (p : Placement k) (a : Assembly k) (t : Table k) : Prop where
  /-- Only what the instance writes changes. -/
  changes : a.table.Changes t (p.written a)
  /-- The rows show what the gadget computes. -/
  filled : p.gadget.Filled t (p.input.map (a.table.valueAt 0)) p.start
  /-- The constants are there. -/
  constants : p.gadget.HoldsConstants t p.start

section Place

variable {a : Assembly k} {t : Table k} {ps : List (Placement k)} {p : Placement k}

theorem takenRows_concat : takenRows (ps ++ [p]) = takenRows ps ∪ p.rows := by
  ext row
  simp only [takenRows, Set.mem_ofPred_eq, List.mem_append, List.mem_singleton, Set.mem_union,
    Finset.mem_coe, or_and_right, exists_or, exists_eq_left]

theorem Placement.add_mem_rows {r : Nat} (hr : r < p.gadget.rows) : p.start + r ∈ p.rows :=
  Finset.mem_Ico.mpr ⟨Nat.le_add_right _ _, Nat.add_lt_add_left hr _⟩

theorem Placement.mem_rows_of_written {c : Cell} (h : c ∈ p.written a) : c.row ∈ p.rows := by
  obtain ⟨r, hr, hrow⟩ := Gadget.row_of_mem_written h
  exact hrow ▸ Placement.add_mem_rows hr

theorem Placement.kind_ne_of_written {c : Cell} (h : c ∈ p.written a) : c.kind ≠ .publicInput := by
  intro hkind
  rcases h with (⟨r, -, i, -, rfl⟩ | ⟨r, -, s, -, rfl⟩) | hconstant
  · cases hkind
  · cases hkind
  · rw [(Gadget.mem_constantCells hconstant).1] at hkind
    cases hkind

/-- Nothing is written in the rows of the earlier instances. -/
theorem Placement.not_written_of_taken (hdisjoint : ∀ q ∈ ps, Disjoint q.rows p.rows) {c : Cell}
    (hc : c.row ∈ takenRows ps) : c ∉ p.written a := by
  intro hwritten
  obtain ⟨q, hq, hrow⟩ := hc
  exact Finset.disjoint_left.mp (hdisjoint q hq) hrow (Placement.mem_rows_of_written hwritten)

theorem Circuit.Registered.extend {c : Circuit k} (h : c.Registered) (p : Placement k) :
    (c.extend p).Registered :=
  have hreg := (h.addGates p.gadget.constraintLists).1
  ⟨hreg.selector_eq, hreg.found⟩

/-- A gate that is enabled by the instance is one of those that it asks for. -/
theorem Placement.constraints_of_written (hreg : a.circuit.Registered) {g : Gate k} {row : Nat}
    (hg : g ∈ (a.circuit.extend p).gates) (h : ⟨.selector, g.selector, row⟩ ∈ p.written a) :
    ∃ r < p.gadget.rows, row = p.start + r ∧ ∃ constraints,
      p.gadget.constraintLists[min r 1]? = some constraints ∧ g.constraints == constraints := by
  obtain ⟨r, hr, hs, rfl⟩ := Gadget.mem_selectorCells_of_written h
  exact ⟨r, hr, rfl, Gadget.constraints_of_selector hreg hg hs⟩

namespace Assembly.InOrder

/-- **The gates** are in order after an instance is placed. -/
theorem vanish_and_reads (h : a.InOrder ps) (hfits : p.Fits a)
    (hdisjoint : ∀ q ∈ ps, Disjoint q.rows p.rows) (hleaves : p.Leaves a t) {g : Gate k} {row : Nat}
    (hg : g ∈ (a.circuit.extend p).gates) (hne : t.cellAt ⟨.selector, g.selector, row⟩ ≠ 0)
    {e : Expr k} (he : e ∈ g.constraints) :
    e.value (t.valueAt row) = 0 ∧ e.Within fun v => v.rowOf t.rows row ∈ takenRows (ps ++ [p]) := by
  have hrows : t.rows = a.table.rows := hleaves.changes.rows_eq
  rw [takenRows_concat]
  by_cases hwritten : ⟨.selector, g.selector, row⟩ ∈ p.written a
  · -- The instance enables the gate, so it is the one that it asked for in this row.
    obtain ⟨r, hr, rfl, constraints, hgate, hsame⟩ :=
      Placement.constraints_of_written h.registered hg hwritten
    refine ⟨Gate.value_eq_zero_of_beq hsame ?_ e he, fun v hv => .inr ?_⟩
    · exact hleaves.filled.constraints_vanish hfits.admits hleaves.constants
        (hrows ▸ hfits.rows_le) hr hgate
    · obtain ⟨e', he', hv'⟩ := Gate.occurrences_of_beq hsame he hv
      obtain ⟨-, s, hs, hrow⟩ := Gadget.constraints_within hfits.made hfits.layout
        hfits.rows_le hr hgate e' he' v hv'
      rw [hrows, hrow]
      exact Placement.add_mem_rows hs
  · -- The gate was enabled before, and the constraints read rows of the earlier instances only.
    rw [hleaves.changes.frame _ hwritten] at hne
    obtain ⟨hreg, hgrows, -⟩ := h.registered.addGates p.gadget.constraintLists
    have hold : g ∈ a.circuit.gates := hreg.mem_of_selector_lt hgrows hg (h.enabled hne).1
    have hreads := h.reads hold hne e he
    refine ⟨?_, fun v hv => .inl (hrows ▸ hreads v hv)⟩
    rw [← h.vanish hold row hne e he]
    exact Expr.value_congr fun v hv =>
      hleaves.changes.valueAt_eq (Placement.not_written_of_taken hdisjoint (hreads v hv))

theorem enabled_extend (h : a.InOrder ps) (hleaves : p.Leaves a t) {s row : Nat}
    (hne : t.cellAt ⟨.selector, s, row⟩ ≠ 0) :
    s < (a.circuit.extend p).gates.size ∧ row ∈ takenRows (ps ++ [p]) := by
  obtain ⟨-, hgrows, hleads⟩ := h.registered.addGates p.gadget.constraintLists
  rw [takenRows_concat]
  by_cases hwritten : ⟨.selector, s, row⟩ ∈ p.written a
  · obtain ⟨r, -, hs, -⟩ := Gadget.mem_selectorCells_of_written hwritten
    obtain ⟨constraints, -, hlead⟩ := Circuit.exists_leads hleads hs
    exact ⟨hlead.lt, .inr (Placement.mem_rows_of_written hwritten)⟩
  · rw [hleaves.changes.frame _ hwritten] at hne
    obtain ⟨hlt, htaken⟩ := h.enabled hne
    exact ⟨hlt.trans_le hgrows.size_mono, .inl htaken⟩

theorem holds_extend (h : a.InOrder ps) (hfits : p.Fits a) (hleaves : p.Leaves a t) {g : Gate k}
    (hg : g ∈ (a.circuit.extend p).gates) : ∀ e ∈ g.constraints, e.Within t.HoldsRelative := by
  obtain ⟨-, hgrows, -⟩ := h.registered.addGates p.gadget.constraintLists
  intro e he v hv
  refine hleaves.changes.holdsRelative ?_
  rcases hgrows.from_new hg with hold | hnew
  · exact h.holds g hold e he v hv
  · obtain ⟨r, hr, hgate⟩ := Gadget.exists_row hnew
    exact (Gadget.constraints_within hfits.made hfits.layout hfits.rows_le hr hgate e he v hv).holds

/-- **The copy constraints of the instance** hold in the table it leaves. -/
theorem copied_new (hfits : p.Fits a) (hsmall : a.table.rows ≤ 2 ^ 31)
    (hspares : ∀ v ∈ p.input, v.cellOf a.table.rows 0 ∉ p.written a) (hleaves : p.Leaves a t)
    {copy : CopyConstraint} (hcopy : copy ∈ p.gadget.copyPairs p.input p.start) :
    a.table.HoldsAbsolute copy.first ∧ a.table.HoldsAbsolute copy.second ∧ copy.Satisfied t ∧
      copy.first ∈ p.input ∧ copy.second.rowOf a.table.rows 0 ∈ p.rows := by
  obtain ⟨⟨v, w⟩, hpair, rfl⟩ := List.mem_map.mp hcopy
  obtain ⟨hv, hw⟩ := List.of_mem_zip hpair
  obtain ⟨r, hr, i, hi, hcell⟩ := Gadget.mem_inputCells hfits.made hw
  have hrows := hfits.rows_le
  have hrow : p.start + r < a.table.rows := by omega
  refine ⟨hfits.input v hv, ?_, ?_, hv, ?_⟩
  · exact hcell ▸ hfits.layout.holdsAbsolute hi hrow (hrow.trans_le hsmall)
  · -- The instance copies the value that the input had before, and has not changed it.
    have hvalues := hleaves.filled.forall₂_inputCells hfits.admits (hrows.trans hsmall)
    rw [List.forall₂_map_left_iff] at hvalues
    calc t.valueAt 0 v = a.table.valueAt 0 v := hleaves.changes.valueAt_eq (hspares v hv)
      _ = t.valueAt 0 w := (List.forall₂_zip hvalues hpair).symm
  · have hplace := Layout.cellOf_cellVariable p.gadget.layout i
      (hrow.trans_le hsmall) a.table.rows 0
    have hsecond : w.rowOf a.table.rows 0 = p.start + r := hcell ▸ congrArg Cell.row hplace
    exact hsecond ▸ Placement.add_mem_rows hr

/-- The copy constraints of earlier instances still hold. -/
theorem copied_old (h : a.InOrder ps) (hdisjoint : ∀ q ∈ ps, Disjoint q.rows p.rows)
    (hspares : ∀ q ∈ ps, ∀ v ∈ q.input, v.cellOf a.table.rows 0 ∉ p.written a)
    (hleaves : p.Leaves a t) {copy : CopyConstraint} (hcopy : copy ∈ a.circuit.copies) :
    copy.Satisfied t := by
  obtain ⟨⟨q, hq, hfirst⟩, hsecond⟩ := h.sources hcopy
  calc t.valueAt 0 copy.first = a.table.valueAt 0 copy.first :=
        hleaves.changes.valueAt_eq (hspares q hq _ hfirst)
    _ = a.table.valueAt 0 copy.second := (h.copied hcopy).2.2
    _ = t.valueAt 0 copy.second :=
        (hleaves.changes.valueAt_eq (Placement.not_written_of_taken hdisjoint hsecond)).symm

/-- **Placing an instance** that fits leaves an assembly in order. -/
theorem extend (h : a.InOrder ps) (hfits : p.Fits a) (hsmall : a.table.rows ≤ 2 ^ 31)
    (hspares : ∀ q ∈ ps ++ [p], ∀ v ∈ q.input, v.cellOf a.table.rows 0 ∉ p.written a)
    (hdisjoint : ∀ q ∈ ps, Disjoint q.rows p.rows) (hleaves : p.Leaves a t) :
    Assembly.InOrder ⟨a.circuit.extend p, t⟩ (ps ++ [p]) := by
  obtain ⟨-, hgrows, -⟩ := h.registered.addGates p.gadget.constraintLists
  have hown : ∀ v ∈ p.input, v.cellOf a.table.rows 0 ∉ p.written a :=
    hspares p (List.mem_append_right _ List.mem_cons_self)
  have hearlier : ∀ q ∈ ps, ∀ v ∈ q.input, v.cellOf a.table.rows 0 ∉ p.written a := fun q hq =>
    hspares q (List.mem_append_left _ hq)
  have hcopies : ∀ {copy : CopyConstraint}, copy ∈ (a.circuit.extend p).copies →
      copy ∈ a.circuit.copies ∨ copy ∈ p.gadget.copyPairs p.input p.start := by
    intro copy hcopy
    rw [← hgrows.copies_eq]
    exact Circuit.mem_addCopies.mp hcopy
  refine
    { registered := h.registered.extend p
      proper := Gadget.proper_addGates h.registered h.proper
      holds := fun g hg => h.holds_extend hfits hleaves hg
      enabled := h.enabled_extend hleaves
      vanish := fun hg row hne e he => (h.vanish_and_reads hfits hdisjoint hleaves hg hne he).1
      reads := fun hg hne e he => (h.vanish_and_reads hfits hdisjoint hleaves hg hne he).2
      copied := ?_
      sources := ?_ }
  · intro copy hcopy
    rcases hcopies hcopy with hold | hnew
    · obtain ⟨hfirst, hsecond, -⟩ := h.copied hold
      exact ⟨hleaves.changes.holdsAbsolute hfirst, hleaves.changes.holdsAbsolute hsecond,
        h.copied_old hdisjoint hearlier hleaves hold⟩
    · obtain ⟨hfirst, hsecond, hsatisfied, -⟩ := copied_new hfits hsmall hown hleaves hnew
      exact ⟨hleaves.changes.holdsAbsolute hfirst, hleaves.changes.holdsAbsolute hsecond,
        hsatisfied⟩
  · intro copy hcopy
    show _ ∧ copy.second.rowOf t.rows 0 ∈ _
    rw [hleaves.changes.rows_eq, takenRows_concat]
    rcases hcopies hcopy with hold | hnew
    · obtain ⟨⟨q, hq, hfirst⟩, hsecond⟩ := h.sources hold
      exact ⟨⟨q, List.mem_append_left _ hq, hfirst⟩, .inl hsecond⟩
    · obtain ⟨-, -, -, hfirst, hsecond⟩ := copied_new hfits hsmall hown hleaves hnew
      exact ⟨⟨p, List.mem_append_right _ List.mem_cons_self, hfirst⟩, .inr hsecond⟩

/-- **A table in order** satisfies the circuit. -/
theorem violations_eq_nil (h : a.InOrder ps) (hsmall : a.table.rows ≤ 2 ^ 31) :
    a.circuit.violations a.table = .ok [] :=
  Circuit.violations_eq_nil h.proper (fun g hg e he v hv => (h.holds g hg e he v hv).holds)
    (fun _ hcopy => ⟨(h.copied hcopy).1, (h.copied hcopy).2.1⟩) (hsmall.trans (by decide))
    (fun _ hg row _ => h.vanish hg row) fun _ hcopy => (h.copied hcopy).2.2

end Assembly.InOrder

end Place

/-! ### Placing all instances -/

section Run

variable {a : Assembly k} {ps : List (Placement k)} {p : Placement k}

/-- **Placing an instance** that fits answers, and leaves an assembly in order. -/
theorem Assembly.InOrder.place (h : a.InOrder ps) (hfits : p.Fits a)
    (hsmall : a.table.rows ≤ 2 ^ 31)
    (hspares : ∀ q ∈ ps ++ [p], ∀ v ∈ q.input, v.cellOf a.table.rows 0 ∉ p.written a)
    (hdisjoint : ∀ q ∈ ps, Disjoint q.rows p.rows)
    (hmem : a.table.Affords (a.circuit.extend p).gates.size) :
    ∃ t, Runs p.place a (p.gadget.outputCells p.start) ⟨a.circuit.extend p, t⟩ ∧
      a.table.Changes t (p.written a) ∧ Assembly.InOrder ⟨a.circuit.extend p, t⟩ (ps ++ [p]) := by
  obtain ⟨t, hrun, hchanges, hfilled, hconstants⟩ := Gadget.runs_synthesize hfits.made hfits.layout
    hfits.rows_le (hfits.rows_le.trans hsmall) hfits.input hfits.admits h.registered hmem
  exact ⟨t, hrun, hchanges, h.extend hfits hsmall hspares hdisjoint
    ⟨hchanges, hfilled, hconstants⟩⟩

/-- **Placing all instances** answers, and leaves an assembly in order.  The public inputs stay. -/
theorem Composable.runs (h : Composable a ps) (horder : a.InOrder [])
    (hsmall : a.table.rows ≤ 2 ^ 31)
    (hmem : a.table.Affords (ps.foldl Circuit.extend a.circuit).gates.size) :
    Runs (ps.mapM Placement.place) a (ps.map fun p => p.gadget.outputCells p.start) (a.after ps) ∧
      (a.after ps).circuit = ps.foldl Circuit.extend a.circuit ∧
      a.table.Changes (a.after ps).table {c | c.kind ≠ .publicInput} ∧ (a.after ps).InOrder ps := by
  induction ps using List.reverseRecOn with
  | nil =>
      exact ⟨Runs.pure [] a, rfl, (Table.Changes.refl _).mono (Set.empty_subset _), horder⟩
  | append_singleton ps p ih =>
      rw [List.foldl_append, List.foldl_cons, List.foldl_nil] at hmem
      -- Memory for the selectors of all gates is enough for those of the gates before.
      have hmem' := hmem.mono (Circuit.size_le_addGates _ p.gadget.constraintLists)
      obtain ⟨hrun, hcircuit, hchanges, hinorder⟩ := ih h.init hmem'
      have hrows := hchanges.rows_eq
      obtain ⟨t, hplace, hchanges', hinorder'⟩ := hinorder.place (h.fits rfl) (hrows ▸ hsmall)
        (hrows ▸ h.spares rfl)
        (fun q hq => (List.pairwise_append.mp h.disjoint).2.2 q hq p List.mem_cons_self)
        (by rwa [Table.Affords, hrows, hcircuit])
      have hafter : a.after (ps ++ [p]) = ⟨(a.after ps).circuit.extend p, t⟩ := by
        rw [Assembly.after_concat, hplace]
      rw [hafter, List.mapM_append, List.map_append, List.foldl_append, List.foldl_cons,
        List.foldl_nil, ← hcircuit]
      have hlast : Runs ([p].mapM Placement.place) (a.after ps) [p.gadget.outputCells p.start]
          ⟨(a.after ps).circuit.extend p, t⟩ := by
        rw [List.mapM_cons, List.mapM_nil]
        exact hplace.bind ((Runs.pure [] _).bind (Runs.pure _ _))
      refine ⟨hrun.bind (hlast.bind (Runs.pure _ _)), rfl, (hchanges.trans hchanges').mono ?_,
        hinorder'⟩
      rintro c (hc | hc)
      · exact hc
      · exact Placement.kind_ne_of_written hc

theorem Placement.Fits.mono {a' : Assembly k} (h : p.Fits a)
    (hchanges : a.table.Changes a'.table {c | c.kind ≠ .publicInput})
    (hpublic : ∀ v ∈ p.input, v.kind = .publicInput) : p.Fits a' where
  made := h.made
  layout := hchanges.hasLayout h.layout
  rows_le := hchanges.rows_eq ▸ h.rows_le
  input v hv := hchanges.holdsAbsolute (h.input v hv)
  admits := by
    have hvalues : p.input.map (a'.table.valueAt 0) = p.input.map (a.table.valueAt 0) :=
      List.map_congr_left fun v hv => hchanges.valueAt_eq fun hkind => hkind (hpublic v hv)
    rw [hvalues]
    exact h.admits

/-- **Instances that read public inputs only** compose if each fits beforehand and they take
different rows. -/
theorem Composable.of_publicInputs (horder : a.InOrder []) (hsmall : a.table.rows ≤ 2 ^ 31)
    (hmem : a.table.Affords (ps.foldl Circuit.extend a.circuit).gates.size)
    (hfits : ∀ p ∈ ps, p.Fits a) (hpublic : ∀ p ∈ ps, ∀ v ∈ p.input, v.kind = .publicInput)
    (hdisjoint : ps.Pairwise fun p q => Disjoint p.rows q.rows) : Composable a ps := by
  induction ps using List.reverseRecOn with
  | nil => exact ⟨fun h => by simp at h, fun h => by simp at h, .nil⟩
  | append_singleton ps p ih =>
      obtain ⟨hearlier, -, hlast⟩ := List.pairwise_append.mp hdisjoint
      rw [List.forall_mem_append] at hfits hpublic
      rw [List.foldl_append, List.foldl_cons, List.foldl_nil] at hmem
      have hmem' := hmem.mono (Circuit.size_le_addGates _ p.gadget.constraintLists)
      have hcomposable := ih hmem' hfits.1 hpublic.1 hearlier
      obtain ⟨-, -, hchanges, -⟩ := hcomposable.runs horder hsmall hmem'
      refine hcomposable.concat ?_ ?_ fun q hq => hlast q hq p List.mem_cons_self
      · exact (hfits.2 p List.mem_cons_self).mono hchanges (hpublic.2 p List.mem_cons_self)
      · intro q hq v hv hwritten
        refine Placement.kind_ne_of_written hwritten ?_
        rcases List.mem_append.mp hq with hq | hq
        · exact hpublic.1 q hq v hv
        · exact hpublic.2 q hq v hv

/-! ### The number of gates -/

theorem Gadget.length_constraintLists_le (g : Gadget k) : g.constraintLists.length ≤ g.rows := by
  cases g with
  | row kind l => exact le_rfl
  | bits role b =>
      rw [Gadget.constraintLists]
      split
      · next hmany => exact hmany
      · exact b.rows_pos

theorem Circuit.Registered.size_extend_le {c : Circuit k} (h : c.Registered) (p : Placement k) :
    (c.extend p).gates.size ≤ c.gates.size + p.gadget.rows :=
  (h.addGates p.gadget.constraintLists).2.1.size_le.trans
    (Nat.add_le_add_left p.gadget.length_constraintLists_le _)

/-- There are no more gates than rows that the instances take. -/
theorem Circuit.Registered.size_foldl_extend_le {c : Circuit k} (h : c.Registered)
    (ps : List (Placement k)) :
    (ps.foldl Circuit.extend c).gates.size ≤
      c.gates.size + (ps.map fun p => p.gadget.rows).sum := by
  induction ps generalizing c with
  | nil => exact le_rfl
  | cons p ps ih =>
      have hle := ih (h.extend p)
      have hlast := h.size_extend_le p
      rw [List.foldl_cons, List.map_cons, List.sum_cons]
      omega

/-- Different rows of a table add up to no more than all rows. -/
theorem Placement.sum_rows_le {rows : Finset Nat}
    (hdisjoint : ps.Pairwise fun p q => Disjoint p.rows q.rows)
    (hrows : ∀ p ∈ ps, p.rows ⊆ rows) : (ps.map fun p => p.gadget.rows).sum ≤ rows.card := by
  induction ps generalizing rows with
  | nil => exact Nat.zero_le _
  | cons p ps ih =>
      -- The others have to do with the rows that the first instance leaves.
      rw [List.pairwise_cons] at hdisjoint
      have hrest : ∀ q ∈ ps, q.rows ⊆ rows \ p.rows := by
        intro q hq
        exact Finset.subset_sdiff.mpr
          ⟨hrows q (List.mem_cons_of_mem _ hq), (hdisjoint.1 q hq).symm⟩
      have hle := ih hdisjoint.2 hrest
      have hcard := Finset.card_sdiff_add_card_eq_card (hrows p List.mem_cons_self)
      have hown : p.rows.card = p.gadget.rows := by
        rw [Placement.rows, Nat.card_Ico, Nat.add_sub_cancel_left]
      rw [List.map_cons, List.sum_cons]
      omega

end Run

/-! ### Fresh tables -/

namespace Table

variable {t t' : Table k}

/-- No selector is enabled in any row. -/
def NoneEnabled (t : Table k) : Prop := ∀ s row, t.cellAt ⟨.selector, s, row⟩ = 0

theorem noneEnabled_zero (d : Description) : (zero k d).NoneEnabled := by
  intro s row
  by_cases h : (zero k d).Has ⟨.selector, s, row⟩
  · rw [cellAt_eq h]
    exact Array.getElem_replicate _
  · exact cellAt_of_not_has h

/-- No selector is enabled in a table without columns for them. -/
theorem noneEnabled_of_width (h : t.width .selector = 0) : t.NoneEnabled :=
  fun _ _ => cellAt_of_not_has fun hcell => Nat.not_lt_zero _ (h ▸ hcell.index_lt)

/-- No selector is enabled in a new table. -/
theorem noneEnabled_of_new {d : Description} (h : new k d = .ok t) : t.NoneEnabled := by
  obtain ⟨_, -, rfl⟩ := bind_pure_eq_ok.mp h
  exact noneEnabled_zero d

/-- Writing cells other than selectors, such as public inputs, enables none. -/
theorem NoneEnabled.trySet (h : t.NoneEnabled) {kind : ColumnKind} {index row : Nat} {a : Felt k}
    (hkind : kind ≠ .selector) (hset : t.trySet kind index row a = .ok t') : t'.NoneEnabled := by
  intro s r
  obtain ⟨hchanges, -⟩ := changes_of_trySet hset
  rw [hchanges.frame _ fun hsame => hkind (congrArg Cell.kind hsame).symm]
  exact h s r

end Table

theorem Table.NoneEnabled.inOrder {t : Table k} (h : t.NoneEnabled) :
    Assembly.InOrder ⟨.empty, t⟩ [] where
  registered := Circuit.registered_empty
  proper g hg := by simp [Circuit.empty] at hg
  holds g hg := by simp [Circuit.empty] at hg
  enabled hne := absurd (h _ _) hne
  vanish hg := by simp [Circuit.empty] at hg
  reads hg := by simp [Circuit.empty] at hg
  copied hcopy := by simp [Circuit.empty] at hcopy
  sources hcopy := by simp [Circuit.empty] at hcopy

/-! ### A single instance -/

namespace Gadget

variable {g : Gadget k} {t t' : Table k} {input : List Variable} {start : Nat}

/-- The copy constraints of an instance tie cells that exist, and none of a selector. -/
theorem holds_of_mem_copyPairs (hmade : g.Made) (hl : t.HasLayout g.layout)
    (hrows : start + g.rows ≤ t.rows) (hsmall : start + g.rows ≤ 2 ^ 31)
    (hinput : ∀ v ∈ input, t.HoldsAbsolute v ∧ v.kind ≠ .selector) {copy : CopyConstraint}
    (hcopy : copy ∈ g.copyPairs input start) :
    (t.HoldsAbsolute copy.first ∧ copy.first.kind ≠ .selector) ∧
      t.HoldsAbsolute copy.second ∧ copy.second.kind ≠ .selector := by
  obtain ⟨⟨v, w⟩, hpair, rfl⟩ := List.mem_map.mp hcopy
  obtain ⟨hv, hw⟩ := List.of_mem_zip hpair
  obtain ⟨r, hr, i, hi, rfl⟩ := mem_inputCells hmade hw
  exact ⟨hinput v hv, hl.holdsAbsolute hi (by omega) (by omega), nofun⟩

theorem changes_selectors {selectors : List Nat}
    (h : t.Changes t' (g.selectorCells selectors start)) :
    t.Changes t' {c | c.kind = .selector} := by
  refine h.mono ?_
  rintro c ⟨r, -, s, -, rfl⟩
  rfl

/-- A gate of a single instance is satisfied where the rows of the instance keep the constraints. -/
theorem satisfiedAt_of_vanish (hnone : t.NoneEnabled)
    (hchanges : t.Changes t' (g.selectorCells (Circuit.empty.addGates g.constraintLists).1 start))
    (hvanish : ∀ r < g.rows, ∀ constraints, g.constraintLists[min r 1]? = some constraints →
      ∀ e ∈ constraints, e.value (t.valueAt (start + r)) = 0) {gate : Gate k}
    (hgate : gate ∈ (Circuit.empty.addGates g.constraintLists).2.gates) (row : Nat) :
    gate.SatisfiedAt t' row := by
  intro hne e he
  -- The selector was enabled by the instance, so the row is one of the instance.
  have hwritten : ⟨.selector, gate.selector, row⟩ ∈
      g.selectorCells (Circuit.empty.addGates g.constraintLists).1 start := by
    by_contra hnot
    exact hne ((hchanges.frame _ hnot).trans (hnone _ _))
  obtain ⟨r, hr, s, hs, hcell⟩ := hwritten
  obtain ⟨-, rfl, rfl⟩ := Cell.mk.inj hcell
  obtain ⟨constraints, hconstraints, hsame⟩ :=
    constraints_of_selector Circuit.registered_empty hgate hs
  refine Gate.value_eq_zero_of_beq hsame ?_ e he
  intro e' he'
  rw [← hvanish r hr constraints hconstraints e' he']
  have hkind := constraints_kind (List.mem_of_getElem? hconstraints) e' he'
  exact Expr.value_congr fun v hv => (changes_selectors hchanges).valueAt_eq (hkind v hv)

/-- **Adding an instance** to an empty circuit answers, and so does checking the table then.
Nothing is found if the rows of the instance keep the constraints and its cells hold the inputs,
whoever filled them in. -/
theorem exists_checked (hmade : g.Made) (hl : t.HasLayout g.layout)
    (hrows : start + g.rows ≤ t.rows) (hsmall : start + g.rows ≤ 2 ^ 31) (hheight : t.rows ≤ 2 ^ 62)
    (hinput : ∀ v ∈ input, t.HoldsAbsolute v ∧ v.kind ≠ .selector)
    (hlen : input.length = (g.inputCells start).length) (hmem : t.Affords g.constraintLists.length)
    (hnone : t.NoneEnabled) (hconstants : g.constantCells start = ∅) :
    ∃ a vs, Runs (g.build input start) ⟨.empty, t⟩ (g.outputCells start) a ∧
      t.Changes a.table {c | c.kind = .selector} ∧ a.circuit.violations a.table = .ok vs ∧
      ((∀ r < g.rows, ∀ constraints, g.constraintLists[min r 1]? = some constraints →
          ∀ e ∈ constraints, e.value (t.valueAt (start + r)) = 0) →
        (∀ copy ∈ g.copyPairs input start, copy.Satisfied t) → vs = []) := by
  have hreg : (Circuit.empty : Circuit k).Registered := Circuit.registered_empty
  obtain ⟨-, hgrows, -⟩ := hreg.addGates g.constraintLists
  have hmem' := hmem.mono (hgrows.size_le.trans (Nat.zero_add _).le)
  obtain ⟨t', hrun, hchanges, -⟩ := runs_build (a := ⟨.empty, t⟩) hmade hl hrows hsmall
    (fun v hv => (hinput v hv).1.absolute) hlen hreg hmem'
  rw [hconstants, Set.union_empty] at hchanges
  have hselectors := changes_selectors hchanges
  have hgates : ∀ gate ∈ (Circuit.empty.addGates g.constraintLists).2.gates,
      ∀ e ∈ gate.constraints, ∀ v ∈ e.occurrences, t'.Holds v := by
    intro gate hgate e he v hv
    have hnew := (hgrows.from_new hgate).resolve_left (Array.not_mem_empty _)
    obtain ⟨r, hr, hrow⟩ := exists_row hnew
    have hreads := constraints_within hmade hl hrows hr hrow e he v hv
    exact (hselectors.holdsRelative hreads.holds).holds
  have hcopies : ∀ copy ∈ ((Circuit.empty.addGates g.constraintLists).2.addCopies
      (g.copyPairs input start)).copies, copy ∈ g.copyPairs input start := by
    intro copy hcopy
    rw [Circuit.mem_addCopies, hgrows.copies_eq] at hcopy
    exact hcopy.resolve_left (Array.not_mem_empty _)
  have hcells := fun copy hcopy =>
    holds_of_mem_copyPairs hmade hl hrows hsmall hinput (hcopies copy hcopy)
  obtain ⟨vs, hvs, hnil⟩ := Circuit.exists_violations (t := t')
    (c := (Circuit.empty.addGates g.constraintLists).2.addCopies (g.copyPairs input start))
    (proper_addGates hreg fun gate hgate => absurd hgate (Array.not_mem_empty gate)) hgates
    (fun copy hcopy => ⟨hselectors.holdsAbsolute (hcells copy hcopy).1.1,
      hselectors.holdsAbsolute (hcells copy hcopy).2.1⟩)
    (hchanges.rows_eq ▸ hheight)
  refine ⟨_, vs, hrun, hselectors, hvs, fun hvanish hcopied => hnil.mpr ⟨?_, ?_⟩⟩
  · exact fun gate hgate row _ => satisfiedAt_of_vanish hnone hchanges hvanish hgate row
  · intro copy hcopy
    obtain ⟨hfirst, hsecond⟩ := hcells copy hcopy
    rw [CopyConstraint.Satisfied, hselectors.valueAt_eq hfirst.2, hselectors.valueAt_eq hsecond.2]
    exact hcopied copy (hcopies copy hcopy)

/-- **An instance whose rows keep the constraints** is accepted on its own, whoever filled them in.
-/
theorem exists_accepted (hmade : g.Made) (hl : t.HasLayout g.layout)
    (hrows : start + g.rows ≤ t.rows)
    (hsmall : t.rows ≤ 2 ^ 31) (hinput : ∀ v ∈ input, t.HoldsAbsolute v ∧ v.kind ≠ .selector)
    (hlen : input.length = (g.inputCells start).length) (hmem : t.Affords g.constraintLists.length)
    (hnone : t.NoneEnabled) (hconstants : g.constantCells start = ∅)
    (hvanish : ∀ r < g.rows, ∀ constraints, g.constraintLists[min r 1]? = some constraints →
      ∀ e ∈ constraints, e.value (t.valueAt (start + r)) = 0)
    (hcopied : ∀ copy ∈ g.copyPairs input start, copy.Satisfied t) :
    ∃ a, Runs (g.build input start) ⟨.empty, t⟩ (g.outputCells start) a ∧
      t.Changes a.table {c | c.kind = .selector} ∧ a.circuit.violations a.table = .ok [] := by
  obtain ⟨a, vs, hrun, hchanges, hvs, hnil⟩ := exists_checked hmade hl hrows (hrows.trans hsmall)
    (hsmall.trans (by decide)) hinput hlen hmem hnone hconstants
  exact ⟨a, hrun, hchanges, hnil hvanish hcopied ▸ hvs⟩

end Gadget

/-! ### Composed circuits -/

section Composed

variable {t : Table k} {ps : List (Placement k)}

/-- There is memory for the selectors of all gates, unless the table is very large. -/
theorem affords_of_disjoint (hrows : ∀ p ∈ ps, p.rows ⊆ .range t.rows)
    (hdisjoint : ps.Pairwise fun p q => Disjoint p.rows q.rows) (hlow : t.rows < 2 ^ 30) :
    t.Affords (ps.foldl Circuit.extend .empty).gates.size := by
  have hgates := Circuit.registered_empty.size_foldl_extend_le ps
  have hsum := Placement.sum_rows_le hdisjoint hrows
  have hempty : (Circuit.empty : Circuit k).gates.size = 0 := rfl
  rw [hempty, Nat.zero_add] at hgates
  rw [Finset.card_range] at hsum
  have hbytes : k.wordBytes ≤ 8 := by cases k <;> decide
  have hle : (ps.foldl Circuit.extend .empty).gates.size ≤ 2 ^ 30 - 1 := by omega
  calc t.rows * (ps.foldl Circuit.extend .empty).gates.size * k.wordBytes
      ≤ (2 ^ 30 - 1) * (2 ^ 30 - 1) * 8 :=
        Nat.mul_le_mul (Nat.mul_le_mul (Nat.le_sub_one_of_lt hlow) hle) hbytes
    _ < 2 ^ 63 := by decide

theorem Composable.affords (h : Composable ⟨.empty, t⟩ ps) (hnone : t.NoneEnabled)
    (hlow : t.rows < 2 ^ 30) : t.Affords (ps.foldl Circuit.extend .empty).gates.size := by
  refine affords_of_disjoint ?_ h.disjoint hlow
  induction ps using List.reverseRecOn with
  | nil => exact nofun
  | append_singleton ps p ih =>
      -- The rows of the last instance exist after the others, so they existed before.
      have hmem := affords_of_disjoint (ih h.init) h.init.disjoint hlow
      obtain ⟨-, -, hchanges, -⟩ := h.init.runs hnone.inOrder (hlow.le.trans (by decide)) hmem
      refine List.forall_mem_append.mpr ⟨ih h.init, List.forall_mem_singleton.mpr ?_⟩
      intro row hrow
      have hlt := (Finset.mem_Ico.mp hrow).2
      exact Finset.mem_range.mpr (hlt.trans_le (hchanges.rows_eq ▸ (h.fits rfl).rows_le))

/-- **Completeness of composed circuits**: placing instances that compose on a fresh table answers,
each time, and the table satisfies the circuit in the end.  Only a table of `2 ^ 30` rows or more
can lack the memory for the selectors of its gates. -/
theorem Composable.complete (h : Composable ⟨.empty, t⟩ ps) (hnone : t.NoneEnabled)
    (hrows : t.rows ≤ 2 ^ 31)
    (hmemory : 2 ^ 30 ≤ t.rows → t.Affords (ps.foldl Circuit.extend .empty).gates.size) :
    ∃ outputs a, Runs (ps.mapM Placement.place) ⟨.empty, t⟩ outputs a ∧
      a.circuit.violations a.table = .ok [] := by
  have hmem : t.Affords (ps.foldl Circuit.extend .empty).gates.size := by
    rcases lt_or_ge t.rows (2 ^ 30) with hlow | hhigh
    · exact h.affords hnone hlow
    · exact hmemory hhigh
  obtain ⟨hrun, -, hchanges, horder⟩ := h.runs hnone.inOrder hrows hmem
  exact ⟨_, _, hrun, horder.violations_eq_nil (hchanges.rows_eq ▸ hrows)⟩

end Composed

/-! ### Three gadgets on two inputs -/

/-- A table of eight rows with two public inputs. -/
def Table.twoInputs : Table .goldilocks where
  rows := 8
  usableRows := 8
  regions :=
    { witness := .zero _ 8 3
      publicInput := ⟨8, 1, #[.ofNat 3, .ofNat 5, 0, 0, 0, 0, 0, 0], rfl⟩
      constant := .zero _ 8 0
      selector := .zero _ 8 0 }
  height_eq kind := by cases kind <;> rfl

/-- An operation on the two inputs. -/
def Placement.onInputs (op : Arithmetic) (start : Nat) : Placement .goldilocks where
  gadget := .row (.arithmetic op) (.contiguous 3 0)
  input := [⟨.publicInput, 0, 0, false⟩, ⟨.publicInput, 0, 1, false⟩]
  start := start

/-- The two bits of the first input, in two rows. -/
def Placement.bitsOfInput : Placement .goldilocks where
  gadget := .bits (.decomposition .mostSignificantFirst)
    ⟨"bit_decomposition", .contiguous 3 0, 2, true, by decide, by decide, by decide⟩
  input := [⟨.publicInput, 0, 0, false⟩]
  start := 3

/-- The product, the sum, the sum again with the gate of the first one, and the bits. -/
def Placement.samples : List (Placement .goldilocks) :=
  [onInputs .multiplication 0, onInputs .addition 1, onInputs .addition 2, bitsOfInput]

theorem Table.hasLayout_twoInputs : Table.twoInputs.HasLayout (.contiguous 3 0) :=
  hasLayout_contiguous (by decide) (by decide)

theorem Table.holdsAbsolute_twoInputs (row : Int32) (h : 0 ≤ row.toInt ∧ row.toInt < 8) :
    Table.twoInputs.HoldsAbsolute ⟨.publicInput, 0, row, false⟩ :=
  ⟨rfl, Nat.one_pos, h.1, h.2⟩

theorem Composable.complete_samples :
    ∃ outputs a, Runs (Placement.samples.mapM Placement.place) ⟨.empty, .twoInputs⟩ outputs a ∧
      a.circuit.violations a.table = .ok [] := by
  -- The table is a new one in which the two inputs have been written.
  obtain ⟨t₀, t₁, hnew, hfirstInput, hsecondInput⟩ : ∃ t₀ t₁,
      Table.new .goldilocks ⟨⟨3, 1, 0, 0⟩, 8, 8⟩ = .ok t₀ ∧
        t₀.trySet .publicInput 0 0 (.ofNat 3) = .ok t₁ ∧
          t₁.trySet .publicInput 0 1 (.ofNat 5) = .ok .twoInputs := ⟨_, _, rfl, rfl, rfl⟩
  have hkind : ColumnKind.publicInput ≠ .selector := nofun
  have hnone : Table.twoInputs.NoneEnabled :=
    ((Table.noneEnabled_of_new hnew).trySet hkind hfirstInput).trySet hkind hsecondInput
  have hdisjoint : Placement.samples.Pairwise fun p q => Disjoint p.rows q.rows := by decide
  have hrows : ∀ p ∈ Placement.samples, p.rows ⊆ .range Table.twoInputs.rows := by decide
  have hpublic : ∀ p ∈ Placement.samples, ∀ v ∈ p.input, v.kind = .publicInput := by decide
  have hfirst := Table.holdsAbsolute_twoInputs 0 (by decide)
  have hinputs : ∀ v ∈ (Placement.onInputs .addition 0).input, Table.twoInputs.HoldsAbsolute v :=
    List.forall_mem_cons.mpr ⟨hfirst,
      List.forall_mem_singleton.mpr (Table.holdsAbsolute_twoInputs 1 (by decide))⟩
  have hfits : ∀ p ∈ Placement.samples, p.Fits ⟨.empty, .twoInputs⟩ := by
    intro p hp
    simp only [Placement.samples, List.mem_cons, List.not_mem_nil, or_false] at hp
    rcases hp with rfl | rfl | rfl | rfl
    · exact ⟨⟨by decide, by decide⟩, Table.hasLayout_twoInputs, by decide, hinputs, _, _,
        rfl, nofun⟩
    · exact ⟨⟨by decide, by decide⟩, Table.hasLayout_twoInputs, by decide, hinputs, _, _,
        rfl, nofun⟩
    · exact ⟨⟨by decide, by decide⟩, Table.hasLayout_twoInputs, by decide, hinputs, _, _,
        rfl, nofun⟩
    · exact ⟨trivial, Table.hasLayout_twoInputs, by decide, List.forall_mem_singleton.mpr hfirst,
        _, rfl, by decide⟩
  refine Composable.complete ?_ hnone (by decide) fun hhigh => absurd hhigh (by decide)
  exact Composable.of_publicInputs hnone.inOrder (by decide)
    (affords_of_disjoint hrows hdisjoint (by decide)) hfits hpublic hdisjoint

end Plonkish
