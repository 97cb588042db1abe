import Plonkish.Proofs.BitSoundness
import Plonkish.Proofs.RowSoundness

/-!
# Proofs — determined outputs

Two tables that a circuit accepts, with the same selectors, constants and public inputs, hold the
same outputs, whatever else the two hold (`Placement.agree_outputs`).  The circuit is one that
placing instances leaves whose inputs are public, or outputs of earlier instances (`Wired`).

By induction along the wiring: an instance whose inputs are the same in two accepted tables copies
the same values (`Gadget.agree_inputCells`), and its constraints determine the outputs from these
(`Gadget.Determinate.agree_outputCells`).  They do so for all gadgets but sums of points, and
decompositions into so many bits that two numbers with the same residue have digits.
-/

namespace Plonkish

variable {k : BaseField} {t t' : Table k} {g : Gadget k} {input outs : List Variable} {start : Nat}

open Build (Runs)

/-! ### Tables that agree -/

/-- Two tables have the same value for a variable. -/
def Table.Agree (t t' : Table k) (v : Variable) : Prop :=
  ∃ x, t.tryValue v = .ok x ∧ t'.tryValue v = .ok x

theorem Table.agree_of_mapM {vs : List Variable} {values : List (Felt k)}
    (h : vs.mapM t.tryValue = .ok values) (h' : vs.mapM t'.tryValue = .ok values) :
    ∀ v ∈ vs, t.Agree t' v := by
  rw [mapM_eq_ok] at h h'
  induction h with
  | nil => exact nofun
  | cons hv _ ih =>
      obtain ⟨hv', hvs'⟩ := List.forall₂_cons.mp h'
      exact List.forall_mem_cons.mpr ⟨⟨_, hv, hv'⟩, ih hvs'⟩

theorem Layout.cellAt_eq_of_agree {l : Layout} {i row : Nat} (hrow : row < 2 ^ 31)
    (h : t.Agree t' (l.cellVariable i row)) :
    t.cellAt (l.cell i row) = t'.cellAt (l.cell i row) := by
  obtain ⟨x, hx, hx'⟩ := h
  rw [Layout.tryValue_cellVariable hrow] at hx hx'
  rw [hx.2, hx'.2]

/-- Public inputs that are the same have the same value. -/
theorem Table.agree_of_public (hpublic : ∀ c, c.kind = .publicInput → t.cellAt c = t'.cellAt c)
    {v : Variable} (hv : v.relative = false) (hkind : v.kind = .publicInput) {x y : Felt k}
    (h : t.tryValue v = .ok x) (h' : t'.tryValue v = .ok y) : t.Agree t' v := by
  have hsame : x = y := by
    rw [← ((tryValue_eq_ok hv).mp h).2, ← ((tryValue_eq_ok hv).mp h').2, valueAt, valueAt,
      Variable.cellOf_of_absolute hv, Variable.cellOf_of_absolute hv]
    exact hpublic _ hkind
  exact ⟨x, h, hsame ▸ h'⟩

/-! ### Instances in two tables -/

namespace Gadget

/-- **The cells that the inputs are copied to** agree if the inputs do. -/
theorem agree_inputCells (h : g.Enforced t input start) (h' : g.Enforced t' input start)
    (hinput : ∀ v ∈ input, t.Agree t' v) : ∀ w ∈ g.inputCells start, t.Agree t' w := by
  intro w hw
  rw [← List.map_snd_zip h.length_eq.ge] at hw
  obtain ⟨⟨v, w⟩, hpair, rfl⟩ := List.mem_map.mp hw
  have hcopy : ⟨v, w⟩ ∈ g.copyPairs input start := List.mem_map.mpr ⟨(v, w), hpair, rfl⟩
  obtain ⟨x, hx, hx'⟩ := hinput v (List.of_mem_zip hpair).1
  obtain ⟨y, hv, hy⟩ := h.copied _ hcopy
  obtain ⟨z, hv', hz⟩ := h'.copied _ hcopy
  obtain rfl := Except.ok.inj (hx.symm.trans hv)
  obtain rfl := Except.ok.inj (hx'.symm.trans hv')
  exact ⟨_, hy, hz⟩

namespace Enforced

/-- **The result of a row** is determined by the inputs. -/
theorem agree_results {kind : RowKind k} {l : Layout} (hkind : kind ≠ .points)
    (h : (row kind l).Enforced t input start) (h' : (row kind l).Enforced t' input start)
    (hcells : ∀ w ∈ (row kind l).inputCells start, t.Agree t' w)
    (hconstant : ∀ c, c.kind = .constant → t.cellAt c = t'.cellAt c) :
    ∀ i ∈ kind.results, t.Agree t' (l.cellVariable i start) := by
  have hrows : start < 2 ^ 31 := Nat.lt_of_succ_le h.rows_le
  have hrow : start < t.rows := Nat.lt_of_succ_le h.exist
  have hrow' : start < t'.rows := Nat.lt_of_succ_le h'.exist
  have hinputs : ∀ i < kind.arity,
      (Variable.relativeTo .witness (l.witness.getD i 0) 0 : Expr k).value (t.valueAt start) =
        (Variable.relativeTo .witness (l.witness.getD i 0) 0 : Expr k).value
          (t'.valueAt start) := by
    intro i hi
    rw [l.value_witness i hrow, l.value_witness i hrow']
    refine Layout.cellAt_eq_of_agree hrows (hcells _ (List.mem_map_of_mem ?_))
    exact List.mem_range'_1.mpr ⟨Nat.zero_le i, (Nat.zero_add _).symm ▸ hi⟩
  have hconstants : ∀ i < kind.constantWidth,
      (Variable.relativeTo .constant (l.constant.getD i 0) 0 : Expr k).value (t.valueAt start) =
        (Variable.relativeTo .constant (l.constant.getD i 0) 0 : Expr k).value
          (t'.valueAt start) := by
    intro i _
    rw [l.value_constant i hrow, l.value_constant i hrow']
    exact hconstant _ rfl
  intro i hi
  have hresult := RowKind.determined hkind h.row_vanish h'.row_vanish hinputs hconstants i hi
  rw [l.value_witness i hrow, l.value_witness i hrow'] at hresult
  exact ⟨_, h.tryValue_result hi, hresult ▸ h'.tryValue_result hi⟩

variable {role : BitRole} {b : BitRows}

/-- **The number** is determined by the digits. -/
theorem agree_sum (h : (bits role b).Enforced t input start)
    (h' : (bits role b).Enforced t' input start)
    (hbits : ∀ v ∈ b.bitVariables start, t.Agree t' v) :
    t.Agree t' (b.layout.cellVariable b.sumColumn (start + b.rows - 1)) := by
  have hrows : start + b.rows ≤ 2 ^ 31 := h.rows_le
  have hdigits : b.digitsAt t start = b.digitsAt t' start := by
    refine List.map_congr_left fun slot hslot => ?_
    obtain ⟨-, hr⟩ := BitRows.slot_lt hslot
    exact Layout.cellAt_eq_of_agree (by omega) (hbits _ (List.mem_map_of_mem hslot))
  exact ⟨_, h.tryValue_sum, hdigits ▸ h'.tryValue_sum⟩

/-- **The digits** are determined by the number, if no other number with so many digits has the same
residue. -/
theorem agree_bits (h : (bits role b).Enforced t input start)
    (h' : (bits role b).Enforced t' input start) (hchecked : b.checked = true)
    (hn : 2 ^ b.bits ≤ k.order)
    (hsum : t.Agree t' (b.layout.cellVariable b.sumColumn (start + b.rows - 1))) :
    ∀ v ∈ b.bitVariables start, t.Agree t' v := by
  obtain ⟨n, hlt, hdigits, hvalue⟩ := h.exists_number hchecked
  obtain ⟨m, hlt', hdigits', hvalue'⟩ := h'.exists_number hchecked
  obtain ⟨x, hx, hx'⟩ := hsum
  have hn : (n : Felt k) = x := Except.ok.inj (hvalue.symm.trans hx)
  have hm : (m : Felt k) = x := Except.ok.inj (hvalue'.symm.trans hx')
  have hsame : n = m := (Felt.eq_val_of_lt hn (by omega)).trans
    (Felt.eq_val_of_lt hm (by omega)).symm
  refine Table.agree_of_mapM (h.mapM_bitVariables hchecked) ?_
  rw [hdigits, hsame, ← hdigits']
  exact h'.mapM_bitVariables hchecked

end Enforced

/-- The gadgets whose outputs are determined by the inputs. -/
inductive Determinate : Gadget k → Prop
  /-- A gadget of one row, but for sums of points. -/
  | ofRow {kind : RowKind k} {l : Layout} {g : Gadget k} (hg : ofRow kind l = .ok g)
      (hkind : kind ≠ .points) : Determinate g
  /-- A decomposition into bits that are those of one element only. -/
  | decomposition {l : Layout} {n : Nat} {order : BitOrder} {g : Gadget k}
      (hg : decomposition l n order = .ok g) (hn : 2 ^ n ≤ k.order) : Determinate g
  /-- A composition, whether or not its inputs are checked. -/
  | composition {l : Layout} {n : Nat} {order : BitOrder} {checked : Bool} {g : Gadget k}
      (hg : composition l n order checked = .ok g) : Determinate g
  /-- A range check, which has no outputs. -/
  | rangeCheck {l : Layout} {n : Nat} {g : Gadget k} (hg : rangeCheck l n = .ok g) : Determinate g

namespace Determinate

theorem made (h : g.Determinate) : g.Made := by
  cases h with
  | ofRow hg => exact made_of_ofRow hg
  | decomposition hg | composition hg | rangeCheck hg =>
      obtain ⟨b, -, rfl⟩ := bind_pure_eq_ok.mp hg
      trivial

/-- **The outputs** agree if the inputs and the constants do. -/
theorem agree_outputCells (hg : g.Determinate) (h : g.Enforced t input start)
    (h' : g.Enforced t' input start)
    (hconstant : ∀ c, c.kind = .constant → t.cellAt c = t'.cellAt c)
    (hinput : ∀ v ∈ input, t.Agree t' v) : ∀ v ∈ g.outputCells start, t.Agree t' v := by
  have hcells := agree_inputCells h h' hinput
  cases hg with
  | ofRow hg hkind =>
      obtain rfl := eq_of_ofRow hg
      exact List.forall_mem_map.mpr (h.agree_results hkind h' hcells hconstant)
  | decomposition hg hn =>
      obtain ⟨b, hb, rfl⟩ := bind_pure_eq_ok.mp hg
      obtain ⟨rfl, hchecked⟩ := BitRows.of_new hb
      have hbits := h.agree_bits h' hchecked hn (hcells _ List.mem_cons_self)
      exact fun v hv => hbits v ((BitOrder.mem_arrange _).mp hv)
  | composition hg =>
      obtain ⟨b, -, rfl⟩ := bind_pure_eq_ok.mp hg
      have hsum := h.agree_sum h' fun v hv => hcells v ((BitOrder.mem_arrange _).mpr hv)
      exact List.forall_mem_singleton.mpr hsum
  | rangeCheck hg =>
      obtain ⟨b, -, rfl⟩ := bind_pure_eq_ok.mp hg
      exact nofun

end Determinate

end Gadget

/-! ### Wired circuits -/

/-- Each input is known, where the outputs of an instance are known to the later ones. -/
def Wired (known : Variable → Prop) : List (Placement k) → List (List Variable) → Prop
  | p :: ps, outs :: outputs =>
    (∀ v ∈ p.input, known v) ∧ Wired (fun v => known v ∨ v ∈ outs) ps outputs
  | _, _ => True

/-- What a circuit asks for is asked of every table in which the same selectors are enabled. -/
theorem Assembly.keptIn_of_selectors {a : Assembly k}
    (h : ∀ c, c.kind = .selector → t.cellAt c = a.table.cellAt c) : a.KeptIn ⟨a.circuit, t⟩ where
  gates := id
  copies := id
  enabled he := by
    rw [Table.enabled_iff] at he ⊢
    rwa [h _ rfl]

/-- **Calls that place instances** one after the other, and answer, have installed each of them. -/
theorem Placement.installed_of_runs {ps : List (Placement k)} {outputs : List (List Variable)}
    {a a' : Assembly k} (hmade : ∀ p ∈ ps, p.gadget.Made) (hreg : a.circuit.Registered)
    (hrun : Runs (ps.mapM place) a outputs a') :
    List.Forall₂ (fun p outs =>
      p.gadget.Installed a' p.input p.start ∧ outs = p.gadget.outputCells p.start) ps outputs := by
  induction ps generalizing a outputs with
  | nil =>
      obtain ⟨rfl, -⟩ := Build.runs_pure_iff.mp hrun
      exact .nil
  | cons p ps ih =>
      rw [List.forall_mem_cons] at hmade
      rw [List.mapM_cons] at hrun
      obtain ⟨outs, a₁, hplace, hrun⟩ := Build.runs_bind_iff.mp hrun
      obtain ⟨others, a₂, hothers, hlist⟩ := Build.runs_bind_iff.mp hrun
      obtain ⟨rfl, rfl⟩ := Build.runs_pure_iff.mp hlist
      obtain ⟨hinstalled, houts⟩ := Gadget.installed_of_synthesize hmade.1 hreg hplace
      have hbecomes : a₁.Becomes a₂ :=
        Build.Keeps.mapM (fun q _ => q.gadget.keeps_synthesize _ _) hothers
      have hreg₁ := (p.gadget.keeps_synthesize _ _ hplace).registered hreg
      exact .cons ⟨hinstalled.mono hbecomes.toKeptIn, houts⟩ (ih hmade.2 hreg₁ hothers)

/-- **The outputs of wired instances** agree in two tables that do what the instances ask for, if
what is known beforehand does.  By induction over the instances: the outputs of the first one are
known to the others. -/
theorem Wired.agree {known : Variable → Prop} {ps : List (Placement k)}
    {outputs : List (List Variable)}
    (hwired : Wired known ps outputs) (hdet : ∀ p ∈ ps, p.gadget.Determinate)
    (h : List.Forall₂ (fun p outs => p.gadget.Enforced t p.input p.start ∧
      p.gadget.Enforced t' p.input p.start ∧ outs = p.gadget.outputCells p.start) ps outputs)
    (hconstant : ∀ c, c.kind = .constant → t.cellAt c = t'.cellAt c)
    (hknown : ∀ v, known v → ∀ x y, t.tryValue v = .ok x → t'.tryValue v = .ok y → t.Agree t' v) :
    ∀ outs ∈ outputs, ∀ v ∈ outs, t.Agree t' v := by
  induction h generalizing known with
  | nil => exact nofun
  | @cons p _ ps outputs hfirst _ ih =>
      rw [List.forall_mem_cons] at hdet
      obtain ⟨henforced, henforced', rfl⟩ := hfirst
      have hinput : ∀ v ∈ p.input, t.Agree t' v := by
        intro v hv
        obtain ⟨x, hx⟩ := henforced.exists_value hv
        obtain ⟨y, hy⟩ := henforced'.exists_value hv
        exact hknown v (hwired.1 v hv) x y hx hy
      have houts := hdet.1.agree_outputCells henforced henforced' hconstant hinput
      refine List.forall_mem_cons.mpr ⟨houts, ih hwired.2 hdet.2 ?_⟩
      rintro v (hv | hv) x y hx hy
      · exact hknown v hv x y hx hy
      · exact houts v hv

/-- **Outputs are determined**: where instances are placed whose inputs are public, or outputs of
earlier ones, two accepted tables with the selectors and constants that this leaves, and with the
same public inputs, hold the same outputs. -/
theorem Wired.outputs_determined {ps : List (Placement k)} {outputs : List (List Variable)}
    {a a' : Assembly k}
    (hwired : Wired (fun v => v.kind = .publicInput ∧ v.relative = false) ps outputs)
    (hreg : a.circuit.Registered) (hrun : Runs (ps.mapM Placement.place) a outputs a')
    (hdet : ∀ p ∈ ps, p.gadget.Determinate) (hheld : t.Held) (hheld' : t'.Held)
    (hfixed : ∀ c, c.kind = .selector ∨ c.kind = .constant → t.cellAt c = a'.table.cellAt c)
    (hfixed' : ∀ c, c.kind = .selector ∨ c.kind = .constant → t'.cellAt c = a'.table.cellAt c)
    (hpublic : ∀ c, c.kind = .publicInput → t.cellAt c = t'.cellAt c)
    (haccepted : a'.circuit.violations t = .ok [])
    (haccepted' : a'.circuit.violations t' = .ok []) :
    ∀ outs ∈ outputs, ∀ v ∈ outs, ∃ x, t.tryValue v = .ok x ∧ t'.tryValue v = .ok x := by
  have hkept := Assembly.keptIn_of_selectors fun c hc => hfixed c (.inl hc)
  have hkept' := Assembly.keptIn_of_selectors fun c hc => hfixed' c (.inl hc)
  have hinstalled := Placement.installed_of_runs (fun p hp => (hdet p hp).made) hreg hrun
  have henforced := hinstalled.imp fun p outs hp =>
    And.intro ((hp.1.mono hkept).enforced hheld haccepted)
      (And.intro ((hp.1.mono hkept').enforced hheld' haccepted') hp.2)
  refine hwired.agree hdet henforced ?_ ?_
  · intro c hc
    exact (hfixed c (.inr hc)).trans (hfixed' c (.inr hc)).symm
  · rintro v ⟨hkind, hv⟩ x y hx hy
    exact Table.agree_of_public hpublic hv hkind hx hy

/-! ### A sum of a product -/

/-- **Rows that no instance takes** are free: whatever is written there, the table stays in order,
if the inputs are spared. -/
theorem Assembly.InOrder.refill {a : Assembly k} {ps : List (Placement k)} {written : Set Cell}
    (h : a.InOrder ps) (hchanges : a.table.Changes t written)
    (hkind : ∀ c ∈ written, c.kind ≠ .selector) (hfree : ∀ c ∈ written, c.row ∉ takenRows ps)
    (hspares : ∀ p ∈ ps, ∀ v ∈ p.input, v.cellOf a.table.rows 0 ∉ written) :
    Assembly.InOrder ⟨a.circuit, t⟩ ps := by
  have hselector : ∀ {s row : Nat}, t.cellAt ⟨.selector, s, row⟩ ≠ 0 →
      a.table.cellAt ⟨.selector, s, row⟩ ≠ 0 := by
    intro s row hne
    rwa [hchanges.frame _ fun hmem => hkind _ hmem rfl] at hne
  have htaken : ∀ {c : Cell}, c.row ∈ takenRows ps → c ∉ written := fun hrow hmem =>
    hfree _ hmem hrow
  refine
    { registered := h.registered
      proper := h.proper
      holds := fun g hg e he v hv => hchanges.holdsRelative (h.holds g hg e he v hv)
      enabled := fun hne => h.enabled (hselector hne)
      vanish := ?_
      reads := ?_
      copied := ?_
      sources := ?_ }
  · intro g hg row hne e he
    have hreads := h.reads hg (hselector hne) e he
    rw [← h.vanish hg row (hselector hne) e he]
    exact Expr.value_congr fun v hv => hchanges.valueAt_eq (htaken (hreads v hv))
  · intro g row hg hne e he
    show e.Within fun v => v.rowOf t.rows row ∈ _
    rw [hchanges.rows_eq]
    exact h.reads hg (hselector hne) e he
  · intro copy hcopy
    obtain ⟨hfirst, hsecond, hsatisfied⟩ := h.copied hcopy
    obtain ⟨⟨p, hp, hinput⟩, hrow⟩ := h.sources hcopy
    refine ⟨hchanges.holdsAbsolute hfirst, hchanges.holdsAbsolute hsecond, ?_⟩
    calc t.valueAt 0 copy.first = a.table.valueAt 0 copy.first :=
          hchanges.valueAt_eq (hspares p hp _ hinput)
      _ = a.table.valueAt 0 copy.second := hsatisfied
      _ = t.valueAt 0 copy.second := (hchanges.valueAt_eq (htaken hrow)).symm
  · intro copy hcopy
    show _ ∧ copy.second.rowOf t.rows 0 ∈ _
    rw [hchanges.rows_eq]
    exact h.sources hcopy

/-- The sum of the first input and what stands in the first row as the result. -/
def Placement.ofResult : Placement .goldilocks where
  gadget := .row (.arithmetic .addition) (.contiguous 3 0)
  input := [⟨.witness, 2, 0, false⟩, ⟨.publicInput, 0, 0, false⟩]
  start := 1

/-- The product of the two inputs, and its sum with the first one. -/
def Placement.sumOfProduct : List (Placement .goldilocks) := [onInputs .multiplication 0, ofResult]

theorem Composable.sumOfProduct :
    Composable ⟨.empty, .twoInputs⟩ Placement.sumOfProduct ∧
      Table.twoInputs.Affords (Placement.sumOfProduct.foldl Circuit.extend .empty).gates.size := by
  have horder : Assembly.InOrder ⟨.empty, .twoInputs⟩ [] := (Table.noneEnabled_of_width rfl).inOrder
  have hdisjoint : Placement.sumOfProduct.Pairwise fun p q => Disjoint p.rows q.rows := by decide
  have hrows : ∀ p ∈ Placement.sumOfProduct, p.rows ⊆ .range Table.twoInputs.rows := by decide
  have hmem := affords_of_disjoint hrows hdisjoint (by decide)
  have hmem' := hmem.mono (Circuit.size_le_addGates _ Placement.ofResult.gadget.constraintLists)
  have hproduct : ∀ v ∈ (Placement.onInputs .multiplication 0).input,
      Table.twoInputs.HoldsAbsolute v ∧ v.kind = .publicInput := by decide
  have hsum : ∀ v ∈ Placement.ofResult.input, Table.twoInputs.HoldsAbsolute v := by decide
  have hfits : (Placement.onInputs .multiplication 0).Fits ⟨.empty, .twoInputs⟩ :=
    ⟨⟨by decide, by decide⟩, Table.hasLayout_twoInputs, by decide, fun v hv => (hproduct v hv).1,
      _, _, rfl, nofun⟩
  have hfirst : Composable ⟨.empty, .twoInputs⟩ [Placement.onInputs .multiplication 0] :=
    Composable.of_publicInputs horder (by decide) hmem' (List.forall_mem_singleton.mpr hfits)
      (List.forall_mem_singleton.mpr fun v hv => (hproduct v hv).2) (List.pairwise_singleton _ _)
  obtain ⟨-, -, hchanges, -⟩ := hfirst.runs horder (by decide) hmem'
  refine ⟨hfirst.concat (p := Placement.ofResult) ?_ ?_ ?_, hmem⟩
  · exact ⟨⟨by decide, by decide⟩, hchanges.hasLayout Table.hasLayout_twoInputs,
      hchanges.rows_eq ▸ (by decide), fun v hv => hchanges.holdsAbsolute (hsum v hv), _, _,
        rfl, nofun⟩
  · -- The sum takes a row of its own, and public inputs are never written.
    have hcells : ∀ q ∈ Placement.sumOfProduct, ∀ v ∈ q.input,
        (v.cellOf 8 0).kind = .publicInput ∨
          (v.cellOf 8 0).row ∉ Placement.ofResult.rows := by decide
    intro q hq v hv hwritten
    rcases hcells q hq v hv with hkind | hrow
    · exact Placement.kind_ne_of_written hwritten hkind
    · exact hrow (Placement.mem_rows_of_written hwritten)
  · exact List.forall_mem_singleton.mpr (by decide)

theorem Wired.outputs_determined_sumOfProduct :
    ∃ outputs a t, Runs (Placement.sumOfProduct.mapM Placement.place)
      ⟨.empty, .twoInputs⟩ outputs a ∧
      a.circuit.violations a.table = .ok [] ∧ a.circuit.violations t = .ok [] ∧
      a.table.cellAt ⟨.witness, 0, 7⟩ ≠ t.cellAt ⟨.witness, 0, 7⟩ ∧
      ∀ outs ∈ outputs, ∀ v ∈ outs, ∃ x, a.table.tryValue v = .ok x ∧ t.tryValue v = .ok x := by
  obtain ⟨hcomposable, hmem⟩ := Composable.sumOfProduct
  obtain ⟨hrun, -, hchanges, horder⟩ :=
    hcomposable.runs (Table.noneEnabled_of_width rfl).inOrder (by decide) hmem
  set a := Assembly.after ⟨.empty, .twoInputs⟩ Placement.sumOfProduct
  have hsmall : a.table.rows ≤ 2 ^ 31 := hchanges.rows_eq ▸ (by decide)
  have hkeeps : Build.Keeps (Placement.sumOfProduct.mapM Placement.place) :=
    .mapM fun p _ => p.gadget.keeps_synthesize _ _
  have hheld := (hkeeps hrun).held Table.held_twoInputs
  -- The last row is free, so another value in it makes another table.
  have hfree : Table.twoInputs.Has ⟨.witness, 0, 7⟩ := ⟨by decide, by decide⟩
  obtain ⟨t, hset, hchanges', hnew⟩ :=
    Table.trySet_changes (hchanges.has hfree) (a.table.cellAt ⟨.witness, 0, 7⟩ + 1)
  have hrows : ∀ p ∈ Placement.sumOfProduct, 7 ∉ p.rows := by decide
  have hinputs : ∀ p ∈ Placement.sumOfProduct, ∀ v ∈ p.input,
      v.relative = false ∧ v.rotation.toInt.toNat ≠ 7 := by decide
  have horder' : Assembly.InOrder ⟨a.circuit, t⟩ Placement.sumOfProduct := by
    refine horder.refill hchanges' ?_ ?_ ?_
    · rintro c rfl
      exact nofun
    · rintro c rfl ⟨p, hp, hrow⟩
      exact hrows p hp hrow
    · intro p hp v hv hcell
      obtain ⟨habsolute, hrow⟩ := hinputs p hp v hv
      rw [Variable.cellOf_of_absolute habsolute] at hcell
      exact hrow (congrArg Cell.row hcell)
  have haccepted := horder.violations_eq_nil hsmall
  have haccepted' := horder'.violations_eq_nil (hchanges'.rows_eq ▸ hsmall)
  have hframe : ∀ c, c.kind ≠ .witness → t.cellAt c = a.table.cellAt c := fun c hc =>
    hchanges'.frame c fun hsame => hc (congrArg Cell.kind hsame)
  refine ⟨_, a, t, hrun, haccepted, haccepted', ?_, ?_⟩
  · rw [hnew]
    exact (add_ne_left.mpr one_ne_zero).symm
  · refine outputs_determined (a := ⟨.empty, .twoInputs⟩) ?_ Circuit.registered_empty hrun ?_ hheld
      (hheld.trySet hset) (fun _ _ => rfl) ?_ ?_ haccepted haccepted'
    · exact ⟨by decide, by decide, trivial⟩
    · have hproduct : Gadget.ofRow (k := .goldilocks) (.arithmetic .multiplication)
        (.contiguous 3 0) =
          .ok (.row _ _) := rfl
      have hsum : Gadget.ofRow (k := .goldilocks) (.arithmetic .addition) (.contiguous 3 0) =
          .ok (.row _ _) := rfl
      exact List.forall_mem_cons.mpr
        ⟨.ofRow hproduct nofun, List.forall_mem_singleton.mpr (.ofRow hsum nofun)⟩
    · rintro c (hc | hc) <;> exact hframe c (hc ▸ nofun)
    · exact fun c hc => (hframe c (hc ▸ nofun)).symm

end Plonkish
