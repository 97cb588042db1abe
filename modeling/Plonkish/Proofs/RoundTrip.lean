import Plonkish.Proofs.Composition

/-!
# Proofs — composing what was decomposed

A decomposition writes the binary digits of its input (`Gadget.runs_decomposition`), and a
composition the number its inputs are the digits of (`Gadget.runs_composition`).

* `Gadget.composition_decomposition`: one after the other, in rows of their own, they give the input
  back, if it has no more binary digits than there are bits.  If it has more, the decomposition
  fails before it changes anything.

Bit rows have no constants, so the constant columns of their layouts need not exist
(`Gadget.synthesize_onWitness`).
-/

namespace Plonkish

variable {k : BaseField} {a : Assembly k} {v : Variable} {start : Nat}

open Build (Runs)

/-! ### Constant columns -/

/-- The same rows, on the witness columns of the layout alone. -/
def BitRows.onWitness (b : BitRows) : BitRows := { b with layout := ⟨b.layout.witness, [], []⟩ }

theorem BitRows.assignBits_onWitness (b : BitRows) (row j : Nat) (s : Felt k) (bits : List Bool) :
    b.onWitness.assignBits row j s bits = b.assignBits row j s bits := by
  induction bits generalizing j s with
  | nil => rfl
  | cons bit bits ih => exact congrArg _ (funext fun _ => ih _ _)

theorem BitRows.assign_onWitness (b : BitRows) (bits : List Bool) (start : Nat) :
    b.onWitness.assign (k := k) bits start = b.assign bits start := by
  rw [assign, assign]
  simp only [assignRow, assignBits_onWitness]
  rfl

/-- **Bit rows** do not use the constant columns of their layout. -/
theorem Gadget.synthesize_onWitness (role : BitRole) (b : BitRows) (input : List Variable)
    (start : Nat) : (bits role b.onWitness : Gadget k).synthesize input start =
      (bits role b).synthesize input start := by
  cases role with
  | composition _ | decomposition _ | rangeCheck =>
      simp only [synthesize, assign, assignCells, BitRows.assign_onWitness]
      rfl

/-! ### Decomposing -/

namespace Gadget

variable {b b' : BitRows} (order : BitOrder)

/-- There is memory for the gates of some bit rows. -/
theorem affords_addGates_bits {role : BitRole} (hreg : a.circuit.Registered)
    (hmem : a.table.Affords (a.circuit.gates.size + 2)) :
    a.table.Affords (a.circuit.addGates (bits role b : Gadget k).constraintLists).2.gates.size :=
  hmem.mono ((hreg.addGates _).2.1.size_le.trans
    (Nat.add_le_add_left length_constraintLists_bits_le _))

/-- **Decomposing** an element that has no more binary digits than there are bits writes its digits.
-/
theorem runs_decomposition (hl : a.table.HasLayout b.layout) (hrows : start + b.rows ≤ a.table.rows)
    (hsmall : start + b.rows ≤ 2 ^ 31) (hreg : a.circuit.Registered)
    (hmem : a.table.Affords (a.circuit.gates.size + 2)) (hv : a.table.HoldsAbsolute v)
    (hx : (a.table.valueAt 0 v).val < 2 ^ b.bits) :
    ∃ a' written, Runs ((bits (.decomposition order) b).synthesize [v] start) a
        (order.arrange (b.bitVariables start)) a' ∧
      a'.circuit.gates.size ≤ a.circuit.gates.size + 2 ∧ a.table.Changes a'.table written ∧
      b.Shows a'.table start (binaryDigits b.bits (a.table.valueAt 0 v).val) := by
  have hmade : (bits (.decomposition order) b : Gadget k).Made := trivial
  obtain ⟨t₁, hassign, hchange₁, hshows⟩ := runs_number_assign hl hrows hsmall hv hx
  obtain ⟨t₂, hbuild, hchange₂, -⟩ := runs_build (a := ⟨a.circuit, t₁⟩) hmade
    (hchange₁.hasLayout hl) (hchange₁.rows_eq ▸ hrows) hsmall
      (List.forall_mem_singleton.mpr hv.absolute)
    rfl hreg (affords_addGates_bits hreg (by rwa [Table.Affords, hchange₁.rows_eq]))
  refine ⟨_, _, (hassign.bind (Build.runs_ofFault (result_eq hmade hsmall))).bind hbuild, ?_,
    hchange₁.trans hchange₂, hshows.mono fun c hc =>
      hchange₂.frame c fun hmem => kind_ne_of_mem_selectorCells hmem hc⟩
  exact (hreg.addGates _).2.1.size_le.trans (Nat.add_le_add_left length_constraintLists_bits_le _)

/-- **Decomposing** an element with more binary digits fails before anything is changed. -/
theorem fails_decomposition {x : Felt k} (hv : v.relative = false) (hx : a.table.tryValue v = .ok x)
    (hwide : 2 ^ b.bits ≤ x.val) :
    Build.Fails ((bits (.decomposition order) b).synthesize [v] start) a
      (.input b.name (.tooWide x.val b.bits)) a := by
  obtain ⟨hholds, rfl⟩ := (Table.tryValue_eq_ok hv).mp hx
  have hdigits : b.digits (a.table.valueAt 0 v) =
      .error (.input b.name (.tooWide (a.table.valueAt 0 v).val b.bits)) := by
    rw [b.digits_eq, if_neg (not_lt.mpr hwide)]
  have hread : Runs (readOne b.name [v]) a (a.table.valueAt 0 v) a := Build.runs_read hholds
  exact (hread.bind_fails (Build.fails_ofExcept hdigits).bind).bind.bind

/-! ### Composing -/

/-- **Composing** the digits of a number gives the number. -/
theorem runs_composition {input : List Variable} {digits : List Bool}
    (hl : a.table.HasLayout b.layout) (hrows : start + b.rows ≤ a.table.rows)
    (hsmall : start + b.rows ≤ 2 ^ 31) (hreg : a.circuit.Registered)
    (hmem : a.table.Affords (a.circuit.gates.size + 2))
    (hinput : ∀ v ∈ input, a.table.HoldsAbsolute v)
    (hvalues : input.map (a.table.valueAt 0) = order.arrange (digits.map Felt.ofBool))
    (hlen : digits.length = b.bits) :
    ∃ outs a', Runs ((bits (.composition order) b).synthesize input start) a outs a' ∧
      a.table.Changes a'.table {c | ∃ r < b.rows, c.row = start + r} ∧
      outs.mapM a'.table.tryValue = .ok [sumAfter 0 digits] := by
  have hmade : (bits (.composition order) b : Gadget k).Made := trivial
  have hadm : (bits (.composition order) b).Admits (input.map (a.table.valueAt 0)) := by
    refine ⟨?_, fun x hx => ?_⟩
    · rw [hvalues, BitOrder.length_arrange, List.length_map, hlen]
    · rw [hvalues, BitOrder.mem_arrange] at hx
      obtain ⟨bit, -, rfl⟩ := List.mem_map.mp hx
      cases bit with
      | false => exact .inl rfl
      | true => exact .inr rfl
  obtain ⟨t, hrun, hchange, ⟨digits', hlen', hcarries, hshows⟩, -⟩ :=
    runs_synthesize hmade hl hrows hsmall hinput hadm hreg (affords_addGates_bits hreg hmem)
  -- The digits that the rows show are the ones that were given.
  have hsame : digits'.map (Felt.ofBool (k := k)) = digits.map Felt.ofBool := by
    have harranged : order.arrange (digits.map (Felt.ofBool (k := k))) =
        order.arrange (digits'.map Felt.ofBool) := by
      rw [← hvalues, ← BitOrder.map_arrange]
      exact hcarries
    have htwice := congrArg order.arrange harranged
    rwa [BitOrder.arrange_arrange, BitOrder.arrange_arrange, eq_comm] at htwice
  refine ⟨_, _, hrun, hchange.mono fun c hc => row_of_mem_written hc, ?_⟩
  have hpos := b.rows_pos
  have hsum : t.tryValue (b.layout.cellVariable b.sumColumn (start + b.rows - 1)) =
      .ok (sumAfter 0 digits) := by
    rw [Layout.tryValue_cellVariable (by omega), ← digitSum_ofBool, ← hsame, digitSum_ofBool]
    refine ⟨(hchange.hasLayout hl).has b.sumColumn_lt ?_, hshows.cellAt_sum hlen'⟩
    rw [hchange.rows_eq]
    omega
  exact mapM_eq_ok.mpr (.cons hsum .nil)

/-! ### There and back -/

/-- **Decomposing and composing** in rows of their own. -/
theorem runs_composition_decomposition {start' : Nat} (hl : a.table.HasLayout b.layout)
    (hl' : a.table.HasLayout b'.layout) (hsame : b'.bits = b.bits)
    (hrows : start + b.rows ≤ min a.table.rows (2 ^ 31))
    (hrows' : start' + b'.rows ≤ min a.table.rows (2 ^ 31))
    (hdisjoint : start + b.rows ≤ start' ∨ start' + b'.rows ≤ start) (hreg : a.circuit.Registered)
    (hmem : a.table.Affords (a.circuit.gates.size + 4)) (hv : a.table.HoldsAbsolute v)
    (hx : (a.table.valueAt 0 v).val < 2 ^ b.bits) :
    ∃ bits a₁ outs a₂, Runs
      ((Gadget.bits (.decomposition order) b).synthesize [v] start) a bits a₁ ∧
      Runs ((Gadget.bits (.composition order) b').synthesize bits start') a₁ outs a₂ ∧
      bits.mapM a₂.table.tryValue =
        .ok (order.arrange ((binaryDigits b.bits (a.table.valueAt 0 v).val).map Felt.ofBool)) ∧
      outs.mapM a₂.table.tryValue = .ok [a.table.valueAt 0 v] := by
  obtain ⟨hrows, hsmall⟩ := le_min_iff.mp hrows
  obtain ⟨hrows', hsmall'⟩ := le_min_iff.mp hrows'
  have hlen := length_binaryDigits b.bits (a.table.valueAt 0 v).val
  obtain ⟨a₁, written, hrun, hsize, hchange, hshows⟩ :=
    runs_decomposition order hl hrows hsmall hreg
    (hmem.mono (Nat.add_le_add_left (by decide) _)) hv hx
  -- The digits stand in the rows of the decomposition.
  have hcells := holdsAbsolute_bitVariables (hchange.hasLayout hl) (hchange.rows_eq ▸ hrows) hsmall
  have hdigits := map_bitVariables_of_shows hshows hlen hsmall
  have hmem₁ : a₁.table.Affords (a₁.circuit.gates.size + 2) := by
    rw [Table.Affords, hchange.rows_eq]
    exact hmem.mono (Nat.add_le_add_right hsize 2)
  have hvalues : (order.arrange (b.bitVariables start)).map (a₁.table.valueAt 0) =
      order.arrange ((binaryDigits b.bits (a.table.valueAt 0 v).val).map Felt.ofBool) := by
    rw [BitOrder.map_arrange, hdigits]
  obtain ⟨outs, a₂, hrun', hchange', houts⟩ := runs_composition order (hchange.hasLayout hl')
    (hchange.rows_eq ▸ hrows') hsmall' ((keeps_synthesize _ _ _ hrun).registered hreg) hmem₁
    (fun w hw => hcells w (order.mem_arrange.mp hw)) hvalues (hlen.trans hsame.symm)
  have hsum : sumAfter 0 (binaryDigits b.bits (a.table.valueAt 0 v).val) = a.table.valueAt 0 v :=
    sumAfter_val hx
  refine ⟨_, a₁, outs, a₂, hrun, hrun', ?_, hsum ▸ houts⟩
  -- The composition does not write there.
  rw [← hvalues]
  refine mapM_eq_map fun w hw => hchange'.tryValue_eq (hcells w (order.mem_arrange.mp hw)) ?_
  obtain ⟨slot, hslot, rfl⟩ := List.mem_map.mp (order.mem_arrange.mp hw)
  obtain ⟨-, hr⟩ := BitRows.slot_lt hslot
  rintro ⟨r, hr', hrow⟩
  rw [Layout.cellOf_cellVariable _ _ (by omega)] at hrow
  have hrow' : start + slot / b.perRow = start' + r := hrow
  have hlow : start ≤ start + slot / b.perRow := Nat.le_add_right _ _
  omega

end Gadget

/-- The witness columns of a layout are different, exist, and are enough for bit rows. -/
structure Table.HasBitColumns (t : Table k) (l : Layout) : Prop where
  /-- There are three columns at least. -/
  three_le : 3 ≤ l.witness.length
  /-- The columns are different. -/
  nodup : l.witness.Nodup
  /-- The columns exist. -/
  witness_lt : ∀ c ∈ l.witness, c.toNat < t.width .witness

theorem Table.HasBitColumns.hasLayout {t : Table k} {b : BitRows} (h : t.HasBitColumns b.layout) :
    t.HasLayout b.onWitness.layout :=
  ⟨h.nodup, h.witness_lt, nofun⟩

theorem BitRows.new_eq {name : String} {l : Layout} {n : Nat} {checked : Bool}
    (hthree : 3 ≤ l.witness.length) (hpos : 0 < n) (hmax : n ≤ maxBits) :
    new name l n checked = .ok ⟨name, l, n, checked, hthree, hpos, hmax⟩ := by
  rw [new, Layout.check, if_neg (not_lt.mpr hthree), if_neg (Nat.not_lt_zero _)]
  exact dif_pos ⟨hthree, hpos, hmax⟩

namespace Gadget

/-- **Composing what was decomposed** gives it back, in rows of their own, with or without a check.
The decomposition gives the binary digits of its input in the declared order; if there are too many
of them, it fails and nothing is changed.  Both end by row `2 ^ 31`, since cells beyond it are out
of reach for absolute variables, and there is memory for the columns of four more selectors, two for
each of the two gadgets. -/
theorem composition_decomposition {l₁ l₂ : Layout} {n : Nat} (order : BitOrder) (checked : Bool)
    {x : Felt k} (hn : 0 < n ∧ n ≤ maxBits) (hl₁ : a.table.HasBitColumns l₁)
    (hl₂ : a.table.HasBitColumns l₂) (hreg : a.circuit.Registered)
    (hmem : a.table.Affords (a.circuit.gates.size + 4)) (hv : v.relative = false)
    (hx : a.table.tryValue v = .ok x) :
    ∃ g₁ g₂ : Gadget k, decomposition l₁ n order = .ok g₁ ∧
      composition l₂ n order checked = .ok g₂ ∧
      (x.val < 2 ^ n → ∀ start₁ start₂, start₁ + g₁.rows ≤ min a.table.rows (2 ^ 31) →
        start₂ + g₂.rows ≤ min a.table.rows (2 ^ 31) →
        (start₁ + g₁.rows ≤ start₂ ∨ start₂ + g₂.rows ≤ start₁) →
        ∃ bits a₁ outs a₂, Runs (g₁.synthesize [v] start₁) a bits a₁ ∧
          Runs (g₂.synthesize bits start₂) a₁ outs a₂ ∧
          bits.mapM a₂.table.tryValue =
            .ok (order.arrange ((binaryDigits n x.val).map Felt.ofBool)) ∧
          outs.mapM a₂.table.tryValue = .ok [x]) ∧
      (2 ^ n ≤ x.val → ∀ start, Build.Fails (g₁.synthesize [v] start) a
        (.input "bit_decomposition" (.tooWide x.val n)) a) := by
  set b₁ : BitRows := ⟨"bit_decomposition", l₁, n, true, hl₁.three_le, hn.1, hn.2⟩
  set b₂ : BitRows := ⟨"bit_composition", l₂, n, checked, hl₂.three_le, hn.1, hn.2⟩
  refine ⟨bits (.decomposition order) b₁, bits (.composition order) b₂, ?_, ?_, ?_, fun hwide _ =>
    fails_decomposition order hv hx hwide⟩
  · rw [decomposition, BitRows.new_eq hl₁.three_le hn.1 hn.2]
    rfl
  · rw [composition, BitRows.new_eq hl₂.three_le hn.1 hn.2]
    rfl
  intro hfits start₁ start₂ hrows₁ hrows₂ hdisjoint
  obtain ⟨hholds, rfl⟩ := (Table.tryValue_eq_ok hv).mp hx
  have hlayout₁ : a.table.HasLayout b₁.onWitness.layout := hl₁.hasLayout
  have hlayout₂ : a.table.HasLayout b₂.onWitness.layout := hl₂.hasLayout
  have hround := runs_composition_decomposition order hlayout₁ hlayout₂ rfl hrows₁ hrows₂
    hdisjoint hreg
    hmem hholds hfits
  simp only [synthesize_onWitness] at hround
  exact hround

end Gadget

/-- A table of eight rows and five witness columns, with five for a public input. -/
def Table.fiveColumns : Table .goldilocks where
  rows := 8
  usableRows := 8
  regions :=
    { witness := .zero _ 8 5
      publicInput := ⟨8, 1, #[.ofNat 5, 0, 0, 0, 0, 0, 0, 0], rfl⟩
      constant := .zero _ 8 0
      selector := .zero _ 8 0 }
  height_eq kind := by cases kind <;> rfl

/-- Five has the digits `1`, `0`, `1`, `0`, the least significant one first, which take four rows of
three columns there and two rows of five columns back. -/
theorem Gadget.composition_decomposition_five :
    ∃ g₁ g₂ bits a₁ outs a₂, decomposition (.contiguous 3 0) 4 .leastSignificantFirst = .ok g₁ ∧
      composition (.contiguous 5 0) 4 .leastSignificantFirst true = .ok g₂ ∧
      Runs (g₁.synthesize [⟨.publicInput, 0, 0, false⟩] 0) ⟨.empty, .fiveColumns⟩ bits a₁ ∧
      Runs (g₂.synthesize bits 4) a₁ outs a₂ ∧
      bits.mapM a₂.table.tryValue = .ok [1, 0, 1, 0] ∧
        outs.mapM a₂.table.tryValue = .ok [.ofNat 5] := by
  have hcolumns : ∀ n : UInt32, 3 ≤ n.toNat → n.toNat ≤ 5 →
      Table.fiveColumns.HasBitColumns (.contiguous n 0) := by
    intro n hthree hfive
    have hl : Table.fiveColumns.HasLayout (.contiguous n 0) :=
      Table.hasLayout_contiguous hfive (Nat.zero_le _)
    refine ⟨?_, hl.nodup, hl.witness_lt⟩
    rwa [Layout.contiguous, List.length_map, List.length_range]
  obtain ⟨g₁, g₂, hg₁, hg₂, hround, -⟩ := composition_decomposition (a := ⟨.empty, .fiveColumns⟩)
    (v := ⟨.publicInput, 0, 0, false⟩) (n := 4) (x := .ofNat 5) .leastSignificantFirst true
      (by decide)
    (hcolumns 3 (by decide) (by decide))
      (hcolumns 5 (by decide) (by decide)) Circuit.registered_empty (by decide) rfl rfl
  obtain rfl := Except.ok.inj hg₁
  obtain rfl := Except.ok.inj hg₂
  obtain ⟨bits, a₁, outs, a₂, hrun₁, hrun₂, hbits, houts⟩ :=
    hround (by decide) 0 4 (by decide) (by decide) (.inl (by decide))
  exact ⟨_, _, bits, a₁, outs, a₂, hg₁, hg₂, hrun₁, hrun₂, hbits, houts⟩

end Plonkish
