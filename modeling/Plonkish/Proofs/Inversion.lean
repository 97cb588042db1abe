import Plonkish.Proofs.Accepted
import Plonkish.Proofs.Steps

/-!
# Proofs — what steps leave behind

`Build.runs_bind_iff` and the lemmas after it take a run of several steps apart.

A step that answered leaves an assembly that asks for more: the gates and the copy constraints are
still there, and the selectors that were enabled still are (`Assembly.KeptIn`).  It also leaves the
gates registered and the table one that can be held (`Assembly.Becomes`).  All of this holds of
every step (`Build.Keeps`) and so of every sequence of steps, whatever the assembly it is run on.
-/

namespace Plonkish

variable {k : BaseField}

/-! ### Tables that steps wrote to -/

namespace Table

/-- The height stays, selectors that are enabled stay so, and a table that can be held still can. -/
structure Gains (t t' : Table k) : Prop where
  /-- The height stays. -/
  rows_eq : t'.rows = t.rows
  /-- Enabled selectors stay enabled. -/
  enabled {s row : Nat} : t.enabled s row = true → t'.enabled s row = true
  /-- The table can still be held. -/
  held : t.Held → t'.Held

variable {t t' t'' : Table k}

theorem Gains.refl (t : Table k) : t.Gains t := ⟨rfl, id, id⟩

/-- Writing more and more keeps what was there in the beginning. -/
theorem Gains.trans (h : t.Gains t') (h' : t'.Gains t'') : t.Gains t'' :=
  ⟨h'.rows_eq.trans h.rows_eq, fun he => h'.enabled (h.enabled he), fun hh => h'.held (h.held hh)⟩

/-- Writing a cell that is not one of a selector keeps the enabled selectors. -/
theorem Gains.of_trySet {kind : ColumnKind} (hkind : kind ≠ .selector) {index row : Nat}
    {a : Felt k} (h : t.trySet kind index row a = .ok t') : t.Gains t' := by
  obtain ⟨hchanges, -⟩ := changes_of_trySet h
  refine ⟨hchanges.rows_eq, ?_, fun hheld => hheld.trySet h⟩
  intro s r he
  rw [enabled_iff] at he ⊢
  rwa [hchanges.frame _ fun hsame => hkind (congrArg Cell.kind hsame).symm]

/-- A selector is enabled in the row that it was last enabled in. -/
theorem enabled_of_tryEnable {selector row : Nat} (h : t.tryEnable selector row = .ok t') :
    t'.enabled selector row = true := by
  rw [enabled_iff, (changes_of_tryEnable h).2.2]
  exact one_ne_zero

/-- Enabling a selector keeps the others, and the same one in other rows. -/
theorem Gains.of_tryEnable {selector row : Nat} (h : t.tryEnable selector row = .ok t') :
    t.Gains t' := by
  obtain ⟨-, hchanges, -⟩ := changes_of_tryEnable h
  refine ⟨hchanges.rows_eq, ?_, fun hheld => hheld.tryEnable h⟩
  intro s r he
  by_cases hsame : (⟨.selector, s, r⟩ : Cell) = ⟨.selector, selector, row⟩
  · obtain ⟨-, rfl, rfl⟩ := Cell.mk.inj hsame
    exact enabled_of_tryEnable h
  · rw [enabled_iff] at he ⊢
    rwa [hchanges.frame _ hsame]

/-- A selector that was enabled on each of some rows is enabled there, and the rows exist. -/
theorem gains_of_enableEach {selector : Nat} {rows : List Nat}
    (h : enableEach selector rows t = (t', .ok ())) :
    t.Gains t' ∧ ∀ row ∈ rows, row < t.rows ∧ t'.enabled selector row = true := by
  induction rows generalizing t with
  | nil =>
      obtain rfl := (Prod.mk.inj h).1
      exact ⟨.refl _, List.forall_mem_nil _⟩
  | cons row rows ih =>
      rw [enableEach] at h
      split at h
      · next t₁ ht₁ =>
          obtain ⟨hgains, hrows⟩ := ih h
          have hfirst := Gains.of_tryEnable ht₁
          refine ⟨hfirst.trans hgains, List.forall_mem_cons.mpr ⟨⟨?_, ?_⟩, ?_⟩⟩
          · exact (changes_of_tryEnable ht₁).1
          · exact hgains.enabled (enabled_of_tryEnable ht₁)
          · exact hfirst.rows_eq ▸ hrows
      · cases (Prod.mk.inj h).2

/-- A range whose rows all exist has all rows that it is asked for. -/
theorem mem_rangeRows {rows first last row : Nat} (h : ∀ r ∈ rangeRows rows first last 1, r < rows)
    (hfirst : first ≤ row) (hlast : row ≤ last) : row ∈ rangeRows rows first last 1 := by
  -- One row past the end would be listed if the range did not end before.
  have hwithin : last < rows := by
    by_contra hbeyond
    have hpast : max first rows ∈ rangeRows rows first last 1 := by
      rw [rangeRows, max_self, if_pos (hfirst.trans hlast), Nat.div_one, Nat.div_one,
        List.mem_range'_1]
      split <;> omega
    have hlt := h _ hpast
    omega
  obtain ⟨count, rfl⟩ := Nat.exists_eq_add_of_le (hfirst.trans hlast)
  rw [rangeRows_eq hwithin, List.mem_range'_1]
  omega

end Table

/-! ### Assemblies that steps changed -/

namespace Assembly

/-- What one assembly asks for, another one asks for, too. -/
structure KeptIn (a b : Assembly k) : Prop where
  /-- The gates are there. -/
  gates {g : Gate k} : g ∈ a.circuit.gates → g ∈ b.circuit.gates
  /-- The copy constraints are there. -/
  copies {copy : CopyConstraint} : copy ∈ a.circuit.copies → copy ∈ b.circuit.copies
  /-- The selectors are enabled. -/
  enabled {s row : Nat} : a.table.enabled s row = true → b.table.enabled s row = true

/-- What steps make of an assembly. -/
structure Becomes (a a' : Assembly k) : Prop extends a.KeptIn a' where
  /-- The gates stay registered. -/
  registered : a.circuit.Registered → a'.circuit.Registered
  /-- The table can still be held. -/
  held : a.table.Held → a'.table.Held

variable {a a' a'' : Assembly k}

theorem KeptIn.refl (a : Assembly k) : a.KeptIn a := ⟨id, id, id⟩

/-- What is kept by one step and then by another is kept by both. -/
theorem KeptIn.trans (h : a.KeptIn a') (h' : a'.KeptIn a'') : a.KeptIn a'' :=
  ⟨fun hg => h'.gates (h.gates hg), fun hc => h'.copies (h.copies hc),
    fun he => h'.enabled (h.enabled he)⟩

theorem Becomes.refl (a : Assembly k) : a.Becomes a := ⟨.refl a, id, id⟩

/-- Steps one after the other keep what each of them keeps. -/
theorem Becomes.trans (h : a.Becomes a') (h' : a'.Becomes a'') : a.Becomes a'' :=
  ⟨h.toKeptIn.trans h'.toKeptIn, fun hreg => h'.registered (h.registered hreg),
    fun hheld => h'.held (h.held hheld)⟩

/-- A step that only writes to the table leaves the circuit as it is. -/
theorem Becomes.of_gains {t : Table k} (h : a.table.Gains t) : a.Becomes { a with table := t } :=
  ⟨⟨id, id, h.enabled⟩, id, h.held⟩

/-- Adding a gate keeps the others, whether it is new or found among them. -/
theorem becomes_addGate (a : Assembly k) (constraints : List (Expr k)) :
    a.Becomes ⟨(a.circuit.addGate constraints).2, a.table⟩ := by
  refine ⟨⟨?_, ?_, id⟩, fun hreg => (hreg.addGate constraints).1, id⟩
  all_goals
    intro x hx
    unfold Circuit.addGate
    split
    · exact hx
  · exact Array.mem_push_of_mem _ hx
  · exact hx

/-- Adding a copy constraint keeps the gates and the other copy constraints. -/
theorem becomes_addCopy (a : Assembly k) (copy : CopyConstraint) :
    a.Becomes ⟨{ a.circuit with copies := a.circuit.copies.push copy }, a.table⟩ :=
  ⟨⟨id, Array.mem_push_of_mem _, id⟩, fun hreg => ⟨hreg.selector_eq, hreg.found⟩, id⟩

end Assembly

namespace Build

variable {α β : Type} {a a' a'' : Assembly k}

/-! ### Taking runs apart -/

/-- Steps have one outcome. -/
theorem Runs.unique {x : Build k α} {r s : α} (h : Runs x a r a') (h' : Runs x a s a'') :
    r = s ∧ a' = a'' := by
  obtain ⟨hr, ha⟩ := Prod.mk.inj ((Eq.symm h).trans h')
  exact ⟨Except.ok.inj hr, ha⟩

theorem runs_pure_iff {r s : α} : Runs (pure r) a s a' ↔ r = s ∧ a = a' :=
  ⟨(Runs.pure r a).unique, fun ⟨hr, ha⟩ => hr ▸ ha ▸ Runs.pure r a⟩

/-- A run of two steps is one of the first and then one of the second, from where that left. -/
theorem runs_bind_iff {x : Build k α} {f : α → Build k β} {s : β} :
    Runs (x >>= f) a s a'' ↔ ∃ r a', Runs x a r a' ∧ Runs (f r) a' s a'' := by
  constructor
  · intro h
    rw [Runs, ExceptT.run_bind, StateT.run_bind] at h
    rcases hx : x.run.run a with ⟨e | r, a'⟩
    · rw [hx] at h
      cases (Prod.mk.inj h).1
    · rw [hx] at h
      exact ⟨r, a', hx, h⟩
  · rintro ⟨r, a', hx, hf⟩
    exact hx.bind hf

/-- A step that fails does not run to an answer. -/
theorem not_runs_throw {e : GadgetError} {r : α} : ¬ Runs (throw e) a r a' := fun h =>
  nomatch (Prod.mk.inj h).1

/-- A computation beside the assembly leaves it alone. -/
theorem runs_ofExcept_iff {result : Except GadgetError α} {r : α} :
    Runs (ofExcept result) a r a' ↔ result = .ok r ∧ a = a' := by
  cases result with
  | ok s => exact runs_pure_iff.trans (and_congr_left fun _ => ⟨congrArg _, Except.ok.inj⟩)
  | error e => exact iff_of_false not_runs_throw fun h => nomatch h.1

theorem runs_ofFault_iff {result : Except Fault α} {r : α} :
    Runs (ofFault result) a r a' ↔ result = .ok r ∧ a = a' := by
  rw [ofFault, runs_ofExcept_iff, mapError_eq_ok]

/-- Looking at the assembly does not change it. -/
theorem runs_get_bind_iff {f : Assembly k → Build k β} {s : β} :
    Runs (get >>= f) a s a' ↔ Runs (f a) a s a' := by
  have hget : Runs get a a a := rfl
  constructor
  · intro h
    obtain ⟨b, c, hget', hf⟩ := runs_bind_iff.mp h
    obtain ⟨rfl, rfl⟩ := hget.unique hget'
    exact hf
  · exact hget.bind

/-- Where a computation comes first, the steps after it run on its result. -/
theorem runs_ofExcept_bind_iff {result : Except GadgetError α} {f : α → Build k β} {s : β} :
    Runs (ofExcept result >>= f) a s a' ↔ ∃ r, result = .ok r ∧ Runs (f r) a s a' := by
  rw [runs_bind_iff]
  constructor
  · rintro ⟨r, b, hresult, hf⟩
    obtain ⟨hr, rfl⟩ := runs_ofExcept_iff.mp hresult
    exact ⟨r, hr, hf⟩
  · rintro ⟨r, hr, hf⟩
    exact ⟨r, a, runs_ofExcept hr, hf⟩

/-- The same for a computation that can only fault. -/
theorem runs_ofFault_bind_iff {result : Except Fault α} {f : α → Build k β} {s : β} :
    Runs (ofFault result >>= f) a s a' ↔ ∃ r, result = .ok r ∧ Runs (f r) a s a' := by
  rw [ofFault, runs_ofExcept_bind_iff]
  simp only [mapError_eq_ok]

theorem runs_modify_iff {f : Assembly k → Assembly k} {r : Unit} :
    Runs (modify f) a r a' ↔ f a = a' :=
  ⟨fun h => (Prod.mk.inj h).2, fun h => Prod.ext rfl h⟩

/-- A step on the table answers where the change does, and changes nothing else. -/
theorem runs_onTable_iff {change : Table k → Except GadgetError (Table k)} {r : Unit} :
    Runs (onTable change) a r a' ↔ ∃ t, change a.table = .ok t ∧ { a with table := t } = a' := by
  rw [onTable, runs_get_bind_iff, runs_ofExcept_bind_iff]
  simp only [runs_modify_iff]

/-- A copy constraint that was added is the last one, and nothing else is changed. -/
theorem eq_of_runs_addCopy {v w : Variable} {r : Unit} (h : Runs (addCopy v w) a r a') :
    ⟨{ a.circuit with copies := a.circuit.copies.push ⟨v, w⟩ }, a.table⟩ = a' := by
  rw [addCopy, runs_get_bind_iff, runs_ofFault_bind_iff] at h
  obtain ⟨circuit, hadd, hmodify⟩ := h
  unfold Circuit.addCopy at hadd
  split at hadd
  · cases hadd
  · obtain rfl := Except.ok.inj hadd
    exact runs_modify_iff.mp hmodify

/-- A selector that was enabled was so by the table. -/
theorem exists_of_runs_enable {selector row : Nat} {r : Unit}
    (h : Runs (enable selector row) a r a') :
    ∃ t, a.table.tryEnable selector row = .ok t ∧ { a with table := t } = a' := by
  obtain ⟨t, ht, ha⟩ := runs_onTable_iff.mp h
  exact ⟨t, mapError_eq_ok.mp ht, ha⟩

/-- A range of rows that was enabled was so by the table, from the first row to the last. -/
theorem exists_of_runs_enableRange {selector first last : Nat} {r : Unit}
    (h : Runs (enableRange selector first last) a r a') :
    ∃ t, a.table.enableRange selector first last 1 = (t, .ok ()) ∧ { a with table := t } = a' := by
  rw [enableRange, runs_get_bind_iff, runs_bind_iff] at h
  obtain ⟨_, b, hmodify, h⟩ := h
  obtain ⟨hresult, rfl⟩ := runs_ofExcept_iff.mp h
  exact ⟨_, Prod.ext rfl (mapError_eq_ok.mp hresult), runs_modify_iff.mp hmodify⟩

/-! ### Steps that keep what is there -/

/-- Whatever the steps are run on, they keep it where they answer. -/
def Keeps (x : Build k α) : Prop := ∀ ⦃a r a'⦄, Runs x a r a' → a.Becomes a'

namespace Keeps

theorem pure (r : α) : Keeps (Pure.pure r : Build k α) := by
  intro a s a' h
  obtain ⟨-, rfl⟩ := runs_pure_iff.mp h
  exact .refl a

theorem throw (e : GadgetError) : Keeps (MonadExcept.throw e : Build k α) := fun _ _ _ h =>
  absurd h not_runs_throw

/-- Of two steps one after the other, both keep what is there. -/
theorem bind {x : Build k α} {f : α → Build k β} (hx : Keeps x) (hf : ∀ r, Keeps (f r)) :
    Keeps (x >>= f) := by
  intro a s a'' h
  obtain ⟨r, a', hrun, hrun'⟩ := runs_bind_iff.mp h
  exact (hx hrun).trans (hf r hrun')

/-- Leaving out the answer changes nothing. -/
theorem discard {x : Build k α} (hx : Keeps x) : Keeps (Functor.discard x) := by
  show Keeps ((fun _ => ()) <$> x)
  rw [map_eq_pure_bind]
  exact hx.bind fun _ => .pure ()

/-- Steps for the entries of a list keep what each of them keeps. -/
theorem mapM {f : α → Build k β} {l : List α} (h : ∀ x ∈ l, Keeps (f x)) : Keeps (l.mapM f) := by
  induction l with
  | nil => exact .pure []
  | cons x l ih =>
      rw [List.mapM_cons]
      exact (h x List.mem_cons_self).bind fun _ =>
        (ih fun y hy => h y (List.mem_cons_of_mem _ hy)).bind fun _ => .pure _

/-- The same where the steps have no answers. -/
theorem forM {f : α → Build k Unit} {l : List α} (h : ∀ x ∈ l, Keeps (f x)) : Keeps (l.forM f) := by
  induction l with
  | nil => exact .pure ()
  | cons x l ih =>
      exact (h x List.mem_cons_self).bind fun _ => ih fun y hy => h y (List.mem_cons_of_mem _ hy)

/-- The same where each step goes on from the answer of the one before. -/
theorem foldlM {f : β → α → Build k β} {l : List α} (h : ∀ s, ∀ x ∈ l, Keeps (f s x)) (s : β) :
    Keeps (l.foldlM f s) := by
  induction l generalizing s with
  | nil => exact .pure s
  | cons x l ih =>
      rw [List.foldlM_cons]
      exact (h s x List.mem_cons_self).bind fun _ =>
        ih (fun s y hy => h s y (List.mem_cons_of_mem _ hy)) _

theorem ofExcept (result : Except GadgetError α) : Keeps (ofExcept (k := k) result) := by
  cases result with
  | ok r => exact .pure r
  | error e => exact .throw e

theorem ofFault (result : Except Fault α) : Keeps (ofFault (k := k) result) := .ofExcept _

/-- Reading a variable leaves everything as it is. -/
theorem read (v : Variable) : Keeps (read (k := k) v) := by
  intro a r a' h
  rw [Build.read, runs_get_bind_iff, runs_ofExcept_iff] at h
  exact h.2 ▸ .refl a

/-- A witness cell is not one of a selector, so writing it keeps the selectors. -/
theorem writeWitness (l : Layout) (i row : Nat) (x : Felt k) : Keeps (writeWitness l i row x) := by
  refine (Keeps.ofFault _).bind fun column => ?_
  intro a r a' h
  obtain ⟨t, ht, rfl⟩ := runs_onTable_iff.mp h
  exact .of_gains (.of_trySet (by decide) (mapError_eq_ok.mp ht))

/-- So does writing a row, cell by cell. -/
theorem writeRow (l : Layout) (row i : Nat) (cells : List (Felt k)) :
    Keeps (writeRow l row i cells) := by
  induction cells generalizing i with
  | nil => exact .pure ()
  | cons x cells ih => exact (Keeps.writeWitness l i row x).bind fun _ => ih (i + 1)

/-- A constant cell is not one of a selector either. -/
theorem writeConstant (l : Layout) (i row : Nat) (x : Felt k) :
    Keeps (writeConstant l i row x) := by
  intro a r a' h
  rw [Build.writeConstant, runs_ofFault_bind_iff] at h
  obtain ⟨cell, hcell, hset⟩ := h
  obtain ⟨t, ht, rfl⟩ := runs_onTable_iff.mp hset
  -- The cell is one of a constant column, so no selector is overwritten.
  obtain ⟨column, -, hcell⟩ := bind_eq_ok.mp hcell
  obtain ⟨-, rfl⟩ := Variable.absolute_eq_ok.mp hcell
  have hkind : ColumnKind.constant ≠ .selector := by decide
  exact .of_gains (.of_trySet hkind (mapError_eq_ok.mp ht))

/-- A gate is only added, and no other one changed. -/
theorem addGate (constraints : List (Expr k)) : Keeps (addGate constraints) := by
  intro a r a' h
  obtain ⟨-, rfl⟩ := (runs_addGate constraints).unique h
  exact a.becomes_addGate constraints

/-- A copy constraint is only added. -/
theorem addCopy (v w : Variable) : Keeps (addCopy (k := k) v w) := by
  intro a r a' h
  obtain rfl := eq_of_runs_addCopy h
  exact a.becomes_addCopy ⟨v, w⟩

/-- Enabling a selector in a row keeps all that were enabled. -/
theorem enable (selector row : Nat) : Keeps (enable (k := k) selector row) := by
  intro a r a' h
  obtain ⟨t, ht, rfl⟩ := exists_of_runs_enable h
  exact .of_gains (.of_tryEnable ht)

/-- So does enabling one over a range of rows, row by row. -/
theorem enableRange (selector first last : Nat) :
    Keeps (enableRange (k := k) selector first last) := by
  intro a r a' h
  obtain ⟨t, ht, rfl⟩ := exists_of_runs_enableRange h
  exact .of_gains (Table.gains_of_enableEach ht).1

end Keeps

end Build

end Plonkish
