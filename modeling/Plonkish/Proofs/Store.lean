import Plonkish.Proofs.Writes

/-!
# Proofs — a table is a store

A `Table.Call` writes a cell or enables a selector; `Table.step` is one call, with its answer, and
`Table.run` is the table after some calls.  A call that is refused leaves the table as it is;
`Table.accepted` lists the others.

A table is `Stored` by a list of calls if each cell holds the value of the last of them that wrote
there (`lastWritten`) and the selector region has grown by the columns of the selectors that they
enable, and no other region.  Growing moves every entry of the region to another place in its array,
which `Matrix.entry_grown` says cannot be seen.

* `Call.perform_eq`: a call is refused exactly if the table has no place for it, with the reason.
* `Stored.perform`, `Stored.run`: an accepted call adds its value to what the table stores.
* `new_stores`: what the table of a description does under any calls.

Only the columns that are appended take memory; a call `Fits` if there is enough for those it asks
for.
-/

namespace Plonkish

variable {k : BaseField}

/-! ### Descriptions -/

namespace Description

/-- There is memory for the cells of each region. -/
def Fits (k : BaseField) (d : Description) : Prop :=
  ∀ kind, d.rows * d.columns.get kind * k.wordBytes < 2 ^ 63

/-- The description with at least a number of selector columns. -/
def widened (d : Description) (n : Nat) : Description :=
  { d with columns.selector := max d.columns.selector n }

/-- Why there is no such cell in the tables of a description: the column is looked at first. -/
def missing (d : Description) (c : Cell) : Option TableError :=
  if c.index < d.columns.get c.kind then
    if c.row < d.rows then none else some (.rowOutOfRange c.row d.rows)
  else some (.columnOutOfRange c.kind c.index (d.columns.get c.kind))

@[simp] theorem widened_zero (d : Description) : d.widened 0 = d := by
  rw [widened, Nat.max_zero]

theorem widened_widened (d : Description) (m n : Nat) :
    (d.widened m).widened n = d.widened (max m n) := by
  simp only [widened, Nat.max_assoc]

end Description

theorem Matrix.cellsOf_eq {rows width : Nat} (h : rows * width * k.wordBytes < 2 ^ 63) :
    cellsOf k rows width = .ok (rows * width) := by
  have hbytes : 0 < k.wordBytes := by cases k <;> decide
  have hcount : rows * width < 2 ^ 63 := (Nat.le_mul_of_pos_right _ hbytes).trans_lt h
  rw [cellsOf, Count.mul, Count.check_of_lt (by omega)]
  exact Count.entries_eq_ok.mpr ⟨h, rfl⟩

theorem Matrix.entry_zero (rows width c r : Nat) : (zero k rows width).entry c r = 0 := by
  unfold entry cell
  split
  · exact Array.getElem_replicate _
  · rfl

namespace Table

variable {t t' : Table k} {d : Description}

/-! ### Calls -/

/-- A request to write to a table. -/
inductive Call (k : BaseField) where
  /-- Writes a value to a cell. -/
  | set (cell : Cell) (value : Felt k)
  /-- Enables a selector on a row. -/
  | enable (selector row : Nat)

namespace Call

/-- The cell that a call writes to. -/
def cell : Call k → Cell
  | set c _ => c
  | enable selector row => ⟨.selector, selector, row⟩

/-- The value that a call writes. -/
def value : Call k → Felt k
  | set _ a => a
  | enable _ _ => 1

/-- The number of selector columns that a call asks for. -/
def selectors : Call k → Nat
  | set _ _ => 0
  | enable selector _ => selector + 1

/-- There is memory for the selector columns that a call asks for. -/
def Fits (rows : Nat) (call : Call k) : Prop := rows * call.selectors * k.wordBytes < 2 ^ 63

instance (rows : Nat) (call : Call k) : Decidable (call.Fits rows) :=
  inferInstanceAs (Decidable (_ < _))

/-- Why tables of a description refuse a call, if they do. -/
def refusal (d : Description) : Call k → Option TableError
  | set c _ => d.missing c
  | enable _ row => if row < d.rows then none else some (.rowOutOfRange row d.rows)

/-- The table after a call, if the call is not refused. -/
def perform (t : Table k) : Call k → Except Failure (Table k)
  | set c a => (t.trySet c.kind c.index c.row a).mapError .refused
  | enable selector row => t.tryEnable selector row

end Call

/-- The answer to a call, and the table after it. -/
def step (t : Table k) (call : Call k) : Except Failure Unit × Table k :=
  match call.perform t with
  | .ok t' => (.ok (), t')
  | .error e => (.error e, t)

/-- The table after some calls. -/
def run (t : Table k) (calls : List (Call k)) : Table k :=
  calls.foldl (fun t call => (t.step call).2) t

/-- The calls that are carried out when they are made one after the other. -/
def accepted (t : Table k) : List (Call k) → List (Call k)
  | [] => []
  | call :: calls =>
    match call.perform t with
    | .ok t' => call :: t'.accepted calls
    | .error _ => t.accepted calls

/-- The value of the last of some calls that writes to a cell, and zero if none does. -/
def lastWritten (calls : List (Call k)) (c : Cell) : Felt k :=
  (calls.filter fun call => call.cell = c).getLast?.elim 0 Call.value

/-- One more than the largest selector that the calls enable, and zero if they enable none. -/
def selectorsOf (calls : List (Call k)) : Nat :=
  calls.foldl (fun n call => max n call.selectors) 0

theorem lastWritten_concat (calls : List (Call k)) (call : Call k) (c : Cell) :
    lastWritten (calls ++ [call]) c =
      if call.cell = c then call.value else lastWritten calls c := by
  rw [lastWritten, List.filter_append]
  split
  · next h => rw [List.filter_singleton, decide_eq_true h, cond_true, List.getLast?_concat]; rfl
  · next h => rw [List.filter_singleton, decide_eq_false h, cond_false, List.append_nil]; rfl

theorem selectorsOf_concat (calls : List (Call k)) (call : Call k) :
    selectorsOf (calls ++ [call]) = max (selectorsOf calls) call.selectors := by
  rw [selectorsOf, List.foldl_append]
  rfl

/-! ### One call -/

theorem columns_get_description (t : Table k) (kind : ColumnKind) :
    t.description.columns.get kind = t.width kind := by
  cases kind <;> rfl

/-- A table has the cells that its description has, and the reasons for the others are these. -/
theorem missing_cases (t : Table k) (c : Cell) :
    t.Has c ∧ t.description.missing c = none ∨
    (c.index < t.width c.kind ∧ ¬ c.row < t.rows) ∧
      t.description.missing c = some (.rowOutOfRange c.row t.rows) ∨
    ¬ c.index < t.width c.kind ∧
      t.description.missing c = some (.columnOutOfRange c.kind c.index (t.width c.kind)) := by
  rw [Description.missing, columns_get_description]
  by_cases hindex : c.index < t.width c.kind
  · rw [if_pos hindex]
    by_cases hrow : c.row < t.rows
    · exact .inl ⟨⟨hindex, hrow⟩, if_pos hrow⟩
    · exact .inr (.inl ⟨⟨hindex, hrow⟩, if_neg hrow⟩)
  · exact .inr (.inr ⟨hindex, if_neg hindex⟩)

/-- **Reading a cell**, whether the table has it or not. -/
theorem tryGet_eq_missing (c : Cell) :
    t.tryGet c.kind c.index c.row =
      match t.description.missing c with
      | none => .ok (t.cellAt c)
      | some e => .error e := by
  obtain ⟨hc, h⟩ | ⟨⟨hindex, hrow⟩, h⟩ | ⟨hindex, h⟩ := t.missing_cases c
  · rw [h, tryGet_eq hc]
  · rw [h, tryGet, dif_pos hindex, dif_neg hrow]
  · rw [h, tryGet, dif_neg hindex]

/-- **Writing a cell**, whether the table has it or not. -/
theorem trySet_eq_missing (c : Cell) (a : Felt k) :
    match t.description.missing c with
    | none => ∃ t', t.trySet c.kind c.index c.row a = .ok t'
    | some e => t.trySet c.kind c.index c.row a = .error e := by
  obtain ⟨hc, h⟩ | ⟨⟨hindex, hrow⟩, h⟩ | ⟨hindex, h⟩ := t.missing_cases c
  · rw [h]
    exact (trySet_changes hc a).imp fun _ ht' => ht'.1
  · rw [h, trySet, dif_pos hindex, dif_neg hrow]
  · rw [h, trySet, dif_neg hindex]

/-- Writing a cell keeps the shape of the table. -/
theorem description_of_trySet {kind : ColumnKind} {index row : Nat} {a : Felt k}
    (h : t.trySet kind index row a = .ok t') : t'.description = t.description := by
  unfold trySet at h
  split at h
  · split at h
    · obtain rfl := Except.ok.inj h
      cases kind <;> rfl
    · cases h
  · cases h

/-- Enabling a selector appends the columns up to its own. -/
theorem description_of_tryEnable {selector row : Nat} (h : t.tryEnable selector row = .ok t') :
    t'.description = t.description.widened (selector + 1) := by
  unfold tryEnable at h
  split at h
  · obtain ⟨_, -, hput⟩ := bind_eq_ok.mp h
    obtain rfl := Except.ok.inj hput
    show (⟨⟨_, _, _, ((t.regions.get .selector).grown (selector + 1)).width⟩, _, _⟩ :
      Description) = _
    rw [Matrix.width_grown]
    rfl
  · cases h

namespace Call

/-- What an accepted call does. -/
theorem of_perform {call : Call k} (h : call.perform t = .ok t') :
    t'.description = t.description.widened call.selectors ∧ t.Changes t' {call.cell} ∧
      t'.cellAt call.cell = call.value := by
  cases call with
  | set c a =>
      have hset := mapError_eq_ok.mp h
      exact ⟨(description_of_trySet hset).trans (Description.widened_zero _).symm,
        changes_of_trySet hset⟩
  | enable selector row => exact ⟨description_of_tryEnable h, (changes_of_tryEnable h).2⟩

/-- **A call** is refused exactly if the table has no place for it. -/
theorem perform_eq (call : Call k) (hfits : call.Fits t.rows) :
    match call.refusal t.description with
    | none => ∃ t', call.perform t = .ok t'
    | some e => call.perform t = .error (.refused e) := by
  cases call with
  | set c a =>
      have hset := t.trySet_eq_missing c a
      cases h : t.description.missing c with
      | none =>
          rw [h] at hset
          rw [show (set c a).refusal t.description = none from h]
          exact hset.imp fun _ => mapError_eq_ok.mpr
      | some e =>
          rw [h] at hset
          rw [show (set c a).refusal t.description = some e from h]
          exact congrArg (Except.mapError Failure.refused) hset
  | enable selector row =>
      by_cases hrow : row < t.rows
      · obtain ⟨t', ht', -⟩ := tryEnable_changes hrow hfits (Nat.lt_succ_self selector)
        rw [show (enable selector row).refusal t.description = none from if_pos hrow]
        exact ⟨t', ht'⟩
      · rw [show (enable selector row).refusal t.description = some (.rowOutOfRange row t.rows)
          from if_neg hrow]
        exact dif_neg hrow

end Call

/-- The answer to a call. -/
theorem step_fst (call : Call k) (hfits : call.Fits t.rows) :
    (t.step call).1 =
      match call.refusal t.description with
      | none => .ok ()
      | some e => .error (.refused e) := by
  have hperform := call.perform_eq hfits
  unfold step
  split at hperform
  · obtain ⟨t', ht'⟩ := hperform
    rw [ht']
  · rw [hperform]

theorem step_of_refused {call : Call k} (h : (t.step call).1 ≠ .ok ()) : (t.step call).2 = t := by
  unfold step at h ⊢
  split
  · next ht' => exact absurd (by rw [ht']) h
  · rfl

/-- A call writes to no cell but its own. -/
theorem step_changes (call : Call k) : t.Changes (t.step call).2 {call.cell} := by
  unfold step
  split
  · next h => exact (Call.of_perform h).2.1
  · exact (Changes.refl t).mono (Set.empty_subset _)

/-! ### Runs -/

theorem run_concat (t : Table k) (calls : List (Call k)) (call : Call k) :
    t.run (calls ++ [call]) = ((t.run calls).step call).2 := List.foldl_append

/-- The table stores the values that some calls have written, in the shape that they ask for. -/
structure Stored (d : Description) (calls : List (Call k)) (t : Table k) : Prop where
  /-- The shape is that of the description, but for selector columns. -/
  description_eq : t.description = d.widened (selectorsOf calls)
  /-- A cell holds what was written last. -/
  cellAt_eq (c : Cell) : t.cellAt c = lastWritten calls c

namespace Stored

variable {calls : List (Call k)}

theorem zero (d : Description) : Stored d [] (zero k d) where
  description_eq := (Description.widened_zero d).symm
  cellAt_eq c := by
    show ((Table.zero k d).regions.get c.kind).entry c.index c.row = 0
    cases c.kind <;> exact Matrix.entry_zero _ _ _ _

theorem rows_eq (h : Stored d calls t) : t.rows = d.rows :=
  congrArg Description.rows h.description_eq

/-- **One call** adds its value to what the table stores, if it is not refused. -/
theorem perform {call : Call k} (h : Stored d calls t) (ht' : call.perform t = .ok t') :
    Stored d (calls ++ [call]) t' := by
  obtain ⟨hdescription, hchanges, hcell⟩ := Call.of_perform ht'
  refine ⟨?_, fun c => ?_⟩
  · rw [hdescription, h.description_eq, Description.widened_widened, selectorsOf_concat]
  · rw [lastWritten_concat]
    split
    · next hc => exact hc ▸ hcell
    · next hc => rw [hchanges.frame c fun hmem => hc hmem.symm, h.cellAt_eq]

/-- **Any calls** add the values of those that are not refused. -/
theorem run (h : Stored d calls t) (calls' : List (Call k)) :
    Stored d (calls ++ t.accepted calls') (t.run calls') := by
  -- The calls are made from the front, and what they write is added at the end.
  induction calls' generalizing t calls with
  | nil => rwa [accepted, List.append_nil]
  | cons call calls' ih =>
      show Stored d _ ((t.step call).2.run calls')
      unfold accepted step
      split
      · next t' ht' =>
          rw [List.append_cons]
          exact ih (h.perform ht')
      · exact ih h

end Stored

/-! ### Columns -/

/-- A column has the cells that are read one by one. -/
theorem exists_column {kind : ColumnKind} {index : Nat} (h : index < t.width kind) :
    ∃ cells, t.column kind index = .ok cells ∧ cells.length = t.rows ∧
      ∀ row a, cells[row]? = some a → t.tryGet kind index row = .ok a := by
  have hwidth : (t.regions.get kind).width ≠ 0 := (Nat.zero_lt_of_lt h).ne'
  refine ⟨_, (if_pos h).trans (if_neg hwidth), length_stride h, fun row a ha => ?_⟩
  rw [getElem?_stride h] at ha
  split at ha
  · next hrow =>
      rw [tryGet_eq ⟨h, hrow⟩]
      exact congrArg _ (Option.some.inj ha)
  · cases ha

/-- The list of columns has the columns that are read one by one. -/
theorem exists_columns {kind : ColumnKind} (h : t.width kind * Count.listBytes < 2 ^ 63) :
    ∃ columns, t.columns kind = .ok columns ∧ columns.length = t.width kind ∧
      ∀ index cells, columns[index]? = some cells → t.column kind index = .ok cells := by
  refine ⟨(t.regions.get kind).columnList, ?_, ?_, ?_⟩
  · rw [columns, Matrix.columns]
    exact bind_eq_ok.mpr ⟨_, Count.entries_eq_ok.mpr ⟨h, rfl⟩, rfl⟩
  · rw [Matrix.columnList, List.length_map, List.length_range]
    rfl
  · intro index cells hcells
    rw [Matrix.columnList, List.getElem?_map, Option.map_eq_some_iff] at hcells
    obtain ⟨i, hi, rfl⟩ := hcells
    obtain ⟨hlt, rfl⟩ := List.getElem?_eq_some_iff.mp hi
    rw [List.length_range] at hlt
    rw [List.getElem_range]
    exact (if_pos hlt).trans (if_neg (Nat.zero_lt_of_lt hlt).ne')

/-! ### New tables -/

theorem new_eq (h : d.Fits k) : new k d = .ok (zero k d) :=
  have hcells (kind : ColumnKind) := Matrix.cellsOf_eq (h kind)
  bind_eq_ok.mpr ⟨⟨_, _, _, _⟩, bind_eq_ok.mpr ⟨_, hcells .witness, bind_eq_ok.mpr ⟨_,
    hcells .publicInput, bind_eq_ok.mpr ⟨_, hcells .constant, bind_eq_ok.mpr ⟨_,
      hcells .selector, rfl⟩⟩⟩⟩, rfl⟩

/-- **A new table is a store.**  After any calls it has the shape of its description, with the
selector columns up to the largest selector that was enabled; a cell that it has reads as the value
that was written there last, or zero, and any other is refused; the columns, and the lists of them,
are made of the cells that are read.  The next call is answered by what the table has room for,
leaves the table as it is if it is refused, and changes no cell but its own. -/
theorem new_stores (d : Description) (hfits : d.Fits k) :
    ∃ t, new k d = .ok t ∧ ∀ calls : List (Call k),
      (t.run calls).description = d.widened (selectorsOf (t.accepted calls)) ∧
      (∀ c : Cell, (t.run calls).tryGet c.kind c.index c.row =
        match (t.run calls).description.missing c with
        | none => .ok (lastWritten (t.accepted calls) c)
        | some e => .error e) ∧
      (∀ kind index, index < (t.run calls).width kind →
        ∃ cells, (t.run calls).column kind index = .ok cells ∧ cells.length = d.rows ∧
          ∀ row a, cells[row]? = some a → (t.run calls).tryGet kind index row = .ok a) ∧
      (∀ kind, (t.run calls).width kind * Count.listBytes < 2 ^ 63 →
        ∃ columns, (t.run calls).columns kind = .ok columns ∧
          columns.length = (t.run calls).width kind ∧
          ∀ index cells, columns[index]? = some cells →
            (t.run calls).column kind index = .ok cells) ∧
      ∀ call : Call k, call.Fits d.rows →
        ((t.run calls).step call).1 =
          (match call.refusal (t.run calls).description with
          | none => .ok ()
          | some e => .error (.refused e)) ∧
        (((t.run calls).step call).1 ≠ .ok () → t.run (calls ++ [call]) = t.run calls) ∧
        ∀ c : Cell, c ≠ call.cell → (t.run calls).Has c →
          (t.run (calls ++ [call])).tryGet c.kind c.index c.row =
            (t.run calls).tryGet c.kind c.index c.row := by
  refine ⟨zero k d, new_eq hfits, fun calls => ?_⟩
  have hstored : Stored d ((zero k d).accepted calls) ((zero k d).run calls) :=
    (Stored.zero d).run calls
  have hrows : ((zero k d).run calls).rows = d.rows := hstored.rows_eq
  refine ⟨hstored.description_eq, fun c => ?_, fun kind index hindex => ?_,
    fun kind => exists_columns, fun call hcall => ⟨step_fst call (hrows ▸ hcall), ?_, ?_⟩⟩
  · rw [tryGet_eq_missing, hstored.cellAt_eq]
  · rw [← hrows]
    exact exists_column hindex
  · intro hrefused
    rw [run_concat]
    exact step_of_refused hrefused
  · intro c hc hhas
    have hchanges := ((zero k d).run calls).step_changes call
    rw [run_concat, tryGet_eq (hchanges.has hhas), tryGet_eq hhas, hchanges.frame c hc]

/-- Enabling the third selector keeps what is in the columns before it, and a fifth row is refused.
-/
theorem new_stores_growing :
    ∃ t, new .goldilocks ⟨⟨1, 0, 0, 1⟩, 4, 4⟩ = .ok t ∧
      let calls := [.enable 0 1, .set ⟨.selector, 0, 2⟩ 5, .enable 2 3]
      (t.run calls).description = ⟨⟨1, 0, 0, 3⟩, 4, 4⟩ ∧
      (t.run calls).tryGet .selector 0 2 = .ok 5 ∧ (t.run calls).tryGet .selector 2 3 = .ok 1 ∧
      ((t.run calls).step (.enable 7 4)).1 = .error (.refused (.rowOutOfRange 4 4)) := by
  obtain ⟨t, ht, hstores⟩ := new_stores (k := .goldilocks) ⟨⟨1, 0, 0, 1⟩, 4, 4⟩
    (fun kind => by cases kind <;> decide)
  obtain rfl : zero _ _ = t := Except.ok.inj (Eq.trans (by rfl) ht)
  obtain ⟨hshape, hcells, -, -, hanswer⟩ :=
    hstores [.enable 0 1, .set ⟨.selector, 0, 2⟩ 5, .enable 2 3]
  refine ⟨_, ht, hshape.trans rfl, (hcells ⟨.selector, 0, 2⟩).trans rfl,
    (hcells ⟨.selector, 2, 3⟩).trans rfl, (hanswer (.enable 7 4) (by decide)).1.trans rfl⟩

end Table

end Plonkish
