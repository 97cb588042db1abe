import Mathlib.Order.Defs.Unbundled
import Plonkish.Proofs.Completeness
import Plonkish.Proofs.Inversion
import Plonkish.Proofs.Store

/-!
# Proofs — what an instance leaves alone

Steps may fail anywhere, and then leave what the steps before did.  `Build.Leaves R E x` says of the
steps `x`, run on any assembly, that they leave one related by `R` to it, and that their errors, if
any, are among `E`.  It is closed under the ways that steps are put together, for every preorder
`R`, so it is proved of a gadget from its single steps.

* `Assembly.Fills written` relates assemblies that differ in the cells `written` alone, and
  `Assembly.Extends written` allows new gates, copy constraints and selector columns besides.
* `Build.Cautious R input x`: what `x` leaves is related by `R`, and it is unchanged if `x` fails
  for its input.
* `Gadget.footprint`: writing the witness of an instance is confined to the rows and columns of the
  instance, whether it answers or fails, and it reads and checks its inputs before it writes
  anything. Adding the instance to the circuit is confined to the cells of its own selectors in
  these rows and of its constants.

Nothing is asked of the layout, the rows or the inputs: columns may be repeated or missing.
-/

namespace Plonkish

variable {k : BaseField}

/-! ### Assemblies that differ in some cells -/

namespace Assembly

/-- Another assembly has the same circuit, and a table of the same shape that differs in some cells
at most. -/
structure Fills (written : Set Cell) (a a' : Assembly k) : Prop where
  /-- The circuit is the same. -/
  circuit_eq : a'.circuit = a.circuit
  /-- The shape is the same. -/
  description_eq : a'.table.description = a.table.description
  /-- The other cells are the same. -/
  frame : ∀ c ∉ written, a'.table.cellAt c = a.table.cellAt c

/-- Another assembly may have new gates, copy constraints and selector columns, and differs in some
cells at most.  The other cells of new columns are zero, as are all cells that a table does not
have. -/
structure Extends (written : Set Cell) (a a' : Assembly k) : Prop where
  /-- Gates are appended. -/
  gates : a.circuit.gates.toList <+: a'.circuit.gates.toList
  /-- Copy constraints are appended. -/
  copies : a.circuit.copies.toList <+: a'.circuit.copies.toList
  /-- Selector columns are appended, up to one that has a cell among these. -/
  description : ∃ n, (n ≠ 0 → ∃ c ∈ written, c.kind = .selector ∧ n = c.index + 1) ∧
    a'.table.description = a.table.description.widened n
  /-- The other cells are the same. -/
  frame : ∀ c ∉ written, a'.table.cellAt c = a.table.cellAt c

variable {written : Set Cell} {a a' : Assembly k}

instance : IsPreorder (Assembly k) (Fills written) where
  refl _ := ⟨rfl, rfl, fun _ _ => rfl⟩
  trans _ _ _ h h' := ⟨h'.circuit_eq.trans h.circuit_eq, h'.description_eq.trans h.description_eq,
    fun c hc => (h'.frame c hc).trans (h.frame c hc)⟩

/-- New gates and copy constraints leave the table as it is. -/
theorem extends_circuit {circuit : Circuit k}
    (hgates : a.circuit.gates.toList <+: circuit.gates.toList)
    (hcopies : a.circuit.copies.toList <+: circuit.copies.toList) :
    Extends written a { a with circuit } :=
  ⟨hgates, hcopies, ⟨0, nofun, (Description.widened_zero _).symm⟩, fun _ _ => rfl⟩

instance : IsPreorder (Assembly k) (Extends written) where
  refl _ := extends_circuit List.prefix_rfl List.prefix_rfl
  trans _ _ _ h h' := by
    obtain ⟨m, hm, hdescription⟩ := h.description
    obtain ⟨n, hn, hdescription'⟩ := h'.description
    refine ⟨h.gates.trans h'.gates, h.copies.trans h'.copies, ⟨max m n, ?_, ?_⟩,
      fun c hc => (h'.frame c hc).trans (h.frame c hc)⟩
    · rcases max_choice m n with hmax | hmax
      · rwa [hmax]
      · rwa [hmax]
    · rw [hdescription', hdescription, Description.widened_widened]

end Assembly

/-! ### Steps that are confined, however they end -/

namespace Build

variable {α β : Type} {R : Assembly k → Assembly k → Prop} {E : GadgetError → Prop}

/-- Two programs in sequence: the second starts where the first ended, and does not start where it
failed. -/
theorem run_bind (x : Build k α) (f : α → Build k β) (a : Assembly k) :
    (x >>= f).run.run a =
      match x.run.run a with
      | (.ok r, a') => (f r).run.run a'
      | (.error e, a') => (.error e, a') := by
  rw [ExceptT.run_bind, StateT.run_bind]
  rcases x.run.run a with ⟨e | r, a'⟩ <;> rfl

theorem run_ofExcept (result : Except GadgetError α) (a : Assembly k) :
    (ofExcept result).run.run a = (result, a) := by
  cases result <;> rfl

/-- A preorder relates what two steps leave one after the other if it does so for each. -/
theorem rel_bind [IsPreorder (Assembly k) R] {x : Build k α} {f : α → Build k β}
    (hx : ∀ a, R a (x.run.run a).2) (hf : ∀ r a, R a ((f r).run.run a).2) (a : Assembly k) :
    R a ((x >>= f).run.run a).2 := by
  have hrel := hx a
  rw [run_bind]
  rcases hrun : x.run.run a with ⟨e | r, a'⟩
  · rwa [hrun] at hrel
  · rw [hrun] at hrel
    exact IsTrans.trans a a' _ hrel (hf r a')

/-- Whatever the steps are run on and however they end, they leave an assembly that is related to
it, and fail with no other errors. -/
structure Leaves (R : Assembly k → Assembly k → Prop) (E : GadgetError → Prop) (x : Build k α) :
    Prop where
  /-- What is left is related to what there was. -/
  rel (a : Assembly k) : R a (x.run.run a).2
  /-- The errors are known. -/
  error {a : Assembly k} {e : GadgetError} : (x.run.run a).1 = .error e → E e

namespace Leaves

variable [IsPreorder (Assembly k) R]

/-- A program that does nothing leaves the assembly as it was. -/
theorem pure (r : α) : Leaves R E (Pure.pure r : Build k α) :=
  ⟨fun a => refl a, nofun⟩

/-- A failure leaves the assembly as it was. -/
theorem throw {e : GadgetError} (h : E e) : Leaves R E (MonadExcept.throw e : Build k α) :=
  ⟨fun a => refl a, fun he => Except.error.inj he ▸ h⟩

/-- What two programs in sequence do is within the relation when what each does is, since the
relation is transitive. -/
theorem bind {x : Build k α} {f : α → Build k β} (hx : Leaves R E x) (hf : ∀ r, Leaves R E (f r)) :
    Leaves R E (x >>= f) := by
  refine ⟨rel_bind hx.rel fun r => (hf r).rel, fun {a e} he => ?_⟩
  rw [run_bind] at he
  rcases hrun : x.run.run a with ⟨e' | r, a'⟩
  · rw [hrun] at he
    obtain rfl := Except.error.inj he
    exact hx.error (congrArg Prod.fst hrun)
  · rw [hrun] at he
    exact (hf r).error he

theorem discard {x : Build k α} (hx : Leaves R E x) : Leaves R E (Functor.discard x) := by
  show Leaves R E ((fun _ => ()) <$> x)
  rw [map_eq_pure_bind]
  exact hx.bind fun _ => .pure ()

/-- What a run over a list does is within the relation. By induction on the list. -/
theorem mapM {f : α → Build k β} {l : List α} (h : ∀ x ∈ l, Leaves R E (f x)) :
    Leaves R E (l.mapM f) := by
  induction l with
  | nil => exact .pure []
  | cons x l ih =>
      rw [List.mapM_cons]
      exact (h x List.mem_cons_self).bind fun _ =>
        (ih fun y hy => h y (List.mem_cons_of_mem _ hy)).bind fun _ => .pure _

theorem forM {f : α → Build k Unit} {l : List α} (h : ∀ x ∈ l, Leaves R E (f x)) :
    Leaves R E (l.forM f) := by
  induction l with
  | nil => exact .pure ()
  | cons x l ih =>
      exact (h x List.mem_cons_self).bind fun _ => ih fun y hy => h y (List.mem_cons_of_mem _ hy)

/-- What a run with an accumulator does is within the relation, whatever it starts from. -/
theorem foldlM {f : β → α → Build k β} {l : List α} (h : ∀ s, ∀ x ∈ l, Leaves R E (f s x)) (s : β) :
    Leaves R E (l.foldlM f s) := by
  induction l generalizing s with
  | nil => exact .pure s
  | cons x l ih =>
      rw [List.foldlM_cons]
      exact (h s x List.mem_cons_self).bind fun _ =>
        ih (fun s y hy => h s y (List.mem_cons_of_mem _ hy)) _

theorem ofExcept {result : Except GadgetError α} (h : ∀ e, result = .error e → E e) :
    Leaves R E (ofExcept (k := k) result) := by
  cases result with
  | ok r => exact .pure r
  | error e => exact .throw (h e rfl)

/-- Steps that first look at something that they do not depend on otherwise. -/
theorem ofFault_bind {result : Except Fault α} {f : α → Build k β} (hfault : ∀ e, E (.fault e))
    (hf : ∀ r, result = .ok r → Leaves R E (f r)) : Leaves R E (Build.ofFault result >>= f) := by
  cases result with
  | ok r => exact hf r rfl
  | error e => exact Leaves.throw (hfault e)

/-- A change of the table is within the relation when the change of the assembly that it makes is.
-/
theorem onTable {change : Table k → Except GadgetError (Table k)}
    (hrel : ∀ a t, change a.table = .ok t → R a { a with table := t })
    (herror : ∀ t e, change t = .error e → E e) : Leaves R E (onTable change) := by
  have hrun : ∀ a, ((Build.onTable change).run.run a) =
      match change a.table with
      | .ok t => (.ok (), { a with table := t })
      | .error e => (.error e, a) := by
    intro a
    show (Build.ofExcept (change a.table) >>= fun t => _).run.run a = _
    rw [run_bind, run_ofExcept]
    cases change a.table <;> rfl
  constructor
  · intro a
    rw [hrun]
    split
    · next t ht => exact hrel a t ht
    · exact refl a
  · intro a e he
    rw [hrun] at he
    split at he
    · cases he
    · next e' he' => exact Except.error.inj he ▸ herror _ _ he'

theorem ofFault {result : Except Fault α} (hfault : ∀ e, E (.fault e)) :
    Leaves R E (Build.ofFault (k := k) result) := by
  cases result with
  | ok r => exact .pure r
  | error e => exact .throw (hfault e)

end Leaves

/-! ### Reading -/

/-- Reading changes nothing. -/
theorem leaves_read (v : Variable) : Leaves Eq (fun _ => True) (read (k := k) v) :=
  Leaves.bind ⟨fun _ => rfl, nofun⟩ fun _ => .ofExcept fun _ _ => trivial

/-- What a program reads is what the table has at the variable. -/
theorem tryValue_of_runs_read {v : Variable} {a a' : Assembly k} {x : Felt k}
    (h : Runs (read v) a x a') : a.table.tryValue v = .ok x := by
  rw [Build.read, runs_get_bind_iff, runs_ofExcept_iff] at h
  exact mapError_eq_ok.mp h.1

/-- Steps for each of some entries, none of which changes anything, answer only if all of them do.
-/
theorem exists_of_runs_mapM {f : α → Build k β} {l : List α}
    (h : ∀ x ∈ l, Leaves Eq (fun _ => True) (f x)) {a a' : Assembly k} {rs : List β}
    (hrun : Runs (l.mapM f) a rs a') : ∀ x ∈ l, ∃ r, Runs (f x) a r a := by
  induction l generalizing rs a' with
  | nil => exact nofun
  | cons x l ih =>
      rw [List.forall_mem_cons] at h
      rw [List.mapM_cons, runs_bind_iff] at hrun
      obtain ⟨r, b, hfirst, hrun⟩ := hrun
      obtain ⟨rs', c, hothers, -⟩ := runs_bind_iff.mp hrun
      obtain rfl : a = b := (h.1.rel a).trans (congrArg Prod.snd hfirst)
      exact List.forall_mem_cons.mpr ⟨⟨r, hfirst⟩, ih h.2 hothers⟩

/-! ### Steps that look before they write -/

end Build

/-- The error is about the input of a gadget. -/
def GadgetError.OfInput (e : GadgetError) : Prop := ∃ gadget problem, e = .input gadget problem

namespace Build

variable {α β : Type} {R : Assembly k → Assembly k → Prop} {input : List Variable}

/-- The steps leave an assembly that is related to the one they are run on, which is the same one if
they fail because of the input or if some input cannot be read; in the latter case they do fail. -/
structure Cautious (R : Assembly k → Assembly k → Prop) (input : List Variable) (x : Build k α) :
    Prop where
  /-- What is left is related to what there was. -/
  rel (a : Assembly k) : R a (x.run.run a).2
  /-- Nothing is changed if the input is refused. -/
  unchanged {a : Assembly k} {e : GadgetError} :
    (x.run.run a).1 = .error e → e.OfInput → (x.run.run a).2 = a
  /-- Without the values of all inputs, the steps fail and nothing is changed. -/
  unread {a : Assembly k} {v : Variable} : v ∈ input → (∀ y, a.table.tryValue v ≠ .ok y) →
    ∃ e, Fails x a e a

namespace Cautious

/-- A program that never fails over its input is cautious, whatever input it is given. -/
theorem of_leaves {x : Build k α} (h : Leaves R (fun e => ¬ e.OfInput) x) : Cautious R [] x :=
  ⟨h.rel, fun he hinput => absurd hinput (h.error he), nofun⟩

variable [IsPreorder (Assembly k) R]

/-- Steps that change nothing may come first.  The inputs that they do not read have to be read
later. -/
theorem after (input' : List Variable) {x : Build k α} {f : α → Build k β}
    (hx : Leaves Eq (fun _ => True) x)
    (hread : ∀ {a r a'}, Runs x a r a' → ∀ v ∈ input, v ∈ input' ∨ ∃ y, a.table.tryValue v = .ok y)
    (hf : ∀ r, Cautious R input' (f r)) : Cautious R input (x >>= f) := by
  have hsame : ∀ {a r a'}, x.run.run a = (r, a') → a' = a := fun {a r a'} h =>
    (congrArg Prod.snd h).symm.trans (hx.rel a).symm
  refine ⟨fun a => ?_, fun {a e} he hinput => ?_, fun {a v} hv hunread => ?_⟩
  · rw [run_bind]
    rcases hrun : x.run.run a with ⟨e | r, a'⟩
    · obtain rfl := hsame hrun
      exact refl a'
    · obtain rfl := hsame hrun
      exact (hf r).rel a'
  · rw [run_bind] at he ⊢
    rcases hrun : x.run.run a with ⟨e' | r, a'⟩
    · exact hsame hrun
    · obtain rfl := hsame hrun
      rw [hrun] at he
      exact (hf r).unchanged he hinput
  · rcases hrun : x.run.run a with ⟨e | r, a'⟩
    · obtain rfl := hsame hrun
      exact ⟨e, Fails.bind hrun⟩
    · obtain rfl := hsame hrun
      rcases hread hrun v hv with hlater | ⟨y, hy⟩
      · obtain ⟨e, hfails⟩ := (hf r).unread hlater hunread
        exact ⟨e, Runs.bind_fails hrun hfails⟩
      · exact absurd hy (hunread y)

/-- Steps that are not about the input may come later. -/
theorem bind {x : Build k α} {f : α → Build k β} (hx : Cautious R input x)
    (hf : ∀ r, Leaves R (fun e => ¬ e.OfInput) (f r)) : Cautious R input (x >>= f) := by
  refine ⟨rel_bind hx.rel fun r => (hf r).rel, fun {a e} he hinput => ?_, fun hv hunread => ?_⟩
  · rw [run_bind] at he ⊢
    rcases hrun : x.run.run a with ⟨e' | r, a'⟩
    · rw [hrun] at he
      obtain rfl := Except.error.inj he
      exact (congrArg Prod.snd hrun).symm.trans (hx.unchanged (congrArg Prod.fst hrun) hinput)
    · rw [hrun] at he
      exact absurd hinput ((hf r).error he)
  · obtain ⟨e, hfails⟩ := hx.unread hv hunread
    exact ⟨e, hfails.bind⟩

end Cautious

end Build

/-! ### Writing the witness -/

theorem GadgetError.not_ofInput_refused (e : TableError) : ¬ (refused e).OfInput := nofun

theorem GadgetError.not_ofInput_fault (e : Fault) : ¬ (fault e).OfInput := nofun

section Witness

variable {l : Layout} {start r rows : Nat}

open Build (Leaves Cautious)

/-- Writing a cell in a row of an instance, if the layout has the column. -/
theorem Build.leaves_writeWitness (hr : r < rows) (i : Nat) (x : Felt k) :
    Leaves (Assembly.Fills (l.block start rows l.witness.length)) (fun e => ¬ e.OfInput)
      (writeWitness l i (start + r) x) := by
  refine .ofFault_bind GadgetError.not_ofInput_fault fun column hcolumn => ?_
  obtain ⟨hi, rfl⟩ := Layout.witnessAt_eq_ok.mp hcolumn
  refine .onTable (fun a t ht => ?_) (fun t e he => ?_)
  · have hset := mapError_eq_ok.mp ht
    exact ⟨rfl, Table.description_of_trySet hset, fun c hc =>
      (Table.changes_of_trySet hset).1.frame c fun hsame => hc ⟨r, hr, i, hi, hsame⟩⟩
  · obtain ⟨e, -, rfl⟩ := mapError_eq_error.mp he
    exact GadgetError.not_ofInput_refused e

/-- A write of a row fills cells of the block only, and fails over its input in no case. -/
theorem Build.leaves_writeRow (hr : r < rows) (i : Nat) (cells : List (Felt k)) :
    Leaves (Assembly.Fills (l.block start rows l.witness.length)) (fun e => ¬ e.OfInput)
      (writeRow l (start + r) i cells) := by
  induction cells generalizing i with
  | nil => exact .pure ()
  | cons x cells ih => exact (leaves_writeWitness hr i x).bind fun _ => ih (i + 1)

/-- Writing the row of a gadget comes after reading all inputs and computing all cells. -/
theorem RowKind.cautious_assign (kind : RowKind k) (input : List Variable) :
    Cautious (Assembly.Fills (l.block start 1 l.witness.length)) input
      (kind.assign l input start) := by
  have hreads : ∀ v ∈ input, Leaves Eq (fun _ => True) (Build.read (k := k) v) := fun v _ =>
    Build.leaves_read v
  have hwrites : Cautious (Assembly.Fills (l.block start 1 l.witness.length)) input (do
      let values ← input.mapM Build.read
      let cells ← Build.ofExcept (kind.cells values)
      Build.writeRow l start 0 cells) := by
    refine .after [] (.mapM hreads) (fun hrun v hv => .inr ?_) fun values => ?_
    · obtain ⟨x, hx⟩ := Build.exists_of_runs_mapM hreads hrun v hv
      exact ⟨x, Build.tryValue_of_runs_read hx⟩
    · refine .after [] (.ofExcept fun _ _ => trivial) nofun fun cells => ?_
      exact .of_leaves (Build.leaves_writeRow (r := 0) Nat.one_pos 0 cells)
  rw [assign]
  split
  · exact .after input (.throw trivial) (fun _ v hv => .inl hv) fun _ => hwrites
  · exact hwrites

namespace BitRows

variable (b : BitRows)

/-- The write of a row of bits fills cells of the block only. -/
theorem leaves_assignBits (hr : r < b.rows) (j : Nat) (s : Felt k) (bits : List Bool) :
    Leaves (Assembly.Fills (b.layout.block start b.rows b.layout.witness.length))
      (fun e => ¬ e.OfInput) (b.assignBits (start + r) j s bits) := by
  induction bits generalizing j s with
  | nil => exact .pure s
  | cons bit bits ih => exact (Build.leaves_writeWitness hr _ _).bind fun _ => ih _ _

/-- Writing the rows of some bits, up to the first that cannot be written. -/
theorem leaves_assign (bits : List Bool) (start : Nat) :
    Leaves (Assembly.Fills (b.layout.block start b.rows b.layout.witness.length))
      (fun e => ¬ e.OfInput) (b.assign (k := k) bits start) := by
  refine .foldlM (fun s r hr => ?_) 0
  refine .ofFault_bind GadgetError.not_ofInput_fault fun row hrow => ?_
  obtain ⟨-, rfl⟩ := Count.check_eq_ok.mp hrow
  have hr' : r < b.rows := List.mem_range.mp hr
  exact (Build.leaves_writeWitness hr' _ _).bind fun _ =>
    (b.leaves_assignBits hr' _ _ _).bind fun _ =>
      (Build.leaves_writeWitness hr' _ _).bind fun _ => .pure _

end BitRows

namespace Gadget

theorem leaves_readOne (name : String) (input : List Variable) :
    Leaves Eq (fun _ => True) (readOne (k := k) name input) := by
  unfold readOne
  split
  · exact Build.leaves_read _
  · exact .throw trivial

/-- Writing the witness of an instance comes after reading and checking the inputs. -/
theorem cautious_assignCells (g : Gadget k) (input : List Variable) (start : Nat) :
    Cautious (Assembly.Fills (g.layout.block start g.rows g.layout.witness.length)) input
      (g.assignCells input start) := by
  cases g with
  | row kind l => exact kind.cautious_assign input
  | bits role b =>
      cases role with
      | composition order =>
          have hreads : ∀ v ∈ input, Leaves Eq (fun _ => True)
              (do Build.ofExcept (b.ofInput (k := k) (← Build.read v))) := fun v _ =>
            (Build.leaves_read v).bind fun _ => .ofExcept fun _ _ => trivial
          have hwrites : Cautious (Assembly.Fills
              (b.layout.block start b.rows b.layout.witness.length)) input (do
                let values ← input.mapM fun v => do Build.ofExcept (b.ofInput (← Build.read v))
                discard (b.assign (k := k) (order.arrange values) start)) := by
            refine .after [] (.mapM hreads) (fun hrun v hv => .inr ?_) fun values =>
              .of_leaves (b.leaves_assign _ _).discard
            obtain ⟨bit, hbit⟩ := Build.exists_of_runs_mapM hreads hrun v hv
            obtain ⟨x, _, hx, -⟩ := Build.runs_bind_iff.mp hbit
            exact ⟨x, Build.tryValue_of_runs_read hx⟩
          rw [assignCells]
          split
          · exact .after input (.throw trivial) (fun _ v hv => .inl hv) fun _ => hwrites
          · exact hwrites
      | decomposition _ | rangeCheck =>
          refine .after [] (leaves_readOne b.name input) (fun hrun v hv => .inr ?_) fun value =>
            .after [] (.ofExcept fun _ _ => trivial) (fun _ _ hv => absurd hv List.not_mem_nil)
              fun bits => .of_leaves (b.leaves_assign _ _).discard
          unfold readOne at hrun
          split at hrun
          · obtain rfl := List.mem_singleton.mp hv
            exact ⟨_, Build.tryValue_of_runs_read hrun⟩
          · exact absurd hrun Build.not_runs_throw

/-- Filling a gadget's rows writes to its block only, and writes nothing where it refuses its input.
-/
theorem cautious_assign (g : Gadget k) (input : List Variable) (start : Nat) :
    Cautious (Assembly.Fills (g.layout.block start g.rows g.layout.witness.length)) input
      (g.assign input start) :=
  (g.cautious_assignCells input start).bind fun _ => .ofFault GadgetError.not_ofInput_fault

end Gadget

end Witness

/-! ### Adding an instance to the circuit -/

namespace Circuit

/-- Adding a gate keeps the gates there are. -/
theorem gates_prefix_addGate (c : Circuit k) (constraints : List (Expr k)) :
    c.gates.toList <+: (c.addGate constraints).2.gates.toList := by
  unfold addGate
  split
  · exact List.prefix_rfl
  · rw [Array.toList_push]
    exact List.prefix_append _ _

/-- Adding a gate adds no copy constraint. -/
theorem copies_addGate (c : Circuit k) (constraints : List (Expr k)) :
    (c.addGate constraints).2.copies = c.copies := by
  unfold addGate
  split <;> rfl

theorem gates_prefix_addGates (c : Circuit k) (new : List (List (Expr k))) :
    c.gates.toList <+: (c.addGates new).2.gates.toList := by
  induction new generalizing c with
  | nil => exact List.prefix_rfl
  | cons constraints rest ih => exact (c.gates_prefix_addGate constraints).trans (ih _)

theorem copies_addGates (c : Circuit k) (new : List (List (Expr k))) :
    (c.addGates new).2.copies = c.copies := by
  induction new generalizing c with
  | nil => rfl
  | cons constraints rest ih => exact (ih _).trans (c.copies_addGate constraints)

end Circuit

namespace Assembly

variable {written : Set Cell}

/-- Adding gates writes no cell. -/
theorem extends_addGates (a : Assembly k) (new : List (List (Expr k))) :
    Extends written a ⟨(a.circuit.addGates new).2, a.table⟩ :=
  extends_circuit (a.circuit.gates_prefix_addGates new)
    (a.circuit.copies_addGates new ▸ List.prefix_rfl)

/-- Switching a selector on writes its cell only. -/
theorem extends_tryEnable {a : Assembly k} {selector row : Nat} {t : Table k}
    (hcell : ⟨.selector, selector, row⟩ ∈ written) (h : a.table.tryEnable selector row = .ok t) :
    Extends written a { a with table := t } :=
  ⟨List.prefix_rfl, List.prefix_rfl,
    ⟨selector + 1, fun _ => ⟨_, hcell, rfl, rfl⟩, Table.description_of_tryEnable h⟩,
    fun c hc => (Table.changes_of_tryEnable h).2.1.frame c fun hsame => hc (hsame ▸ hcell)⟩

/-- Enabling a selector on some rows, up to the first that is refused. -/
theorem extends_enableEach {selector : Nat} {rows : List Nat}
    (hcells : ∀ row ∈ rows, ⟨.selector, selector, row⟩ ∈ written) (a : Assembly k) :
    Extends written a { a with table := (Table.enableEach selector rows a.table).1 } := by
  induction rows generalizing a with
  | nil => exact refl a
  | cons row rows ih =>
      rw [List.forall_mem_cons] at hcells
      rw [Table.enableEach]
      split
      · next t ht =>
          exact IsTrans.trans a _ _ (extends_tryEnable hcells.1 ht)
            (ih hcells.2 { a with table := t })
      · exact refl a

end Assembly

theorem Table.le_of_mem_rangeRows {rows first last row : Nat}
    (h : row ∈ rangeRows rows first last 1) : first ≤ row ∧ row ≤ last := by
  rw [rangeRows, max_self, Nat.div_one, List.mem_range'_1] at h
  refine ⟨h.1, ?_⟩
  have hlt := h.2
  split at hlt <;> omega

section Circuit

open Assembly (Extends)
open Build (Leaves)

variable {written : Set Cell}

namespace Build

/-- The step that switches a selector on writes its cell only. -/
theorem leaves_enable {selector row : Nat} (hcell : ⟨.selector, selector, row⟩ ∈ written) :
    Leaves (Extends written) (fun _ => True) (enable (k := k) selector row) :=
  .onTable (fun _ _ ht => Assembly.extends_tryEnable hcell (mapError_eq_ok.mp ht)) fun _ _ _ =>
    trivial

/-- A run of rows switches on the cells of those rows only. -/
theorem leaves_enableRange {selector first last : Nat}
    (hcells : ∀ row, first ≤ row → row ≤ last → ⟨.selector, selector, row⟩ ∈ written) :
    Leaves (Extends written) (fun _ => True) (enableRange (k := k) selector first last) := by
  refine ⟨fun a => ?_, fun _ => trivial⟩
  have hrun : ((enableRange selector first last).run.run a).2 =
      { a with table := (a.table.enableRange selector first last 1).1 } := by
    show ((Build.ofExcept _).run.run _).2 = _
    rw [run_ofExcept]
    rfl
  rw [hrun]
  refine Assembly.extends_enableEach (fun row hrow => ?_) a
  obtain ⟨hfirst, hlast⟩ := Table.le_of_mem_rangeRows hrow
  exact hcells row hfirst hlast

/-- The write of a constant writes to its own cell only. -/
theorem leaves_writeConstant {l : Layout} {i row : Nat} {x : Felt k}
    (hcell : ⟨.constant, (l.constant.getD i 0).toNat, row⟩ ∈ written) :
    Leaves (Extends written) (fun _ => True) (writeConstant l i row x) := by
  refine .ofFault_bind (fun _ => trivial) fun cell hnamed => ?_
  obtain ⟨column, hcolumn, habsolute⟩ := bind_eq_ok.mp hnamed
  obtain ⟨-, rfl⟩ := Layout.columnAt_eq_ok.mp hcolumn
  obtain ⟨-, rfl⟩ := Variable.absolute_eq_ok.mp habsolute
  refine .onTable (fun a t ht => ?_) fun _ _ _ => trivial
  have hset := mapError_eq_ok.mp ht
  refine ⟨List.prefix_rfl, List.prefix_rfl, ⟨0, nofun, ?_⟩, fun c hc => ?_⟩
  · exact (Table.description_of_trySet hset).trans (Description.widened_zero _).symm
  · exact (Table.changes_of_trySet hset).1.frame c fun hsame => hc (hsame ▸ hcell)

/-- A copy constraint writes no cell. -/
theorem leaves_addCopy (v w : Variable) :
    Leaves (Extends written) (fun _ => True) (addCopy (k := k) v w) := by
  refine ⟨fun a => ?_, fun _ => trivial⟩
  have hrun : (addCopy v w).run.run a =
      match a.circuit.addCopy v w with
      | .ok circuit => (.ok (), { a with circuit })
      | .error e => (.error (.fault e), a) := by
    show (Build.ofFault (a.circuit.addCopy v w) >>= fun circuit => _).run.run a = _
    rw [Build.ofFault, run_bind, run_ofExcept]
    cases a.circuit.addCopy v w <;> rfl
  rw [hrun]
  unfold Circuit.addCopy
  split
  · next hadd =>
      split at hadd
      · cases hadd
      · obtain rfl := Except.ok.inj hadd
        refine Assembly.extends_circuit List.prefix_rfl ?_
        rw [Array.toList_push]
        exact List.prefix_append _ _
  · exact refl a

end Build

theorem RowKind.leaves_copyInputs (l : Layout) (row i : Nat) (input : List Variable) :
    Leaves (Extends written) (fun _ => True) (copyInputs (k := k) l row i input) := by
  induction input generalizing i with
  | nil => exact .pure ()
  | cons v input ih =>
      exact .ofFault_bind (fun _ => trivial) fun cell _ =>
        (Build.leaves_addCopy v cell).bind fun _ => ih (i + 1)

namespace Gadget

variable {start : Nat}

/-- Enabling the gates of a gadget in the rows of an instance. -/
theorem leaves_enable (g : Gadget k) (c : Circuit k)
    (hcells : g.selectorCells (c.addGates g.constraintLists).1 start ⊆ written) :
    Leaves (Extends written) (fun _ => True) (g.enable (c.addGates g.constraintLists).1 start) := by
  cases g with
  | row kind l =>
      exact .forM fun s hs => Build.leaves_enable (hcells ⟨0, Nat.one_pos, s,
        congrArg some (List.mem_singleton.mp hs).symm, rfl⟩)
  | bits role b =>
      show Leaves _ _ (b.enable _ start)
      unfold BitRows.enable
      split
      · exact .throw trivial
      · next first others hselectors =>
          rw [hselectors] at hcells
          refine (Build.leaves_enable (hcells ⟨0, b.rows_pos, first, rfl, rfl⟩)).bind fun _ => ?_
          cases others with
          | nil => exact .pure ()
          | cons next rest =>
            refine .ofFault_bind (fun _ => trivial) fun second hsecond =>
              .ofFault_bind (fun _ => trivial) fun last hlast => ?_
            obtain ⟨-, rfl⟩ := Count.check_eq_ok.mp hsecond
            obtain ⟨-, rfl⟩ := Count.check_eq_ok.mp hlast
            refine Build.leaves_enableRange fun row hfirst hend => ?_
            obtain ⟨r, rfl⟩ := Nat.exists_eq_add_of_le hfirst
            have hpos := b.rows_pos
            have hr : r + 1 < b.rows := by omega
            refine hcells ⟨r + 1, hr, next, ?_, ?_⟩
            · rw [Nat.min_eq_right (Nat.le_add_left 1 r)]
              rfl
            · rw [Nat.add_assoc, Nat.add_comm 1]

/-- The constants of a gadget are written to its own cells only. -/
theorem leaves_assignConstants (g : Gadget k) (hcells : g.constantCells start ⊆ written) :
    Leaves (Extends written) (fun _ => True) (g.assignConstants start) := by
  unfold assignConstants
  split
  · exact Build.leaves_writeConstant (hcells rfl)
  · exact .pure ()

/-- The copy constraints of a gadget write no cell. -/
theorem leaves_copies (g : Gadget k) (input : List Variable) :
    Leaves (Extends written) (fun _ => True) (g.copies input start) := by
  cases g with
  | row kind l => exact RowKind.leaves_copyInputs _ _ _ _
  | bits role b =>
      cases role with
      | composition order =>
          exact .ofFault_bind (fun _ => trivial) fun _ _ => .forM fun c _ =>
            Build.leaves_addCopy c.1 c.2
      | decomposition _ | rangeCheck =>
          refine .ofFault_bind (fun _ => trivial) fun _ _ => ?_
          unfold copyOne
          split
          · exact Build.leaves_addCopy _ _
          · exact .throw trivial

/-- **The footprint of an instance**, on any assembly and however the calls end.  Writing its
witness touches witness cells in its own rows and columns only, and nothing at all where an input is
refused or cannot be read.  Adding it to the circuit touches the cells of the selectors of its gates
in its own rows and its constants, and appends gates, copy constraints and selector columns. -/
theorem footprint (g : Gadget k) (input : List Variable) (start : Nat) (a : Assembly k) :
    (Assembly.Fills (g.layout.block start g.rows g.layout.witness.length) a
        ((g.assign input start).run.run a).2 ∧
      (∀ e, ((g.assign input start).run.run a).1 = .error e → e.OfInput →
        ((g.assign input start).run.run a).2 = a) ∧
      ((∃ v ∈ input, ∀ y, a.table.tryValue v ≠ .ok y) →
        ∃ e, Build.Fails (g.assign input start) a e a)) ∧
    ∃ selectors a₁, Build.Runs g.gates a selectors a₁ ∧
      Assembly.Extends (g.selectorCells selectors start ∪ g.constantCells start) a
        ((g.build input start).run.run a).2 := by
  have hassign := g.cautious_assign input start
  refine ⟨⟨hassign.rel a, fun e => hassign.unchanged, fun ⟨v, hv, hunread⟩ =>
    hassign.unread hv hunread⟩, _, _, runs_gates g a, ?_⟩
  have hlater : Leaves (Extends (g.selectorCells (a.circuit.addGates g.constraintLists).1 start ∪
      g.constantCells start)) (fun _ => True) (do
        g.enable (a.circuit.addGates g.constraintLists).1 start
        g.assignConstants start
        g.copies input start
        Build.ofFault (g.result start)) :=
    (g.leaves_enable a.circuit Set.subset_union_left).bind fun _ =>
      (g.leaves_assignConstants Set.subset_union_right).bind fun _ =>
        (g.leaves_copies input).bind fun _ => .ofFault fun _ => trivial
  rw [build, Build.run_bind, runs_gates g a]
  exact IsTrans.trans a _ _ (a.extends_addGates g.constraintLists) (hlater.rel _)

-- A table of eight rows has no place for the second of two bits in row 8; the first one stays in
-- row 7.
example :
    let (result, a) := (Placement.bitsOfInput.gadget.assign Placement.bitsOfInput.input 7).run.run
      ⟨.empty, .twoInputs⟩
    result = .error (.refused (.rowOutOfRange 8 8)) ∧ a.table.cellAt ⟨.witness, 2, 7⟩ = 1 :=
      ⟨rfl, rfl⟩

end Gadget

end Circuit

end Plonkish
