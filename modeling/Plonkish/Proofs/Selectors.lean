import Plonkish.Proofs.Registry

/-!
# Proofs — what selectors name

A `Circuit.Call` is a request to a circuit: to register a gate, or a gate of a single constraint, or
to add a copy constraint.  `Circuit.run` is the circuit after some calls.

A circuit is `Indexed` if each gate stands at the place its selector names and the table of
selectors leads from a list of constraints to the gate with the same ones, exactly if there is one.
Then no two gates have the same constraints (`Indexed.eq_of_beq`).  A call keeps the circuit indexed
(`Indexed.step`) and the gates where they are (`Indexed.getElem?_step`), and so do any number of
calls.

* `exists_leads_run_iff`: after some calls, the constraints with a gate are those that one of the
  calls has registered.
* `selectors_index_gates`: what the calls on a new circuit leave behind and answer.

Constraints are compared with their digests, however these are formed (`SameConstraints`).
-/

namespace Plonkish

variable {k : BaseField}

/-- Two lists have the same constraints in the same order, by comparing them with their digests. -/
def SameConstraints (D : Digesting k) (l m : List (Expr k)) : Prop :=
  List.Forall₂ (fun a b => a.sameBy D b) l m

theorem sameConstraints_iff {D : Digesting k} {l m : List (Expr k)} :
    SameConstraints D l m ↔ l == m := by
  unfold SameConstraints
  simp only [Expr.sameBy_eq_same]
  exact beq_iff_forall₂.symm

namespace Circuit

/-! ### Calls -/

/-- A request to a circuit. -/
inductive Call (k : BaseField) where
  /-- Registers a gate. -/
  | gate (constraints : List (Expr k))
  /-- Registers the gate of a single constraint. -/
  | constraint (constraint : Expr k)
  /-- Adds a copy constraint. -/
  | copy (first second : Variable)

/-- The constraints that a call registers, if it registers a gate. -/
def Call.constraints? : Call k → Option (List (Expr k))
  | gate l => some l
  | constraint e => some [e]
  | copy _ _ => none

/-- The selector that a call answers, if it registers a gate, and the circuit after it.  A copy
constraint that is not between absolute cells leaves the circuit as it is. -/
def step (c : Circuit k) : Call k → Option Nat × Circuit k
  | .gate l => (c.addGate l).map some id
  | .constraint e => (c.addConstraint e).map some id
  | .copy v w => (none, (c.addCopy v w).toOption.getD c)

/-- The circuit after some calls. -/
def run (c : Circuit k) (calls : List (Call k)) : Circuit k :=
  calls.foldl (fun c call => (c.step call).2) c

/-- The call registers a gate with constraints that no call before has registered. -/
def Call.First (D : Digesting k) (before : List (Call k)) (call : Call k) : Prop :=
  ∃ constraints, call.constraints? = some constraints ∧
    ∀ earlier ∈ before, ∀ others, earlier.constraints? = some others →
      ¬ SameConstraints D others constraints

variable {c : Circuit k} {call : Call k} {constraints constraints' : List (Expr k)} {s : Nat}

theorem run_append (c : Circuit k) (calls calls' : List (Call k)) :
    c.run (calls ++ calls') = (c.run calls).run calls' := List.foldl_append

theorem run_concat (c : Circuit k) (calls : List (Call k)) (call : Call k) :
    c.run (calls ++ [call]) = ((c.run calls).step call).2 := c.run_append calls [call]

/-- A call that registers a gate does nothing else. -/
theorem step_of_some (h : call.constraints? = some constraints) :
    c.step call = (some (c.addGate constraints).1, (c.addGate constraints).2) := by
  cases call with
  | gate l => cases h; rfl
  | constraint e => cases h; rfl
  | copy v w => cases h

/-- A call that registers no gate leaves the gates and the table of selectors as they are. -/
theorem step_of_none (h : call.constraints? = none) :
    (c.step call).2.gates = c.gates ∧ (c.step call).2.selectors = c.selectors := by
  cases call with
  | gate l => cases h
  | constraint e => cases h
  | copy v w =>
      show ((c.addCopy v w).toOption.getD c).gates = _ ∧
        ((c.addCopy v w).toOption.getD c).selectors = _
      unfold addCopy
      split <;> exact ⟨rfl, rfl⟩

/-! ### Indexed circuits -/

/-- The gates stand in the order of their selectors, and the table of selectors is the inverse of
the list of gates. -/
structure Indexed (c : Circuit k) : Prop where
  /-- Each gate stands at the place its selector names. -/
  selector_eq {i : Nat} {g : Gate k} : c.gates[i]? = some g → g.selector = i
  /-- Constraints are registered under the selector of the gate that has them. -/
  lookup_iff {constraints : List (Expr k)} {s : Nat} :
    c.selectors[constraints]? = some s ↔ c.Leads constraints s

theorem indexed_empty : (empty : Circuit k).Indexed where
  selector_eq h := by simp [empty] at h
  lookup_iff := by simp [empty, Leads]

/-- A selector leads to one list of constraints at most. -/
theorem Leads.beq (hs : c.Leads constraints s) (hs' : c.Leads constraints' s) :
    constraints == constraints' := by
  obtain ⟨g, hg, hsame⟩ := hs
  obtain ⟨g', hg', hsame'⟩ := hs'
  obtain rfl := Option.some.inj (hg.symm.trans hg')
  exact BEq.trans (BEq.symm hsame) hsame'

namespace Indexed

theorem registered (h : c.Indexed) : c.Registered := ⟨h.selector_eq, h.lookup_iff.mp⟩

/-- Constraints lead to one selector at most, and the same ones to the same selector. -/
theorem eq_of_leads (h : c.Indexed) {s' : Nat} (hs : c.Leads constraints s)
    (hs' : c.Leads constraints' s') (hsame : constraints == constraints') : s = s' := by
  have hlookup := h.lookup_iff.mpr hs
  rw [Std.HashMap.getElem?_congr hsame, h.lookup_iff.mpr hs'] at hlookup
  exact (Option.some.inj hlookup).symm

theorem eq_of_beq (h : c.Indexed) {i j : Nat} {g g' : Gate k} (hg : c.gates[i]? = some g)
    (hg' : c.gates[j]? = some g') (hsame : g.constraints == g'.constraints) : i = j :=
  h.eq_of_leads ⟨g, hg, BEq.rfl⟩ ⟨g', hg', BEq.rfl⟩ hsame

/-- **Registering a gate** keeps the table of selectors the inverse of the gates. -/
theorem addGate (h : c.Indexed) (constraints : List (Expr k)) :
    (c.addGate constraints).2.Indexed := by
  obtain ⟨hreg, -, -⟩ := h.registered.addGate constraints
  refine ⟨hreg.selector_eq, ⟨hreg.found, ?_⟩⟩
  unfold Circuit.addGate
  split
  · exact h.lookup_iff.mpr
  · next hnone =>
      rintro ⟨g, hg, hsame⟩
      rw [Std.HashMap.getElem?_insert]
      -- The gate is the new one, or it was there, and then its constraints are not the new ones.
      rw [Array.getElem?_push] at hg
      split at hg
      · next hs =>
          obtain rfl := Option.some.inj hg
          rw [if_pos hsame, hs]
      · have hold := h.lookup_iff.mpr ⟨g, hg, hsame⟩
        rw [if_neg, hold]
        intro hnew
        rw [Std.HashMap.getElem?_congr hnew, hold] at hnone
        cases hnone

theorem step (h : c.Indexed) (call : Call k) : (c.step call).2.Indexed := by
  cases hcall : call.constraints? with
  | some constraints =>
      rw [step_of_some hcall]
      exact h.addGate constraints
  | none =>
      obtain ⟨hgates, hselectors⟩ := step_of_none (c := c) hcall
      refine ⟨fun hg => h.selector_eq (hgates ▸ hg), ?_⟩
      intro constraints s
      rw [hselectors, h.lookup_iff, Leads, Leads, hgates]

theorem run (h : c.Indexed) (calls : List (Call k)) : (c.run calls).Indexed := by
  induction calls generalizing c with
  | nil => exact h
  | cons call calls ih => exact ih (h.step call)

theorem getElem?_step (h : c.Indexed) {i : Nat} {g : Gate k} (hg : c.gates[i]? = some g)
    (call : Call k) : (c.step call).2.gates[i]? = some g := by
  cases hcall : call.constraints? with
  | some constraints =>
      rw [step_of_some hcall]
      exact (h.registered.addGate constraints).2.1.kept hg
  | none => rwa [(step_of_none hcall).1]

/-- The gates stay where they are. -/
theorem getElem?_run (h : c.Indexed) {i : Nat} {g : Gate k} (hg : c.gates[i]? = some g)
    (calls : List (Call k)) : (c.run calls).gates[i]? = some g := by
  induction calls generalizing c with
  | nil => exact hg
  | cons call calls ih => exact ih (h.step call) (h.getElem?_step hg call)

theorem leads_run (h : c.Indexed) (hs : c.Leads constraints s) (calls : List (Call k)) :
    (c.run calls).Leads constraints s :=
  hs.imp fun _ hg => ⟨h.getElem?_run hg.1 calls, hg.2⟩

theorem leads_addGate (h : c.Indexed) (constraints : List (Expr k)) :
    (c.addGate constraints).2.Leads constraints (c.addGate constraints).1 :=
  (h.registered.addGate constraints).2.2

/-- Constraints that have a gate are not registered again. -/
theorem addGate_of_leads (h : c.Indexed) (hs : c.Leads constraints s) :
    c.addGate constraints = (s, c) := by
  unfold Circuit.addGate
  rw [h.lookup_iff.mpr hs]

/-- New constraints have the next selector. -/
theorem addGate_of_new (h : c.Indexed) (hnew : ¬ ∃ s, c.Leads constraints s) :
    c.addGate constraints = (c.gates.size,
      { c with
        gates := c.gates.push ⟨c.gates.size, constraints⟩
        selectors := c.selectors.insert constraints c.gates.size }) := by
  unfold Circuit.addGate
  split
  · next s hs => exact absurd ⟨s, h.lookup_iff.mp hs⟩ hnew
  · rfl

theorem exists_leads_addGate_iff (h : c.Indexed) :
    (∃ s, (c.addGate constraints).2.Leads constraints' s) ↔
      (∃ s, c.Leads constraints' s) ∨ constraints == constraints' := by
  obtain ⟨-, hgrows, hleads⟩ := h.registered.addGate constraints
  constructor
  · rintro ⟨s, hs⟩
    by_cases hold : ∃ s, c.Leads constraints s
    · obtain ⟨s', hs'⟩ := hold
      rw [h.addGate_of_leads hs'] at hs
      exact .inl ⟨s, hs⟩
    · rw [h.addGate_of_new hold] at hs
      obtain ⟨g, hg, hsame⟩ := hs
      rw [Array.getElem?_push] at hg
      split at hg
      · obtain rfl := Option.some.inj hg
        exact .inr hsame
      · exact .inl ⟨s, g, hg, hsame⟩
  · rintro (⟨s, hs⟩ | hsame)
    · exact ⟨s, hs.mono hgrows⟩
    · obtain ⟨g, hg, hg'⟩ := hleads
      exact ⟨_, g, hg, BEq.trans hg' hsame⟩

end Indexed

/-! ### Calls on a new circuit -/

/-- The constraints with a gate are those that one of the calls has registered. -/
theorem exists_leads_run_iff (calls : List (Call k)) (constraints : List (Expr k)) :
    (∃ s, (empty.run calls).Leads constraints s) ↔
      ∃ call ∈ calls, ∃ others, call.constraints? = some others ∧ others == constraints := by
  induction calls using List.reverseRecOn with
  | nil => simp [run, empty, Leads]
  | append_singleton calls call ih =>
      rw [run_concat]
      simp only [List.mem_append, List.mem_singleton, or_and_right, exists_or, exists_eq_left]
      rw [← ih]
      cases hcall : call.constraints? with
      | some others =>
          rw [step_of_some hcall, (indexed_empty.run calls).exists_leads_addGate_iff]
          simp
      | none =>
          simp [Leads, (step_of_none hcall).1]

theorem Call.first_iff (D : Digesting k) (before : List (Call k)) (call : Call k) :
    call.First D before ↔ ∃ constraints, call.constraints? = some constraints ∧
      ¬ ∃ s, (empty.run before).Leads constraints s := by
  simp only [First, exists_leads_run_iff, sameConstraints_iff, not_exists, not_and]

/-- A call registers a new gate if it is the first with its constraints, and none otherwise. -/
theorem size_step (D : Digesting k) (calls : List (Call k)) (call : Call k) :
    call.First D calls ∧
        ((empty.run calls).step call).2.gates.size = (empty.run calls).gates.size + 1 ∨
      ¬ call.First D calls ∧ ((empty.run calls).step call).2.gates = (empty.run calls).gates := by
  have hindexed := indexed_empty.run calls
  rw [Call.first_iff]
  cases hcall : call.constraints? with
  | none => exact .inr ⟨by simp, (step_of_none hcall).1⟩
  | some constraints =>
      rw [step_of_some hcall]
      by_cases hold : ∃ s, (empty.run calls).Leads constraints s
      · obtain ⟨s, hs⟩ := hold
        rw [hindexed.addGate_of_leads hs]
        refine .inr ⟨?_, rfl⟩
        rintro ⟨others, hothers, hnew⟩
        obtain rfl := Option.some.inj hothers
        exact hnew ⟨s, hs⟩
      · rw [hindexed.addGate_of_new hold]
        exact .inl ⟨⟨constraints, rfl, hold⟩, Array.size_push _⟩

/-- Two calls answer the same selector if they register the same constraints, and only then. -/
theorem step_eq_step_iff (h : c.Indexed) {first later : Call k}
    (hfirst : first.constraints? = some constraints)
    (hlater : later.constraints? = some constraints') (between : List (Call k)) :
    (c.step first).1 = ((c.run (first :: between)).step later).1 ↔ constraints == constraints' := by
  have hindexed := h.run (first :: between)
  have hleads : (c.run (first :: between)).Leads constraints (c.addGate constraints).1 := by
    show ((c.step first).2.run between).Leads _ _
    rw [step_of_some hfirst]
    exact (h.addGate constraints).leads_run (h.leads_addGate constraints) between
  obtain ⟨-, hgrows, hleads'⟩ := hindexed.registered.addGate constraints'
  rw [step_of_some hfirst, step_of_some hlater, Option.some_inj]
  constructor
  · intro hs
    rw [← hs] at hleads'
    exact (hleads.mono hgrows).beq hleads'
  · exact (hindexed.addGate constraints').eq_of_leads (hleads.mono hgrows) hleads'

/-- **Selectors index the gates.**  After any calls on a new circuit: each gate has its place as its
selector; no two gates have the same constraints; the table of selectors is the inverse of the list
of gates; the next call that registers constraints answers the selector of a gate with the same
ones, which stays the gate of that selector; another call after it answers the same selector exactly
if its constraints are the same; and the next call adds one gate if it is the first with its
constraints, and none otherwise. -/
theorem selectors_index_gates (D : Digesting k) (calls : List (Call k)) :
    (∀ (i : Nat) (g : Gate k), (empty.run calls).gates[i]? = some g → g.selector = i) ∧
    (∀ (i j : Nat) (g g' : Gate k), (empty.run calls).gates[i]? = some g →
      (empty.run calls).gates[j]? = some g' →
        SameConstraints D g.constraints g'.constraints → i = j) ∧
    (∀ constraints s, (empty.run calls).selectors[constraints]? = some s ↔
      ∃ g, (empty.run calls).gates[s]? = some g ∧ SameConstraints D g.constraints constraints) ∧
    (∀ call constraints, call.constraints? = some constraints →
      ∃ s g, ((empty.run calls).step call).1 = some s ∧
        SameConstraints D g.constraints constraints ∧
        ∀ later, (empty.run (calls ++ call :: later)).gates[s]? = some g) ∧
    (∀ first between later constraints constraints', first.constraints? = some constraints →
      later.constraints? = some constraints' →
      (((empty.run calls).step first).1 = ((empty.run (calls ++ first :: between)).step later).1 ↔
        SameConstraints D constraints constraints')) ∧
    (∀ call : Call k, call.First D calls ∧
        (empty.run (calls ++ [call])).gates.size = (empty.run calls).gates.size + 1 ∨
      ¬ call.First D calls ∧ (empty.run (calls ++ [call])).gates = (empty.run calls).gates) := by
  have hindexed : (empty.run calls).Indexed := indexed_empty.run calls
  simp only [sameConstraints_iff, run_append]
  refine ⟨fun i g => hindexed.selector_eq, fun i j g g' => hindexed.eq_of_beq,
    fun constraints s => hindexed.lookup_iff, ?_, ?_, size_step D calls⟩
  · intro call constraints hcall
    obtain ⟨g, hg, hsame⟩ := hindexed.leads_addGate constraints
    refine ⟨_, g, congrArg Prod.fst (step_of_some hcall), hsame, fun later => ?_⟩
    show (((empty.run calls).step call).2.run later).gates[_]? = _
    rw [step_of_some hcall]
    exact (hindexed.addGate constraints).getElem?_run hg later
  · intro first between later constraints constraints' hfirst hlater
    exact step_eq_step_iff hindexed hfirst hlater between

/-- The order of the constraints matters, and that of the variables in a term does not. -/
theorem selectors_index_gates_products :
    let v : Variable := ⟨.witness, 0, 0, true⟩
    let w : Variable := ⟨.witness, 1, 0, true⟩
    let product : Expr .goldilocks := Expr.term (.of 1 [v, w])
    let swapped : Expr .goldilocks := Expr.term (.of 1 [w, v])
    let c := empty.run [.constraint product]
    ((empty.step (.constraint product)).1 = (c.step (.gate [swapped])).1) ∧
      ¬ ((empty.step (.gate [product, v])).1 =
        ((empty.run [.gate [product, v]]).step (.gate [v, swapped])).1) :=
  ⟨((selectors_index_gates (.standard _) []).2.2.2.2.1 _ [] _ _ _ rfl rfl).mpr
      (sameConstraints_iff.mpr (by cbv)),
    fun h => absurd (sameConstraints_iff.mp
        (((selectors_index_gates (.standard _) []).2.2.2.2.1 _ [] _ _ _ rfl rfl).mp h))
      (ne_true_of_eq_false (by cbv))⟩

end Circuit

end Plonkish
