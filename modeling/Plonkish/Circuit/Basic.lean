import Std.Data.HashMap
import Plonkish.Expr.Digest
import Plonkish.Expr.Visit

/-!
# Circuits — gates and copy constraints

A `Gate` is a list of constraints that have to vanish on every row where its selector is enabled.
A `CopyConstraint` asks two absolute cells for the same value; the order of the two does not
matter, so `==` compares the pairs with the lesser variable first.

A `Circuit` registers gates: `Circuit.addGate` gives the selector of a gate with these constraints,
in this order, and only makes a new one if there is none.  Selectors count up from zero, so the
gate of a selector is found at its place in the list of gates.
-/

namespace Plonkish

/-- Constraints that share a selector. -/
structure Gate (k : BaseField) where
  /-- The column of the selector region that enables the gate. -/
  selector : Nat
  /-- The constraints. -/
  constraints : List (Expr k)
deriving Repr

/-- The largest of a list of degrees, and zero if there is none. -/
def maxDegree {α : Type} (degree : α → Except Fault Nat) (l : List α) : Except Fault Nat :=
  l.foldlM (fun acc a => return max acc (← degree a)) 0

/-- The largest degree of a constraint. -/
def Gate.degree {k : BaseField} (g : Gate k) : Except Fault Nat :=
  maxDegree Expr.degree g.constraints

/-- The equality of two cells. -/
structure CopyConstraint where
  /-- One cell. -/
  first : Variable
  /-- The other cell. -/
  second : Variable
deriving Repr

namespace CopyConstraint

/-- The two cells, the lesser one first. -/
def ordered (c : CopyConstraint) : Variable × Variable :=
  if c.first ≤ c.second then (c.first, c.second) else (c.second, c.first)

instance : BEq CopyConstraint := ⟨fun c d => c.ordered == d.ordered⟩

instance : Hashable CopyConstraint := ⟨fun c => hash c.ordered⟩

theorem beq_iff {c d : CopyConstraint} : c == d ↔ c.ordered = d.ordered :=
  beq_iff_eq (a := c.ordered) (b := d.ordered)

/-- The order of the two cells does not matter. -/
theorem beq_swap (v w : Variable) : (⟨v, w⟩ : CopyConstraint) == ⟨w, v⟩ := by
  rw [beq_iff]
  simp only [ordered]
  split <;> split
  · next h₁ h₂ => rw [Variable.le_antisymm h₁ h₂]
  · rfl
  · rfl
  · next h₁ h₂ => exact absurd ((Variable.le_total v w).resolve_left h₁) h₂

end CopyConstraint

/-- Registered gates and copy constraints. -/
structure Circuit (k : BaseField) where
  /-- The gates, in the order of their selectors. -/
  gates : Array (Gate k)
  /-- The selector of each registered list of constraints. -/
  selectors : Std.HashMap (List (Expr k)) Nat
  /-- The copy constraints, in the order they were added. -/
  copies : Array CopyConstraint

namespace Circuit

variable {k : BaseField}

/-- The circuit without gates and copy constraints. -/
def empty : Circuit k := ⟨#[], ∅, #[]⟩

/-- The selector of the gate with the given constraints, which is registered if it is new. -/
def addGate (c : Circuit k) (constraints : List (Expr k)) : Nat × Circuit k :=
  match c.selectors[constraints]? with
  | some selector => (selector, c)
  | none =>
    let selector := c.gates.size
    (selector, { c with
      gates := c.gates.push ⟨selector, constraints⟩
      selectors := c.selectors.insert constraints selector })

/-- The gate of a single constraint. -/
def addConstraint (c : Circuit k) (constraint : Expr k) : Nat × Circuit k := c.addGate [constraint]

/-- The circuit with a copy constraint between two absolute cells. -/
def addCopy (c : Circuit k) (first second : Variable) : Except Fault (Circuit k) :=
  if first.relative || second.relative then .error .relativeCopy
  else .ok { c with copies := c.copies.push ⟨first, second⟩ }

/-- The gate of a selector. -/
def gate? (c : Circuit k) (selector : Nat) : Option (Gate k) := c.gates[selector]?

/-- The largest degree of a constraint. -/
def degree (c : Circuit k) : Except Fault Nat := maxDegree Gate.degree c.gates.toList

end Circuit

end Plonkish
