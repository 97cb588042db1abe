import Plonkish.Fault
import Plonkish.Field.Word

/-!
# Terms — monomials over variables

A `Term k` is a product `coeff * v₁ * … * vₙ` with a word for its coefficient.  Its variables are
kept in order, so that the same product has one form whatever order it was written in, and a term
with coefficient zero has no variables.  Both are fields of the type; `Term.of` establishes them for
any coefficient and list.

Terms are compared by their coefficients, as words are, and their variables.
-/

namespace Plonkish

/-- A monomial in normal form. -/
@[ext] structure Term (k : BaseField) where
  /-- The coefficient. -/
  coeff : Word k
  /-- The variables, a power repeated. -/
  vars : List Variable
  /-- The variables are in order. -/
  sorted : vars.Pairwise (· ≤ ·)
  /-- The zero term has no variables. -/
  vars_eq_nil : coeff == 0 → vars = []
deriving Repr

namespace Term

variable {k : BaseField}

/-- The variables a term keeps: in order, and none under coefficient zero. -/
def normalVars (coeff : Word k) (vars : List Variable) : List Variable :=
  if coeff == 0 then [] else Variable.sort vars

/-- The product of a coefficient and a list of variables. -/
def of (coeff : Word k) (vars : List Variable) : Term k where
  coeff := coeff
  vars := normalVars coeff vars
  sorted := by
    unfold normalVars
    split
    · exact .nil
    · exact Variable.pairwise_sort vars
  vars_eq_nil h := by simp [normalVars, h]

/-- The constant term. -/
def constant (c : Word k) : Term k := of c []

/-- The term without variables and with coefficient zero. -/
def zero : Term k := constant 0

/-- The term of a single variable. -/
def ofVariable (v : Variable) : Term k := of 1 [v]

instance : Coe Variable (Term k) := ⟨ofVariable⟩

instance : BEq (Term k) := ⟨fun t u => t.coeff == u.coeff && t.vars == u.vars⟩

theorem beq_iff {t u : Term k} : t == u ↔ t.coeff == u.coeff ∧ t.vars = u.vars := by
  show (t.coeff == u.coeff && t.vars == u.vars) = true ↔ _
  rw [Bool.and_eq_true, beq_iff_eq (a := t.vars)]

instance : EquivBEq (Term k) where
  rfl := beq_iff.mpr ⟨BEq.rfl, rfl⟩
  symm h := beq_iff.mpr ⟨BEq.symm (beq_iff.mp h).1, (beq_iff.mp h).2.symm⟩
  trans h₁ h₂ := beq_iff.mpr
    ⟨BEq.trans (beq_iff.mp h₁).1 (beq_iff.mp h₂).1, (beq_iff.mp h₁).2.trans (beq_iff.mp h₂).2⟩

/-- Whether the coefficient is zero. -/
def isZero (t : Term k) : Bool := t.coeff == 0

/-- Whether the term has no variables. -/
def isConstant (t : Term k) : Bool := t.vars.isEmpty

/-- The number of variables. -/
def degree (t : Term k) : Nat := t.vars.length

/-- Each different variable with the number of times it occurs, in order. -/
def multiplicities (t : Term k) : List (Variable × Nat) :=
  (Variable.distinct t.vars).map fun v => (v, t.vars.count v)

/-- The product of two terms. -/
def mul (t u : Term k) : Term k :=
  if t.isZero || u.isZero then zero else of (t.coeff * u.coeff) (t.vars ++ u.vars)

/-- The multiple by a constant. -/
def scale (t : Term k) (c : Word k) : Term k := of (t.coeff * c) t.vars

/-- The negation. -/
def neg (t : Term k) : Term k := of (-t.coeff) t.vars

instance : Mul (Term k) := ⟨mul⟩

instance : HMul (Term k) (Word k) (Term k) := ⟨scale⟩

instance : Neg (Term k) := ⟨neg⟩

/-- The term with each variable replaced. -/
def mapVariables (f : Variable → Variable) (t : Term k) : Term k := of t.coeff (t.vars.map f)

/-- A term is determined by its coefficient and its variables. -/
theorem of_self (t : Term k) : of t.coeff t.vars = t := by
  apply Term.ext
  · rfl
  · show normalVars t.coeff t.vars = t.vars
    unfold normalVars
    split
    · next h => exact (t.vars_eq_nil h).symm
    · exact Variable.sort_of_pairwise t.sorted

@[simp] theorem coeff_of (c : Word k) (l : List Variable) : (of c l).coeff = c := rfl

@[simp] theorem vars_of (c : Word k) (l : List Variable) : (of c l).vars = normalVars c l := rfl

end Term

end Plonkish
