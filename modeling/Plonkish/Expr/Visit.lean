import Plonkish.Expr.Basic

/-!
# Expressions — the variables of a tree

`occurrences` lists the variables of an expression from left to right, repetitions included, and
`distinctVariables` the different ones in order.  `degree` bounds the total degree: products add,
powers multiply, and sums take the larger.  `mapVariables` replaces every variable and keeps the
shape of the tree; the leaves are brought to normal form again.
-/

namespace Plonkish.Expr

variable {k : BaseField}

/-- Every occurrence of a variable, from left to right, in front of a list. -/
def occurrencesOnto : Expr k → List Variable → List Variable
  | term t, rest => t.vars ++ rest
  | pow base _, rest => base.occurrencesOnto rest
  | binop lhs rhs _, rest => lhs.occurrencesOnto (rhs.occurrencesOnto rest)

/-- Every occurrence of a variable, from left to right. -/
def occurrences (e : Expr k) : List Variable := e.occurrencesOnto []

theorem occurrencesOnto_eq (e : Expr k) (rest : List Variable) :
    e.occurrencesOnto rest = e.occurrences ++ rest := by
  suffices h : ∀ l, e.occurrencesOnto (l ++ rest) = e.occurrencesOnto l ++ rest from h []
  induction e with
  | term t => simp [occurrencesOnto]
  | pow base power ih => exact ih
  | binop lhs rhs op ihl ihr => simp [occurrencesOnto, ihl, ihr]

@[simp] theorem occurrences_term (t : Term k) : (term t).occurrences = t.vars :=
  List.append_nil _

@[simp] theorem occurrences_pow (base : Expr k) (power : UInt32) :
    (pow base power).occurrences = base.occurrences := rfl

@[simp] theorem occurrences_binop (lhs rhs : Expr k) (op : Operator) :
    (binop lhs rhs op).occurrences = lhs.occurrences ++ rhs.occurrences :=
  occurrencesOnto_eq lhs rhs.occurrences

/-- The different variables, in order. -/
def distinctVariables (e : Expr k) : List Variable := Variable.distinct e.occurrences

theorem mem_distinctVariables {e : Expr k} {v : Variable} :
    v ∈ e.distinctVariables ↔ v ∈ e.occurrences :=
  Variable.mem_distinct

/-- The bound on the total degree. -/
def degree : Expr k → Except Fault Nat
  | term t => .ok t.degree
  | pow base power => do Count.mul (← base.degree) power.toNat
  | binop lhs rhs .mult => do Count.add (← lhs.degree) (← rhs.degree)
  | binop lhs rhs _ => return max (← lhs.degree) (← rhs.degree)

/-- The same tree with each variable replaced. -/
def mapVariables (f : Variable → Variable) : Expr k → Expr k
  | term t => term (t.mapVariables f)
  | pow base power => pow (base.mapVariables f) power
  | binop lhs rhs op => binop (lhs.mapVariables f) (rhs.mapVariables f) op

end Plonkish.Expr
