import Std.Data.HashMap
import Plonkish.Expr.Visit
import Plonkish.Field.Scalar

/-!
# Expressions — evaluation

`Expr.evaluate A look e` computes an expression in any value type, given the operations `A` on it
and a way `look` to find the value of a variable, which may fail or have effects.  Nodes are
computed after their operands, left before right.  A term without variables is a constant; any
other term is the product of its variables from left to right, scaled unless its coefficient is one.
The operations are handed the words of the coefficients, as the terms hold them.

* `Expr.scalar` is the scalar under a valuation of all variables by elements.
* `Expr.valueIn` takes the values from an `EvaluationMap` and names the first variable, in the
  order of evaluation, that the map lacks.
-/

namespace Plonkish

/-- The operations of a value type that expressions are computed in. -/
structure Algebra (k : BaseField) (T : Type) where
  /-- The value of a constant. -/
  constant : Word k → T
  /-- The sum of two values. -/
  sum : T → T → T
  /-- The difference of two values. -/
  difference : T → T → T
  /-- The product of two values. -/
  product : T → T → T
  /-- The multiple of a value by a coefficient. -/
  scaled : T → Word k → T
  /-- The power of a value. -/
  power : T → Nat → T

namespace Algebra

variable {k : BaseField} {T : Type}

/-- The operation an operator stands for. -/
def apply (A : Algebra k T) : Operator → T → T → T
  | .add => A.sum
  | .sub => A.difference
  | .mult => A.product

/-- The operations on scalars. -/
def scalars (k : BaseField) : Algebra k (Scalar k) where
  constant := Word.scalar
  sum := (· + ·)
  difference := (· - ·)
  product := (· * ·)
  scaled a c := a * c.scalar
  power := (· ^ ·)

end Algebra

/-- The value of a term. -/
def Term.evaluate {k : BaseField} {T : Type} {m : Type → Type} [Monad m] (A : Algebra k T)
    (look : Variable → m T) (t : Term k) : m T :=
  match t.vars with
  | [] => pure (A.constant t.coeff)
  | v :: rest => do
    let monomial ← rest.foldlM (fun acc w => return A.product acc (← look w)) (← look v)
    return if t.coeff == 1 then monomial else A.scaled monomial t.coeff

namespace Expr

variable {k : BaseField}

/-- The value of an expression. -/
def evaluate {T : Type} {m : Type → Type} [Monad m] (A : Algebra k T) (look : Variable → m T) :
    Expr k → m T
  | term t => t.evaluate A look
  | pow base power => return A.power (← base.evaluate A look) power.toNat
  | binop lhs rhs op => do
    let a ← lhs.evaluate A look
    let b ← rhs.evaluate A look
    return A.apply op a b

/-- The scalar under a valuation of the variables. -/
def scalar (e : Expr k) (valuation : Variable → Felt k) : Scalar k :=
  Id.run (e.evaluate (.scalars k) fun v => pure (valuation v).scalar)

end Expr

/-- Values of some variables. -/
abbrev EvaluationMap (k : BaseField) := Std.HashMap Variable (Felt k)

namespace Expr

variable {k : BaseField}

/-- The scalar with the variables valued by a map, or the first variable in the order of evaluation
that the map lacks. -/
def valueIn (e : Expr k) (map : EvaluationMap k) : Except Variable (Scalar k) :=
  e.evaluate (.scalars k) fun v =>
    match map[v]? with
    | some a => .ok a.scalar
    | none => .error v

/-- The scalar with every variable valued by a map. -/
def valueInFull (e : Expr k) (map : EvaluationMap k) : Except Fault (Scalar k) :=
  (e.valueIn map).mapError .missingVariable

end Expr

end Plonkish
