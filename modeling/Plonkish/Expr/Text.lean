import Plonkish.Expr.Basic

/-!
# Expressions — text

A term is written as its coefficient and its variables with `*` between them.  The coefficient
minus one is written `(-1)`, and the coefficient one is left out before a variable.  Powers and
operations stand in parentheses: `(w0 ^ 2)`, `(w0 + 3 * w1)`.
-/

namespace Plonkish

variable {k : BaseField}

/-- The text of a coefficient. -/
def coefficientText (c : Word k) : String :=
  if c == (-1 : Felt k).word then "(-1)" else toString c

/-- The text of a term. -/
protected def Term.toString (t : Term k) : String :=
  let factors := t.vars.map toString
  " * ".intercalate (if t.coeff == 1 ∧ t.vars ≠ [] then factors
    else coefficientText t.coeff :: factors)

instance : ToString (Term k) := ⟨Term.toString⟩

/-- The text of an expression. -/
protected def Expr.toString : Expr k → String
  | .term t => t.toString
  | .pow base power => "(" ++ base.toString ++ " ^ " ++ toString power.toNat ++ ")"
  | .binop lhs rhs op =>
    "(" ++ lhs.toString ++ " " ++ op.symbol ++ " " ++ rhs.toString ++ ")"

instance : ToString (Expr k) := ⟨Expr.toString⟩

end Plonkish
