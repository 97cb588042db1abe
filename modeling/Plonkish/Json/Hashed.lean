import Plonkish.Hashed.Operators

/-!
# JSON text — values as they are kept

`toJson` writes a value, and `ofJson` reads a text that holds one and blanks around it.  Digests are
not written: a term or an expression is made again from what is read (`Hashed.Term.ofJson`,
`Hashed.Expr.ofJson`).

A text may have `Json.depthLimit` lists and objects open inside each other.  An expression of any
depth is written, and `Hashed.Expr.ofJsonWithin` reads it under any limit; `levels` counts what its
text has open.
-/

namespace Plonkish

namespace Variable

/-- The text of a variable. -/
def toJson (v : Variable) : String := Json.variableText v

/-- The variable in a text. -/
def ofJson (text : String) : Except Json.Problem Variable :=
  Json.read (Json.readVariable Json.depthLimit) text

end Variable

variable {k : BaseField}

namespace Hashed

/-- The text of a term. -/
def Term.toJson (t : Term k) : String := Json.termText t.stored

namespace Expr

/-- The text of an expression. -/
def toJson (e : Expr k) : String := Json.exprText e.stored

/-- The expression in a text that has at most the given number of lists and objects open, with all
its digests. -/
def ofJsonWithin (D : Digesting k) (limit : Nat) (text : String) : Except Json.Problem (Expr k) :=
  return (← Json.read (Json.readExpr limit) text).toHashed D

theorem ofJson_eq (D : Digesting k) (text : String) :
    ofJson D text = ofJsonWithin D Json.depthLimit text := rfl

end Expr

end Hashed

namespace Stored

/-- The text of a polynomial in coefficient form. -/
def Poly.toJson (p : Poly k) : String := Json.polyText p

/-- The polynomial in a text. -/
def Poly.ofJson (text : String) : Except Json.Problem (Poly k) :=
  Json.read (Json.readPoly Json.depthLimit) text

/-- The text of a polynomial in point-value form. -/
def PointValues.toJson (p : PointValues k) : String := Json.pointValuesText p

/-- The polynomial in a text; nothing is checked of it. -/
def PointValues.ofJson (text : String) : Except Json.Problem (PointValues k) :=
  Json.read (Json.readPointValues Json.depthLimit) text

/-! ### Levels -/

/-- The lists and objects that the text of a term has open inside each other. -/
def Term.levels (t : Term k) : Nat := if t.vars = [] then 2 else 3

/-- The lists and objects that the text of an expression has open inside each other. -/
def Expr.levels : Expr k → Nat
  | term t => t.levels + 1
  | pow base _ => base.levels + 2
  | binop lhs rhs _ => max lhs.levels rhs.levels + 2

end Stored

end Plonkish
