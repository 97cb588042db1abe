import Plonkish.Json.Shape
import Plonkish.Stored

/-!
# JSON text — stored forms

Each form is read as a record or a variant, and written with its fields in the order given here.

* An element is its word, which over Goldilocks is the field `value` of a record.
* A variable has `column_type`, `index`, `rotation` and `relative`; a term `coeff` and `vars`.
* An expression is one of the variants `Term`, `Pow` and `BinOp`.  A `Term` holds a term; the other
  two hold the list of their parts.
* A polynomial has `coeffs`, or `degree` and `values`; a domain `size`, `log_size` and `omega`.

The readers are given the number of lists and objects that may still be opened.
-/

namespace Plonkish.Json

variable {k : BaseField}

/-! ### Reading -/

/-- The region with a given name. -/
def kindOfName? (name : String) : Option ColumnKind := ColumnKind.all.find? (·.name = name)

/-- The name of an operator. -/
def operatorName : Operator → String
  | .add => "Add"
  | .sub => "Sub"
  | .mult => "Mult"

/-- The operator with a given name. -/
def operatorOfName? (name : String) : Option Operator :=
  [Operator.add, .sub, .mult].find? (operatorName · = name)

/-- The three forms of an expression. -/
inductive ExprForm where
  /-- A monomial. -/
  | term
  /-- A power. -/
  | pow
  /-- An operation. -/
  | binop
deriving DecidableEq, Repr

namespace ExprForm

/-- The name of a form. -/
def name : ExprForm → String
  | term => "Term"
  | pow => "Pow"
  | binop => "BinOp"

/-- The form with a given name. -/
def ofName? (n : String) : Option ExprForm := [term, pow, binop].find? (·.name = n)

end ExprForm

/-- Reads a variable. -/
def readVariable (depth : Nat) : Reader Variable :=
  record depth
    [field "column_type" (choice (depth - 1) kindOfName?) fun kind v => { v with kind },
      field "index" (unsigned 32) fun n v => { v with index := UInt32.ofNat n },
      field "rotation" (integer (-0x80000000) 0x80000000) fun r v =>
        { v with rotation := Int32.ofInt r },
      field "relative" boolean fun relative v => { v with relative }]
    ⟨.witness, 0, 0, true⟩

/-- Reads a word. -/
def readWord : (k : BaseField) → Nat → Reader (Word k)
  | .goldilocks, depth =>
    record depth [field "value" (unsigned 64) fun n _ => .ofBits n] 0
  | .babyBear, _ => return .ofBits (← unsigned 32)

/-- Reads a term. -/
def readTerm (depth : Nat) : Reader (Stored.Term k) :=
  record depth
    [field "coeff" (readWord k (depth - 1)) fun coeff t => { t with coeff },
      field "vars" (listOf (depth - 1) (readVariable (depth - 2))) fun vars t => { t with vars }]
    ⟨0, []⟩

/-- Reads an expression whose parts are read by `part`. -/
def readExprOf (depth : Nat) (part : Reader (Stored.Expr k)) : Reader (Stored.Expr k) :=
  variant depth ExprForm.ofName? (fun _ => throw .mismatch) fun
    | .term => return .term (← readTerm (depth - 1))
    | .pow => bracketed (depth - 1) do
      let base ← entry true part
      let power ← entry false (unsigned 32)
      return .pow base (UInt32.ofNat power)
    | .binop => bracketed (depth - 1) do
      let lhs ← entry true part
      let rhs ← entry false part
      let op ← entry false (choice (depth - 2) operatorOfName?)
      return .binop lhs rhs op

/-- Reads an expression. -/
def readExpr : Nat → Reader (Stored.Expr k)
  | 0 => readExprOf 0 (throw .malformed)
  | 1 => readExprOf 1 (throw .malformed)
  | depth + 2 => readExprOf (depth + 2) (readExpr depth)

/-- Reads a polynomial in coefficient form. -/
def readPoly (depth : Nat) : Reader (Stored.Poly k) :=
  record depth
    [field "coeffs" (listOf (depth - 1) (readWord k (depth - 2))) fun coeffs _ => ⟨coeffs⟩]
    ⟨[]⟩

/-- Reads a polynomial in point-value form. -/
def readPointValues (depth : Nat) : Reader (Stored.PointValues k) :=
  record depth
    [field "degree" (unsigned 64) fun degree p => { p with degree },
      field "values" (listOf (depth - 1) (readWord k (depth - 2))) fun values p =>
        { p with values }]
    ⟨0, []⟩

/-- Reads a domain. -/
def readDomain (depth : Nat) : Reader (Stored.Domain k) :=
  record depth
    [field "size" (unsigned 64) fun size d => { d with size },
      field "log_size" (unsigned 64) fun logSize d => { d with logSize },
      field "omega" (readWord k (depth - 1)) fun omega d => { d with omega }]
    ⟨0, 0, 0⟩

/-! ### Writing -/

/-- The text of a truth value. -/
def boolText (b : Bool) : String := if b then "true" else "false"

/-- The text of a variable. -/
def variableText (v : Variable) : String :=
  objectText
    [("column_type", quoted v.kind.name), ("index", toString v.index.toNat),
      ("rotation", toString v.rotation.toInt), ("relative", boolText v.relative)]

/-- The text of a word. -/
def wordText : {k : BaseField} → Word k → String
  | .goldilocks, w => objectText [("value", toString w.bits)]
  | .babyBear, w => toString w.bits

/-- The text of a term. -/
def termText (t : Stored.Term k) : String :=
  objectText [("coeff", wordText t.coeff), ("vars", listText (t.vars.map variableText))]

/-- The text of an expression. -/
def exprText : Stored.Expr k → String
  | .term t => objectText [(ExprForm.term.name, termText t)]
  | .pow base power =>
    objectText [(ExprForm.pow.name, listText [exprText base, toString power.toNat])]
  | .binop lhs rhs op =>
    objectText [(ExprForm.binop.name,
      listText [exprText lhs, exprText rhs, quoted (operatorName op)])]

/-- The text of a polynomial in coefficient form. -/
def polyText (p : Stored.Poly k) : String :=
  objectText [("coeffs", listText (p.coeffs.map wordText))]

/-- The text of a polynomial in point-value form. -/
def pointValuesText (p : Stored.PointValues k) : String :=
  objectText [("degree", toString p.degree), ("values", listText (p.values.map wordText))]

/-- The text of a domain. -/
def domainText (d : Stored.Domain k) : String :=
  objectText
    [("size", toString d.size), ("log_size", toString d.logSize), ("omega", wordText d.omega)]

end Plonkish.Json
