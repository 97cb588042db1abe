import Plonkish.Wire.Bytes

/-!
# Wire form — variables, terms and expressions

Every value is written in a fixed order, without separators.

* A variable is the tag of its region, its index and its rotation in 4 bytes each, and one byte for
  whether it is relative.
* A term is the word of its coefficient, the number of its variables in 8 bytes, and the variables.
* An expression starts with a tag: 0 for a term, 1 for a power, which is the base and then the
  exponent in 4 bytes, 2 for an operation, which is the two operands and then the tag of the
  operator.
* A list of expressions is their number in 8 bytes, and the expressions.
* A polynomial in point-value form is its degree and the number of its values in 8 bytes each, and
  the words of the values.

The decoders read front to back and leave what follows the value.  They give the stored form; every
sequence of nodes and variables is accepted, and `Stored.Expr.toExpr` brings it to normal form. Each
level of an expression takes at least the 4 bytes of its tag, so the bytes themselves bound the
nesting: one is dropped at each level, and where none is left the input has ended.

`exprBytes` states the form of an expression; `exprOnto` writes it in one pass, and `exprOnto_eq`
says that it is the same form.
-/

namespace Plonkish.Wire

variable {k : BaseField}

/-- The three kinds of node. -/
inductive NodeKind where
  /-- A monomial. -/
  | term
  /-- A power. -/
  | pow
  /-- An operation. -/
  | binop
deriving DecidableEq, Repr

namespace NodeKind

/-- The tag of a kind of node. -/
def tag : NodeKind → Nat
  | term => 0
  | pow => 1
  | binop => 2

/-- The kind of node with a given tag. -/
def ofTag? : Nat → Option NodeKind
  | 0 => some term
  | 1 => some pow
  | 2 => some binop
  | _ => none

@[simp] theorem ofTag?_tag (n : NodeKind) : ofTag? n.tag = some n := by cases n <;> rfl

end NodeKind

/-! ### Writing -/

/-- The bytes of a variable. -/
def variableBytes (v : Variable) : List UInt8 :=
  numberBytes shortBytes v.kind.tag ++ numberBytes shortBytes v.index.toNat ++
    numberBytes shortBytes v.rotation.toUInt32.toNat ++ [if v.relative then 1 else 0]

/-- The bytes of a word. -/
def wordBytes (w : Word k) : List UInt8 := numberBytes k.wordBytes w.bits

/-- The bytes of a term. -/
def termBytes (t : Stored.Term k) : List UInt8 :=
  wordBytes t.coeff ++ countedBytes variableBytes t.vars

/-- The bytes of an expression. -/
def exprBytes : Stored.Expr k → List UInt8
  | .term t => numberBytes shortBytes NodeKind.term.tag ++ termBytes t
  | .pow base power =>
    numberBytes shortBytes NodeKind.pow.tag ++ exprBytes base ++ numberBytes shortBytes power.toNat
  | .binop lhs rhs op =>
    numberBytes shortBytes NodeKind.binop.tag ++ exprBytes lhs ++ exprBytes rhs ++
      numberBytes shortBytes op.tag

/-- The bytes of an expression in front of others, put together from the back so that each byte is
moved once. -/
def exprOnto : Stored.Expr k → List UInt8 → List UInt8
  | .term t, rest => numberBytes shortBytes NodeKind.term.tag ++ (termBytes t ++ rest)
  | .pow base power, rest =>
    numberBytes shortBytes NodeKind.pow.tag ++
      exprOnto base (numberBytes shortBytes power.toNat ++ rest)
  | .binop lhs rhs op, rest =>
    numberBytes shortBytes NodeKind.binop.tag ++
      exprOnto lhs (exprOnto rhs (numberBytes shortBytes op.tag ++ rest))

theorem exprOnto_eq (e : Stored.Expr k) (rest : List UInt8) :
    exprOnto e rest = exprBytes e ++ rest := by
  induction e generalizing rest with
  | term t => simp [exprOnto, exprBytes]
  | pow base power ih => simp [exprOnto, exprBytes, ih]
  | binop lhs rhs op ihl ihr => simp [exprOnto, exprBytes, ihl, ihr]

/-- The bytes of a list of expressions. -/
def exprsBytes (l : List (Stored.Expr k)) : List UInt8 := countedBytes exprBytes l

/-- The bytes of a polynomial in point-value form. -/
def pointValuesBytes (p : Stored.PointValues k) : List UInt8 :=
  numberBytes countBytes p.degree ++ countedBytes wordBytes p.values

/-! ### Reading -/

/-- Reads a variable. -/
def readVariable : Decoder Variable := do
  let kind ← tagged 4 ColumnKind.ofTag?
  let index ← number shortBytes
  let rotation ← number shortBytes
  let relative ← bool
  return ⟨kind, UInt32.ofNat index, (UInt32.ofNat rotation).toInt32, relative⟩

/-- Reads a word. -/
def readWord : Decoder (Word k) := do
  return .ofBits (← number k.wordBytes)

/-- Reads a term. -/
def readTerm : Decoder (Stored.Term k) := do
  let coeff ← readWord
  let vars ← counted readVariable
  return ⟨coeff, vars⟩

/-- Reads an expression that is nested at most as deep as the bound has bytes. -/
def readNested : List UInt8 → Decoder (Stored.Expr k)
  | [] => throw .endOfInput
  | _ :: bound => do
    match ← tagged 3 NodeKind.ofTag? with
    | .term => return .term (← readTerm)
    | .pow =>
      let base ← readNested bound
      let power ← number shortBytes
      return .pow base (UInt32.ofNat power)
    | .binop =>
      let lhs ← readNested bound
      let rhs ← readNested bound
      let op ← tagged 3 Operator.ofTag?
      return .binop lhs rhs op

/-- Reads an expression. -/
def readExpr : Decoder (Stored.Expr k) := do readNested (← get)

/-- Reads a list of expressions. -/
def readExprs : Decoder (List (Stored.Expr k)) := counted readExpr

/-- Reads a polynomial in point-value form, which is not checked. -/
def readPointValues : Decoder (Stored.PointValues k) := do
  let degree ← number countBytes
  let values ← counted readWord
  return ⟨degree, values⟩

end Plonkish.Wire

namespace Plonkish

variable {k : BaseField}

/-- The bytes a variable is written in. -/
def Variable.encode (v : Variable) : List UInt8 := Wire.variableBytes v

/-- The bytes a term is written in. -/
def Term.encode (t : Term k) : List UInt8 := Wire.termBytes t.stored

/-- The bytes an expression is written in. -/
def Expr.encode (e : Expr k) : List UInt8 := Wire.exprOnto e.stored []

theorem Expr.encode_eq (e : Expr k) : e.encode = Wire.exprBytes e.stored := by
  rw [Expr.encode, Wire.exprOnto_eq, List.append_nil]

/-- The bytes a list of expressions is written in. -/
def Expr.encodeList (l : List (Expr k)) : List UInt8 := Wire.exprsBytes (l.map Expr.stored)

/-- The variable that bytes start with. -/
def Variable.decode (bytes : List UInt8) : Except Wire.DecodeError Variable :=
  Wire.readVariable.run' bytes

/-- The term that bytes start with. -/
def Term.decode (bytes : List UInt8) : Except Wire.DecodeError (Term k) :=
  return (← Wire.readTerm.run' bytes).toTerm

/-- The expression that bytes start with. -/
def Expr.decode (bytes : List UInt8) : Except Wire.DecodeError (Expr k) :=
  return (← Wire.readExpr.run' bytes).toExpr

/-- The list of expressions that bytes start with. -/
def Expr.decodeList (bytes : List UInt8) : Except Wire.DecodeError (List (Expr k)) :=
  return (← Wire.readExprs.run' bytes).map Stored.Expr.toExpr

/-- The bytes a polynomial in point-value form is written in. -/
def Stored.PointValues.encode (p : Stored.PointValues k) : List UInt8 := Wire.pointValuesBytes p

/-- The polynomial in point-value form that bytes start with. -/
def Stored.PointValues.decode (bytes : List UInt8) :
    Except Wire.DecodeError (Stored.PointValues k) :=
  Wire.readPointValues.run' bytes

end Plonkish
