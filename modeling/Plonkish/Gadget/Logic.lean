import Plonkish.Expr.Basic
import Plonkish.Gadget.Layout

/-!
# Gadgets — logic

An operation on truth values, written as zero and one, takes one row: the inputs in the first
columns and the result in the next.  `Logic.equation` is the equation between the columns `w 0`,
`w 1`, …, and `Logic.result` computes the result from the inputs.

Both are polynomials that agree with the operation on zero and one, except that selection reads its
condition as a truth value: any nonzero condition selects the second input.
-/

namespace Plonkish

/-- The operations on truth values. -/
inductive Logic where
  /-- Negation. -/
  | not
  /-- Conjunction. -/
  | and
  /-- Disjunction. -/
  | or
  /-- Exclusive disjunction. -/
  | xor
  /-- Negated conjunction. -/
  | nand
  /-- Negated disjunction. -/
  | nor
  /-- The second input if the first holds, and the third otherwise. -/
  | select
deriving DecidableEq, Repr

namespace Logic

variable {k : BaseField}

/-- All operations. -/
def all : List Logic := [not, and, or, xor, nand, nor, select]

/-- The name of an operation. -/
def name : Logic → String
  | not => "logic_not"
  | and => "logic_and"
  | or => "logic_or"
  | xor => "logic_xor"
  | nand => "logic_nand"
  | nor => "logic_nor"
  | select => "logic_select"

/-- The number of inputs. -/
def arity : Logic → Nat
  | not => 1
  | and | or | xor | nand | nor => 2
  | select => 3

/-- The disjunction of two columns. -/
def disjunction (x y : Expr k) : Expr k := x + y - x * y

/-- The expression that vanishes where the column after the inputs holds the result. -/
def equation (w : Nat → Expr k) : Logic → Expr k
  | not => .constant 1 - w 0 - w 1
  | and => w 2 - w 0 * w 1
  | or => w 2 - disjunction (w 0) (w 1)
  | xor => w 2 - (w 0 + w 1 - .constant (.ofNat 2) * w 0 * w 1)
  | nand => w 2 - (.constant 1 - w 0 * w 1)
  | nor => w 2 - (.constant 1 - disjunction (w 0) (w 1))
  | select => w 3 - (w 0 * w 1 + (.constant 1 - w 0) * w 2)

/-- The equation between given expressions, of which there have to be enough. -/
def equationOn (op : Logic) (columns : List (Expr k)) : Except Fault (Expr k) :=
  if columns.length ≤ op.arity then .error .indexOutOfRange
  else .ok (op.equation fun i => columns.getD i .zero)

/-- The result for given inputs, as far as it depends on them. -/
def result : Logic → List (Felt k) → Except Fault (Felt k)
  | not, x :: _ => .ok (1 - x)
  | and, x :: y :: _ => .ok (x * y)
  | or, x :: y :: _ => .ok (x + y - x * y)
  | xor, x :: y :: _ => .ok (x + y - .ofNat 2 * x * y)
  | nand, x :: y :: _ => .ok (1 - x * y)
  | nor, x :: y :: _ => .ok (1 - (x + y - x * y))
  | select, x :: inputs =>
    match inputs[if x = 0 then 1 else 0]? with
    | some a => .ok a
    | none => .error .indexOutOfRange
  | _, _ => .error .indexOutOfRange

end Logic

end Plonkish
