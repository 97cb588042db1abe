import Plonkish.Expr.Digest
import Plonkish.Wire.Codec

/-!
# Hashed forms — values as they are kept

The types in `Hashed` are the values that are held in memory: beside its contents, every node keeps
the digest that was formed when the node was made.  A digest is a field like the others, and so is
the list of variables of a term; nothing in the types says that the digest is the one of the
contents, or that the variables are in order.  `Hashed.Expr.Fresh` says both, at every node.

Nodes are only made by `Hashed.Term.new`, `Hashed.Expr.ofTerm`, `Hashed.Expr.ofPow` and
`Hashed.Expr.ofBinop`, which form the digest of the node from the digests that its parts keep.
`Expr.hashed` is an expression with all its digests; these are the fresh ones, and no others
(`Hashed.Expr.fresh_iff`).

Digests are not written (`Expr.stored_hashed`).  Decoding makes every node again, from the leaves up
(`Stored.Expr.toHashed`), which gives the expression that is read with all its digests
(`Stored.Expr.toHashed_eq`).
-/

namespace Plonkish

namespace Hashed

/-- A monomial with its digest. -/
structure Term (k : BaseField) where
  /-- The coefficient. -/
  coeff : Word k
  /-- The variables, a power repeated. -/
  vars : List Variable
  /-- The digest that is kept. -/
  digest : UInt64
deriving Repr

/-- An expression with a digest at each node. -/
inductive Expr (k : BaseField) where
  /-- A monomial. -/
  | term (t : Term k) (digest : UInt64)
  /-- A power. -/
  | pow (base : Expr k) (power : UInt32) (digest : UInt64)
  /-- An operation on two expressions. -/
  | binop (lhs rhs : Expr k) (op : Operator) (digest : UInt64)
deriving Repr

variable {k : BaseField}

/-! ### Making nodes -/

/-- The product of a coefficient and a list of variables, in normal form. -/
def Term.new (D : Digesting k) (coeff : Word k) (vars : List Variable) : Term k :=
  let kept := Plonkish.Term.normalVars coeff vars
  ⟨coeff, kept, D.term coeff.key kept⟩

namespace Expr

/-- The digest that the root keeps. -/
def digest : Expr k → UInt64
  | term _ digest => digest
  | pow _ _ digest => digest
  | binop _ _ _ digest => digest

/-- The expression of a term, which keeps the digest of the term. -/
def ofTerm (t : Term k) : Expr k := term t t.digest

/-- The power of an expression. -/
def ofPow (D : Digesting k) (base : Expr k) (power : UInt32) : Expr k :=
  pow base power (D.pow base.digest power)

/-- The operation on two expressions. -/
def ofBinop (D : Digesting k) (lhs rhs : Expr k) (op : Operator) : Expr k :=
  binop lhs rhs op (D.binop lhs.digest rhs.digest op)

end Expr

/-! ### Fresh digests -/

/-- The term is in normal form, and its digest is the one of its contents. -/
structure Term.Fresh (D : Digesting k) (t : Term k) : Prop where
  /-- The variables are in order. -/
  sorted : t.vars.Pairwise (· ≤ ·)
  /-- The zero term has no variables. -/
  vars_eq_nil : t.coeff == 0 → t.vars = []
  /-- The digest is the one of the coefficient and the variables. -/
  digest_eq : t.digest = D.term t.coeff.key t.vars

/-- The terms are in normal form, and at each node the digest is the one of what is below. -/
def Expr.Fresh (D : Digesting k) : Expr k → Prop
  | term t digest => t.Fresh D ∧ digest = t.digest
  | pow base power digest => base.Fresh D ∧ digest = D.pow base.digest power
  | binop lhs rhs op digest =>
    lhs.Fresh D ∧ rhs.Fresh D ∧ digest = D.binop lhs.digest rhs.digest op

end Hashed

variable {k : BaseField}

/-- The term with its digest. -/
def Term.hashed (D : Digesting k) (t : Term k) : Hashed.Term k :=
  ⟨t.coeff, t.vars, D.term t.coeff.key t.vars⟩

/-- The expression with all its digests. -/
def Expr.hashed (D : Digesting k) : Expr k → Hashed.Expr k
  | term t => .ofTerm (t.hashed D)
  | pow base power => .ofPow D (base.hashed D) power
  | binop lhs rhs op => .ofBinop D (lhs.hashed D) (rhs.hashed D) op

/-- The root keeps the digest of the tree. -/
@[simp] theorem Expr.digest_hashed (D : Digesting k) (e : Expr k) :
    (e.hashed D).digest = e.digest D := by
  induction e with
  | term t => rfl
  | pow base power ih => exact congrArg (D.pow · power) ih
  | binop lhs rhs op ihl ihr => rw [digest, ← ihl, ← ihr]; rfl

theorem Term.fresh_hashed (D : Digesting k) (t : Term k) : (t.hashed D).Fresh D :=
  ⟨t.sorted, t.vars_eq_nil, rfl⟩

/-- **Digests are fresh** when they are formed together with the nodes. -/
theorem Expr.fresh_hashed (D : Digesting k) (e : Expr k) : (e.hashed D).Fresh D := by
  induction e with
  | term t => exact ⟨t.fresh_hashed D, rfl⟩
  | pow base power ih => exact ⟨ih, rfl⟩
  | binop lhs rhs op ihl ihr => exact ⟨ihl, ihr, rfl⟩

/-- The fresh terms are those whose digest is formed with them. -/
theorem Hashed.Term.fresh_iff {D : Digesting k} {t : Hashed.Term k} :
    t.Fresh D ↔ ∃ u : Plonkish.Term k, u.hashed D = t := by
  constructor
  · intro h
    refine ⟨⟨t.coeff, t.vars, h.sorted, h.vars_eq_nil⟩, ?_⟩
    rw [Plonkish.Term.hashed, ← h.digest_eq]
  · rintro ⟨u, rfl⟩
    exact u.fresh_hashed D

/-- The fresh expressions are those whose digests are formed with their nodes. -/
theorem Hashed.Expr.fresh_iff {D : Digesting k} {e : Hashed.Expr k} :
    e.Fresh D ↔ ∃ a : Plonkish.Expr k, a.hashed D = e := by
  refine ⟨fun h => ?_, fun ⟨a, ha⟩ => ha ▸ a.fresh_hashed D⟩
  induction e with
  | term t digest =>
    obtain ⟨u, rfl⟩ := Term.fresh_iff.mp h.1
    exact ⟨.term u, by rw [h.2]; rfl⟩
  | pow base power digest ih =>
    obtain ⟨a, rfl⟩ := ih h.1
    exact ⟨.pow a power, by rw [h.2]; rfl⟩
  | binop lhs rhs op digest ihl ihr =>
    obtain ⟨a, rfl⟩ := ihl h.1
    obtain ⟨b, rfl⟩ := ihr h.2.1
    exact ⟨.binop a b op, by rw [h.2.2]; rfl⟩

/-! ### Writing and reading -/

namespace Hashed

/-- The term as it is written, without its digest. -/
def Term.stored (t : Term k) : Stored.Term k := ⟨t.coeff, t.vars⟩

/-- The expression as it is written, without its digests. -/
def Expr.stored : Expr k → Stored.Expr k
  | term t _ => .term t.stored
  | pow base power _ => .pow base.stored power
  | binop lhs rhs op _ => .binop lhs.stored rhs.stored op

/-- The bytes a term is written in. -/
def Term.encode (t : Term k) : List UInt8 := Wire.termBytes t.stored

/-- The bytes an expression is written in. -/
def Expr.encode (e : Expr k) : List UInt8 := Wire.exprOnto e.stored []

/-- The bytes a list of expressions is written in. -/
def Expr.encodeList (l : List (Expr k)) : List UInt8 := Wire.exprsBytes (l.map Expr.stored)

end Hashed

/-- Digests leave no trace in what is written. -/
@[simp] theorem Expr.stored_hashed (D : Digesting k) (e : Expr k) :
    (e.hashed D).stored = e.stored := by
  induction e with
  | term t => rfl
  | pow base power ih => rw [stored, ← ih]; rfl
  | binop lhs rhs op ihl ihr => rw [stored, ← ihl, ← ihr]; rfl

namespace Stored

/-- The term that is made of a stored one. -/
def Term.toHashed (D : Digesting k) (t : Term k) : Hashed.Term k := .new D t.coeff t.vars

/-- The expression that is made of a stored one, from the leaves up. -/
def Expr.toHashed (D : Digesting k) : Expr k → Hashed.Expr k
  | term t => .ofTerm (t.toHashed D)
  | pow base power => .ofPow D (base.toHashed D) power
  | binop lhs rhs op => .ofBinop D (lhs.toHashed D) (rhs.toHashed D) op

theorem Term.toHashed_eq (D : Digesting k) (t : Term k) : t.toHashed D = t.toTerm.hashed D := rfl

/-- Making a stored expression gives the expression that it denotes, with all its digests. -/
theorem Expr.toHashed_eq (D : Digesting k) (e : Expr k) : e.toHashed D = e.toExpr.hashed D := by
  induction e with
  | term t => rfl
  | pow base power ih => exact congrArg (Hashed.Expr.ofPow D · power) ih
  | binop lhs rhs op ihl ihr => rw [toHashed, ihl, ihr]; rfl

end Stored

namespace Hashed

/-- The term that bytes start with, with its digest. -/
def Term.decode (D : Digesting k) (bytes : List UInt8) : Except Wire.DecodeError (Term k) :=
  return (← Wire.readTerm.run' bytes).toHashed D

/-- The expression that bytes start with, with all its digests. -/
def Expr.decode (D : Digesting k) (bytes : List UInt8) : Except Wire.DecodeError (Expr k) :=
  return (← Wire.readExpr.run' bytes).toHashed D

/-- The list of expressions that bytes start with, with all their digests. -/
def Expr.decodeList (D : Digesting k) (bytes : List UInt8) :
    Except Wire.DecodeError (List (Expr k)) :=
  return (← Wire.readExprs.run' bytes).map (Stored.Expr.toHashed D)

end Hashed

end Plonkish
