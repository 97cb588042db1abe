import Plonkish.Expr.Basic
import Plonkish.SipHash

/-!
# Expressions — digests

A `Digesting k` computes a 64-bit digest of a term and combines digests at a node.
`Expr.digest` is the digest of a tree.  `Expr.sameBy` compares two trees and their digests, at every
node from the leaves up.  The same trees have the same digest (`Expr.digest_eq_of_same`), so digests
never tell them apart (`Expr.sameBy_eq_same`), however they are formed.
-/

namespace Plonkish

/-- How digests are formed. -/
structure Digesting (k : BaseField) where
  /-- The digest of a monomial, from the key of its coefficient. -/
  term : Nat → List Variable → UInt64
  /-- The digest of a power of a tree with a given digest. -/
  pow : UInt64 → UInt32 → UInt64
  /-- The digest of an operation on two trees with given digests. -/
  binop : UInt64 → UInt64 → Operator → UInt64

/-- The words that name a variable. -/
def Variable.words (v : Variable) : List UInt64 :=
  [UInt64.ofNat v.kind.tag, v.index.toUInt64, v.rotation.toUInt32.toUInt64, v.relative.toUInt64]

/-- The digests that hash tables of expressions use.  A monomial has two words and four for each
variable, a power three and an operation four, so that no two of them have the same words. -/
def Digesting.standard (k : BaseField) : Digesting k where
  term c vars :=
    SipHash.hash (UInt64.ofNat c :: UInt64.ofNat vars.length :: vars.flatMap Variable.words)
  pow base power := SipHash.hash [1, base, power.toUInt64]
  binop lhs rhs op := SipHash.hash [2, lhs, rhs, UInt64.ofNat op.tag]

namespace Expr

variable {k : BaseField}

/-- The digest of a tree. -/
def digest (D : Digesting k) : Expr k → UInt64
  | term t => D.term t.coeff.key t.vars
  | pow base power => D.pow (base.digest D) power
  | binop lhs rhs op => D.binop (lhs.digest D) (rhs.digest D) op

/-- The digests of two trees, and whether the trees and all digests in them are the same. -/
def compareBy (D : Digesting k) : Expr k → Expr k → UInt64 × UInt64 × Bool
  | term t, term u =>
    let x := (term t).digest D
    let y := (term u).digest D
    (x, y, x == y && t == u)
  | pow a m, pow b n =>
    let (x, y, same) := compareBy D a b
    let x := D.pow x m
    let y := D.pow y n
    (x, y, x == y && (same && m == n))
  | binop a b o, binop c d p =>
    let (x₁, y₁, same₁) := compareBy D a c
    let (x₂, y₂, same₂) := compareBy D b d
    let x := D.binop x₁ x₂ o
    let y := D.binop y₁ y₂ p
    (x, y, x == y && (same₁ && same₂ && o == p))
  | a, b => (a.digest D, b.digest D, false)

/-- Whether two trees and all digests in them are the same. -/
def sameBy (D : Digesting k) (a b : Expr k) : Bool := (compareBy D a b).2.2

theorem digest_eq_of_same (D : Digesting k) {a b : Expr k} (h : a.same b) :
    a.digest D = b.digest D := by
  fun_induction same a b with
  | case1 t u =>
    have ht := Term.beq_iff.mp h
    simp [digest, Word.beq_iff.mp ht.1, ht.2]
  | case2 a m b n ih =>
    simp only [Bool.and_eq_true, beq_iff_eq] at h
    simp [digest, ih h.1, h.2]
  | case3 a₁ a₂ o b₁ b₂ p ih₁ ih₂ =>
    simp only [Bool.and_eq_true, beq_iff_eq] at h
    simp [digest, ih₁ h.1.1, ih₂ h.1.2, h.2]
  | case4 => exact absurd h Bool.false_ne_true

/-- The digests add nothing to the comparison of two trees. -/
theorem digest_beq_and_same (D : Digesting k) (a b : Expr k) :
    (a.digest D == b.digest D && a.same b) = a.same b := by
  cases h : a.same b with
  | false => rw [Bool.and_false]
  | true => rw [digest_eq_of_same D h, beq_self_eq_true, Bool.and_true]

theorem compareBy_eq (D : Digesting k) (a b : Expr k) :
    a.compareBy D b = (a.digest D, b.digest D, a.same b) := by
  fun_induction same a b with
  | case1 t u => exact congrArg (Prod.mk _ ∘ Prod.mk _) (digest_beq_and_same D (term t) (term u))
  | case2 a m b n ih =>
    rw [compareBy, ih]
    exact congrArg (Prod.mk _ ∘ Prod.mk _) (digest_beq_and_same D (pow a m) (pow b n))
  | case3 a₁ a₂ o b₁ b₂ p ih₁ ih₂ =>
    rw [compareBy, ih₁, ih₂]
    exact congrArg (Prod.mk _ ∘ Prod.mk _) (digest_beq_and_same D (binop a₁ a₂ o) (binop b₁ b₂ p))
  | case4 a b ht hp hb => exact compareBy.eq_4 D a b ht hp hb

/-- Comparing digests too does not change the outcome. -/
theorem sameBy_eq_same (D : Digesting k) (a b : Expr k) : a.sameBy D b = a.same b := by
  rw [sameBy, compareBy_eq]

instance : Hashable (Expr k) := ⟨digest (.standard k)⟩

instance : LawfulHashable (Expr k) where
  hash_eq _ _ := digest_eq_of_same (.standard k)

end Expr

end Plonkish
