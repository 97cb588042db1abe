import Plonkish.Fault

/-!
# Domains — subgroups of order a power of two

A `Domain k` is the subgroup of order `2 ^ log` of the multiplicative group of the field `k`,
listed as the powers of `omega`.  Its order is at most the two-adicity allows, so the subgroup
exists.

* `Domain.element d i` is `omega ^ i`; the exponent is taken modulo the order.
* `Domain.rotationFactor d r` is `omega ^ r` for a signed `r`: multiplying the points of the
  domain by it moves each of them `r` places on.
* `Domain.elements` lists the subgroup in the order of the exponents.
-/

namespace Plonkish

/-- A subgroup of order a power of two of the multiplicative group of `k`. -/
structure Domain (k : BaseField) where
  /-- The logarithm of the order. -/
  log : Nat
  /-- The field has a subgroup of this order. -/
  log_le : log ≤ k.twoAdicity
deriving DecidableEq, Repr

namespace Domain

variable {k : BaseField}

/-- The domain of a given order. -/
def ofSize (k : BaseField) (size : Nat) : Except Fault (Domain k) :=
  if ¬ Count.IsPowerOfTwo size then .error (.domainSize size)
  else if h : size.log2 ≤ k.twoAdicity then .ok ⟨size.log2, h⟩
  else .error (.noSubgroup k size.log2)

/-- The number of points. -/
def size (d : Domain k) : Nat := 1 <<< d.log

/-- The generator. -/
def omega (d : Domain k) : Felt k := k.generator d.log

/-- The point `omega ^ i`. -/
def element (d : Domain k) (i : Nat) : Felt k := d.omega ^ (i % d.size)

/-- The point `omega ^ rotation`. -/
def rotationFactor (d : Domain k) (rotation : Int) : Felt k :=
  d.element (rotation % d.size).toNat

/-- The points, from `1` on, each `omega` times the one before. -/
def elements (d : Domain k) : List (Felt k) := d.omega.geometric 1 d.size

theorem size_pos (d : Domain k) : 0 < d.size := by
  rw [size, Nat.one_shiftLeft]
  exact Nat.two_pow_pos _

theorem length_elements (d : Domain k) : d.elements.length = d.size := by simp [elements]

theorem size_of_ofSize {size : Nat} {d : Domain k} (h : ofSize k size = .ok d) :
    d.size = size := by
  unfold ofSize at h
  split at h
  · cases h
  · next hp =>
    split at h
    · cases h
      exact Decidable.not_not.mp hp
    · cases h

end Domain

end Plonkish
