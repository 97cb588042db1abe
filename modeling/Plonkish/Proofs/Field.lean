import Mathlib.FieldTheory.Finite.Basic
import Mathlib.NumberTheory.LucasPrimality
import Mathlib.RingTheory.RootsOfUnity.PrimitiveRoots
import Mathlib.Tactic.NormNum.Prime
import Plonkish.Field.Basic

/-!
# Proofs — the two base fields are fields

`Felt k` is the ring of residues modulo `k.order` (`residue`), with the operations of `Felt` as they
are defined; in particular `a ^ n` is `Felt.pow`.  Both orders are prime, so it is a field, with
`Felt.inverse` for the inverse.

* `BaseField.prime_order`: Lucas's test, with the powers it asks for computed by `Felt.pow`.
* `instField`: the field.
* `BaseField.isPrimitiveRoot_generator`: `k.generator b` has order `2 ^ b`, for `b` up to the
  two-adicity.
-/

namespace Plonkish

namespace Felt

variable {k : BaseField}

/-! ### The ring of residues -/

/-- The residue of an element. -/
def residue (a : Felt k) : ZMod k.order := a.val

theorem residue_ofNat (n : Nat) : (ofNat n : Felt k).residue = n := by simp [residue]

/-- An element is determined by its residue, since it is reduced. -/
theorem residue_injective : Function.Injective (residue : Felt k → ZMod k.order) := by
  intro a b h
  have hmod := (ZMod.natCast_eq_natCast_iff' a.val b.val k.order).mp h
  rw [Nat.mod_eq_of_lt a.val_lt, Nat.mod_eq_of_lt b.val_lt] at hmod
  exact Felt.ext hmod

/-- A sum that is not below the order loses it once. -/
theorem residue_add (a b : Felt k) : (a + b).residue = a.residue + b.residue := by
  have h : (a + b).residue = ((a.val + b.val : Nat) : ZMod k.order) := residue_ofNat _
  rw [h, Nat.cast_add, residue, residue]

theorem residue_mul (a b : Felt k) : (a * b).residue = a.residue * b.residue := by
  have h : (a * b).residue = ((a.val * b.val : Nat) : ZMod k.order) := residue_ofNat _
  rw [h, Nat.cast_mul, residue, residue]

/-- The complement to the order stands for the opposite. -/
theorem residue_complement (a : Felt k) :
    ((k.order - a.val : Nat) : ZMod k.order) = -a.residue := by
  rw [Nat.cast_sub (Nat.le_of_lt a.val_lt), ZMod.natCast_self, zero_sub, residue]

/-- The opposite of zero is zero and not the order. -/
theorem residue_neg (a : Felt k) : (-a).residue = -a.residue :=
  (residue_ofNat (k.order - a.val)).trans (residue_complement a)

theorem residue_sub (a b : Felt k) : (a - b).residue = a.residue - b.residue := by
  have h : (a - b).residue = ((a.val + (k.order - b.val) : Nat) : ZMod k.order) := residue_ofNat _
  rw [h, Nat.cast_add, residue_complement, ← sub_eq_add_neg, residue, residue]

/-- From the highest digit on, the power is squared, and multiplied where the digit is one. -/
theorem residue_powDigits (digits : Nat) (a : Felt k) (n : Nat) (h : n < 2 ^ digits) :
    (powDigits digits a n).residue = a.residue ^ n := by
  induction digits generalizing a n with
  | zero =>
      obtain rfl : n = 0 := by simpa using h
      rw [pow_zero]
      exact (residue_ofNat 1).trans Nat.cast_one
  | succ digits ih =>
      have hrest : (powDigits digits a.square (n / 2)).residue = a.residue ^ (2 * (n / 2)) := by
        rw [ih _ _ (by rw [pow_succ] at h; omega), square, residue_mul, ← pow_two, ← pow_mul]
      rw [powDigits]
      split
      · next hodd =>
          rw [residue_mul, hrest, ← pow_succ']
          congr 1
          omega
      · next heven =>
          rw [hrest]
          congr 1
          omega

theorem residue_pow (a : Felt k) (n : Nat) : (a ^ n).residue = a.residue ^ n :=
  residue_powDigits _ a n Nat.lt_log2_self

instance : NatCast (Felt k) := ⟨ofNat⟩

instance : IntCast (Felt k) := ⟨ofInt⟩

/-- A negative number is the opposite of its absolute value. -/
theorem residue_ofInt (n : Int) : (ofInt n : Felt k).residue = n := by
  unfold ofInt
  split
  · next hneg =>
      have hle : n.natAbs % k.order ≤ k.order := (Nat.mod_lt _ k.order_pos).le
      rw [residue_ofNat, Nat.cast_sub hle, ZMod.natCast_self, ZMod.natCast_mod, zero_sub,
        ← Int.cast_natCast, Int.ofNat_natAbs_of_nonpos hneg.le, Int.cast_neg, neg_neg]
  · next hpos =>
      rw [residue_ofNat, ← Int.cast_natCast, Int.natAbs_of_nonneg (not_lt.mp hpos)]

instance : SMul Nat (Felt k) := ⟨fun n a => ofNat n * a⟩

instance : SMul Int (Felt k) := ⟨fun n a => ofInt n * a⟩

instance : CommRing (Felt k) :=
  residue_injective.commRing residue ((residue_ofNat 0).trans Nat.cast_zero)
    ((residue_ofNat 1).trans Nat.cast_one) residue_add residue_mul residue_neg residue_sub
    (fun n a => by
      rw [nsmul_eq_mul, ← residue_ofNat n]
      exact residue_mul _ a)
    (fun n a => by
      rw [zsmul_eq_mul, ← residue_ofInt n]
      exact residue_mul _ a)
    residue_pow residue_ofNat residue_ofInt

/-- Residues as a homomorphism of rings. -/
def residueHom (k : BaseField) : Felt k →+* ZMod k.order where
  toFun := residue
  map_zero' := (residue_ofNat 0).trans Nat.cast_zero
  map_one' := (residue_ofNat 1).trans Nat.cast_one
  map_add' := residue_add
  map_mul' := residue_mul

theorem residue_ne_zero {a : Felt k} (h : a ≠ 0) : a.residue ≠ 0 :=
  (map_ne_zero_iff (residueHom k) residue_injective).mpr h

end Felt

/-! ### The orders are prime -/

namespace BaseField

/-- The representative of a generator of the multiplicative group. -/
def groupGenerator : BaseField → Nat
  | goldilocks => 7
  | babyBear => 31

/-- The prime divisors of the order of the multiplicative group. -/
def groupPrimes : BaseField → List Nat
  | goldilocks => [2, 3, 5, 17, 257, 65537]
  | babyBear => [2, 3, 5]

/-- The list has all primes that divide the order of the multiplicative group. -/
theorem mem_groupPrimes {k : BaseField} {q : Nat} (hq : q.Prime) (h : q ∣ k.order - 1) :
    q ∈ k.groupPrimes := by
  have one {p e : Nat} (hp : p.Prime) (h : q ∣ p ^ e) : q = p :=
    (Nat.prime_dvd_prime_iff_eq hq hp).mp (hq.dvd_of_dvd_pow h)
  cases k with
  | goldilocks =>
      have hfactor : goldilocks.order - 1 = 2 ^ 32 * 3 ^ 1 * 5 ^ 1 * 17 ^ 1 * 257 ^ 1 *
          65537 ^ 1 := by
        decide
      rw [hfactor] at h
      simp only [hq.dvd_mul] at h
      rcases h with ((((h | h) | h) | h) | h) | h <;> rw [one (by norm_num) h] <;> decide
  | babyBear =>
      have hfactor : babyBear.order - 1 = 2 ^ 27 * 3 ^ 1 * 5 ^ 1 := by decide
      rw [hfactor] at h
      simp only [hq.dvd_mul] at h
      rcases h with (h | h) | h <;> rw [one (by norm_num) h] <;> decide

/-- The generator has an order that divides that of the group. -/
theorem groupGenerator_pow (k : BaseField) :
    (Felt.ofNat k.groupGenerator : Felt k).pow (k.order - 1) = 1 := by
  cases k <;> decide

/-- No prime can be taken out of the order of the generator. -/
theorem groupGenerator_pow_ne (k : BaseField) {q : Nat} (h : q ∈ k.groupPrimes) :
    (Felt.ofNat k.groupGenerator : Felt k).pow ((k.order - 1) / q) ≠ 1 := by
  cases k with
  | goldilocks =>
      have : ∀ q ∈ goldilocks.groupPrimes,
        (Felt.ofNat 7 : Felt goldilocks).pow ((goldilocks.order - 1) / q) ≠ 1 := by decide
      exact this q h
  | babyBear =>
      have : ∀ q ∈ babyBear.groupPrimes,
        (Felt.ofNat 31 : Felt babyBear).pow ((babyBear.order - 1) / q) ≠ 1 := by decide
      exact this q h

/-- **The orders are prime**, by Lucas's test. -/
theorem prime_order (k : BaseField) : k.order.Prime := by
  have hone : (1 : Felt k).residue = 1 := map_one (Felt.residueHom k)
  refine lucas_primality k.order (Felt.ofNat k.groupGenerator : Felt k).residue ?_ ?_
  · rw [← Felt.residue_pow, ← hone]
    exact congrArg Felt.residue k.groupGenerator_pow
  · intro q hq hd h
    rw [← Felt.residue_pow, ← hone] at h
    exact k.groupGenerator_pow_ne (mem_groupPrimes hq hd) (Felt.residue_injective h)

instance (k : BaseField) : Fact k.order.Prime := ⟨k.prime_order⟩

end BaseField

/-! ### Fields -/

namespace Felt

variable {k : BaseField}

instance : Nontrivial (Felt k) :=
  ⟨0, 1, fun h => Nat.zero_ne_one (val_zero.symm.trans ((congrArg val h).trans val_one))⟩

/-- Raising to the order less two gives the inverse, by Fermat. -/
theorem mul_inverse {a : Felt k} (h : a ≠ 0) : a * a.inverse = 1 := by
  apply residue_injective
  have hexp : k.order - 2 + 1 = k.order - 1 := by have := k.two_lt_order; omega
  calc (a * a.pow (k.order - 2)).residue
      = a.residue * a.residue ^ (k.order - 2) := by
        rw [residue_mul]; exact congrArg _ (residue_pow a _)
    _ = a.residue ^ (k.order - 1) := by rw [← pow_succ', hexp]
    _ = 1 := ZMod.pow_card_sub_one_eq_one (residue_ne_zero h)
    _ = (1 : Felt k).residue := (map_one (residueHom k)).symm

/-- The power of zero is zero. -/
theorem inverse_zero : (0 : Felt k).inverse = 0 := by
  show (0 : Felt k) ^ (k.order - 2) = 0
  exact zero_pow (Nat.sub_ne_zero_of_lt k.two_lt_order)

instance : Inv (Felt k) := ⟨inverse⟩

instance instField : Field (Felt k) where
  inv_zero := inverse_zero
  mul_inv_cancel _ := mul_inverse
  exists_pair_ne := Nontrivial.exists_pair_ne
  nnqsmul := _
  nnqsmul_def _ _ := rfl
  qsmul := _
  qsmul_def _ _ := rfl

@[simp] theorem inverse_eq_inv (a : Felt k) : a.inverse = a⁻¹ := rfl

@[simp] theorem ofNat_eq_cast (n : Nat) : (ofNat n : Felt k) = n := rfl

@[simp] theorem pow_eq_pow (a : Felt k) (n : Nat) : a.pow n = a ^ n := rfl

theorem square_eq (a : Felt k) : a.square = a ^ 2 := (pow_two a).symm

/-- A number is zero in the field if the order divides it. -/
theorem ofNat_eq_zero_iff (n : Nat) : (n : Felt k) = 0 ↔ k.order ∣ n := by
  rw [← map_eq_zero (residueHom k), map_natCast, ZMod.natCast_eq_zero_iff]

end Felt

/-! ### Generators -/

namespace BaseField

variable {k : BaseField}

/-- Squaring so many times raises to the power of two. -/
theorem repeat_square (a : Felt k) (n : Nat) : Nat.repeat Felt.square n a = a ^ 2 ^ n := by
  induction n with
  | zero => rw [pow_zero, pow_one, Nat.repeat]
  | succ n ih => rw [Nat.repeat, ih, Felt.square_eq, ← pow_mul, pow_succ]

/-- The generators of the smaller groups are powers of the largest one. -/
theorem generator_eq (k : BaseField) (bits : Nat) :
    k.generator bits = (k.root : Felt k) ^ 2 ^ (k.twoAdicity - bits) :=
  repeat_square _ _

/-- The root has exactly the order that it is listed with. -/
theorem isPrimitiveRoot_root (k : BaseField) :
    IsPrimitiveRoot (k.root : Felt k) (2 ^ k.twoAdicity) := by
  have hsucc : k.twoAdicity = k.twoAdicity - 1 + 1 := by cases k <;> rfl
  rw [IsPrimitiveRoot.iff_orderOf, hsucc]
  refine orderOf_eq_prime_pow ?_ ?_
  · cases k <;> decide
  · cases k <;> decide

/-- **Generators** have the order they are named for. -/
theorem isPrimitiveRoot_generator {bits : Nat} (h : bits ≤ k.twoAdicity) :
    IsPrimitiveRoot (k.generator bits) (2 ^ bits) := by
  rw [generator_eq]
  refine (isPrimitiveRoot_root k).pow (by positivity) ?_
  rw [← pow_add, Nat.sub_add_cancel h]

/-- A generator is the power of any larger one. -/
theorem generator_pow {b c : Nat} (hbc : b ≤ c) (hc : c ≤ k.twoAdicity) :
    k.generator c ^ 2 ^ (c - b) = k.generator b := by
  rw [generator_eq, generator_eq, ← pow_mul, ← pow_add]
  congr 2
  omega

end BaseField

end Plonkish
