import Plonkish.Field.Scalar
import Plonkish.Proofs.Field

/-!
# Proofs — proper words and the scalars of elements

A word is `Proper` if it is equal to the other proper words of its element.  Over Goldilocks all
words are, and over BabyBear the reduced ones.  The words of elements are proper
(`Word.proper_word`), and operators keep to proper words (`Word.closed_proper`), but a word that is
read need not be one.

`Felt.scalar` embeds the field in the scalars.  Its image are the scalars of proper words
(`Word.scalar_eq_scalar_felt`), where the operations on scalars are those of the field:
`Felt.scalar_add`, `Felt.scalar_sub`, `Felt.scalar_mul` and `Felt.scalar_pow`.
-/

namespace Plonkish

variable {k : BaseField}

/-! ### Proper words -/

namespace Word

/-- Words that are equal if they stand for the same element: over BabyBear the reduced ones. -/
def Proper : {k : BaseField} → Word k → Prop
  | .goldilocks, _ => True
  | .babyBear, w => w.bits < BaseField.babyBear.order

/-- What the operators on terms make of words from a set is in the set. -/
structure Closed (P : Word k → Prop) : Prop where
  /-- The coefficient of the empty expression. -/
  zero : P 0
  /-- The coefficient of a variable. -/
  one : P 1
  /-- The coefficient of a product. -/
  mul {v w : Word k} : P v → P w → P (v * w)
  /-- The coefficient of a negation. -/
  neg {w : Word k} : P w → P (-w)

/-- The words of elements are proper. -/
theorem proper_word (a : Felt k) : a.word.Proper := by
  cases k with
  | goldilocks => trivial
  | babyBear => exact Nat.mod_lt _ (BaseField.order_pos _)

/-- The product of reduced words is reduced. -/
theorem foldLow_lt_order {x : Nat} (h : x < BaseField.babyBear.order * 0x100000000) :
    foldLow x < BaseField.babyBear.order := by
  have hmod := foldLow_multiple_mod x
  simp only [foldLow]
  generalize ht : x * lowInverse % 0x100000000 = t at hmod ⊢
  have hlt : t < 0x100000000 := ht ▸ Nat.mod_lt _ (by decide)
  split <;> simp only [BaseField.order] at * <;> omega

/-- A reduced word has a reduced negative. -/
theorem proper_neg {w : Word k} (h : w.Proper) : (-w).Proper := by
  cases k with
  | goldilocks => trivial
  | babyBear =>
      have hlt : w.bits < 2013265921 := h
      show (if w.bits = 0 then w else ofBits (2013265921 + 0x100000000 - w.bits)).bits < 2013265921
      split
      · exact hlt
      · show (2013265921 + 0x100000000 - w.bits) % 0x100000000 < 2013265921
        omega

/-- Operators keep to proper words. -/
theorem closed_proper : Closed (Proper (k := k)) where
  zero := by
    cases k with
    | goldilocks => trivial
    | babyBear => exact (by decide : (0 : Word .babyBear).bits < BaseField.babyBear.order)
  one := proper_word 1
  mul {v w} hv hw := by
    cases k with
    | goldilocks => trivial
    | babyBear =>
        have hlt : v.bits * w.bits < BaseField.babyBear.order * 0x100000000 :=
          (Nat.mul_lt_mul'' hv hw).trans_le (Nat.mul_le_mul_left _ (by decide))
        exact (Nat.mod_le _ _).trans_lt (foldLow_lt_order hlt)
  neg := proper_neg

/-- A reduced word is the word of its element. -/
theorem word_felt {w : Word .babyBear} (h : w.Proper) : w.felt.word = w := by
  have hone := BaseField.babyBear.wordOne_mul_wordUnit
  apply Word.ext
  show w.bits * BaseField.babyBear.wordUnit % _ * BaseField.babyBear.wordOne % _ = w.bits
  rw [Nat.mod_mul_mod, Nat.mul_assoc, Nat.mul_comm BaseField.babyBear.wordUnit, Nat.mul_mod, hone,
    Nat.mul_one, Nat.mod_mod]
  exact Nat.mod_eq_of_lt h

/-- Proper words are equal exactly if they stand for the same element. -/
theorem beq_iff_felt_eq {v w : Word k} (hv : v.Proper) (hw : w.Proper) :
    v == w ↔ v.felt = w.felt := by
  refine ⟨felt_eq_of_beq, fun h => ?_⟩
  rw [beq_iff]
  cases k with
  | goldilocks =>
      have hval := congrArg Felt.val h
      simp only [felt, Felt.val_ofNat, BaseField.wordUnit, Nat.mul_one] at hval
      exact hval
  | babyBear =>
      show v.bits = w.bits
      rw [← word_felt hv, ← word_felt hw, h]

/-- **The scalar of a proper word** is that of its element. -/
theorem scalar_eq_scalar_felt {w : Word k} (h : w.Proper) : w.scalar = w.felt.scalar :=
  beq_iff_scalar_eq.mp ((beq_iff_felt_eq h (proper_word _)).mpr (felt_word _).symm)

/-- A word of zero that is not reduced is not zero. -/
example : (ofBits BaseField.babyBear.order : Word .babyBear).felt = 0 ∧
    (ofBits BaseField.babyBear.order : Word .babyBear).scalar ≠ 0 := by decide

end Word

/-! ### The scalars of elements -/

namespace Felt

@[simp] theorem scalar_zero : (0 : Felt k).scalar = 0 := by cases k <;> rfl

@[simp] theorem scalar_one : (1 : Felt k).scalar = 1 := rfl

/-- The element of the scalar of an element. -/
@[simp] theorem felt_scalar (a : Felt k) : a.scalar.felt = a := by
  have hword : a.scalar.word == a.word := Word.beq_iff_scalar_eq.mpr (Scalar.scalar_word _)
  rw [Scalar.felt, Word.felt_eq_of_beq hword, Word.felt_word]

/-- Comparisons tell any two elements apart. -/
theorem scalar_injective : Function.Injective (scalar (k := k)) :=
  Function.LeftInverse.injective felt_scalar

@[simp] theorem scalar_inj {a b : Felt k} : a.scalar = b.scalar ↔ a = b := scalar_injective.eq_iff

/-- The scalar of an element is zero exactly if the element is. -/
@[simp] theorem scalar_eq_zero {a : Felt k} : a.scalar = 0 ↔ a = 0 := by
  rw [← scalar_zero, scalar_inj]

/-- What comparisons see of an element is the number of its own word, reduced. -/
theorem key_scalar (a : Felt k) : a.scalar.key = a.val * k.wordOne % k.order := by
  cases k with
  | goldilocks => exact Nat.mod_mod _ _
  | babyBear => rfl

theorem key_scalar_lt (a : Felt k) : a.scalar.key < k.order :=
  a.key_scalar.trans_lt (Nat.mod_lt _ k.order_pos)

end Felt

namespace Scalar

variable {a b : Scalar k}

/-- Below the order, keys are added modulo the order. -/
theorem key_add (ha : a.key < k.order) (hb : b.key < k.order) :
    (a + b).key = (a.key + b.key) % k.order := by
  cases k with
  | goldilocks => rfl
  | babyBear =>
      show (if (a.key + b.key) % 0x100000000 < 2013265921 then (a.key + b.key) % 0x100000000
        else (a.key + b.key) % 0x100000000 - 2013265921) % 0x100000000 = _ % 2013265921
      replace ha : a.key < 2013265921 := ha
      replace hb : b.key < 2013265921 := hb
      rw [Nat.mod_eq_of_lt (by omega : a.key + b.key < 0x100000000)]
      split <;> omega

/-- Below the order, keys are subtracted modulo the order. -/
theorem key_sub (ha : a.key < k.order) (hb : b.key < k.order) :
    (a - b).key = (a.key + (k.order - b.key)) % k.order := by
  cases k with
  | goldilocks => rfl
  | babyBear =>
      show (if b.key ≤ a.key then a.key - b.key
        else a.key + 0x100000000 + 2013265921 - b.key) % 0x100000000 = (_ + (2013265921 - _)) % _
      replace ha : a.key < 2013265921 := ha
      replace hb : b.key < 2013265921 := hb
      show _ = _ % 2013265921
      split <;> omega

end Scalar

namespace Felt

variable (a b : Felt k)

/-- On reduced words the operations are those of the field. -/
theorem scalar_add : (a + b).scalar = a.scalar + b.scalar := by
  apply Scalar.ext
  rw [Scalar.key_add a.key_scalar_lt b.key_scalar_lt, key_scalar, key_scalar, key_scalar, val_add,
    Nat.mod_mul_mod, Nat.add_mul, ← Nat.add_mod]

theorem scalar_sub : (a - b).scalar = a.scalar - b.scalar := by
  rw [eq_comm]
  apply Scalar.ext
  have hsum : (a - b).scalar + b.scalar = a.scalar := by rw [← scalar_add, sub_add_cancel]
  have hkey := congrArg Scalar.key hsum
  rw [Scalar.key_add (key_scalar_lt _) b.key_scalar_lt] at hkey
  have hlt := key_scalar_lt (a - b)
  have hb := b.key_scalar_lt
  rw [Scalar.key_sub a.key_scalar_lt hb, ← hkey]
  generalize (a - b).scalar.key = x at hlt ⊢
  generalize b.scalar.key = y at hb ⊢
  rw [Nat.mod_add_mod, Nat.add_assoc, Nat.add_sub_cancel' hb.le, Nat.add_mod_right,
    Nat.mod_eq_of_lt hlt]

theorem scalar_mul : (a * b).scalar = a.scalar * b.scalar := by
  have hproper := Word.closed_proper.mul (Word.proper_word a) (Word.proper_word b)
  show _ = a.word.scalar * b.word.scalar
  rw [← Word.scalar_mul, Word.scalar_eq_scalar_felt hproper, Word.felt_mul, Word.felt_word,
    Word.felt_word]

/-- Repeated squaring gives the product with a power. -/
theorem mulPowDigits_scalar (digits : Nat) (product a : Felt k) {n : Nat} (h : n < 2 ^ digits) :
    Scalar.mulPowDigits digits product.scalar a.scalar n = (product * a ^ n).scalar := by
  induction digits generalizing product a n with
  | zero =>
      obtain rfl : n = 0 := by simpa using h
      rw [pow_zero, mul_one]
      rfl
  | succ digits ih =>
      have hhalf : n / 2 < 2 ^ digits := by rw [pow_succ] at h; omega
      rw [Scalar.mulPowDigits, ← scalar_mul, ← scalar_mul, ← apply_ite, ih _ _ hhalf, ← pow_two,
        ← pow_mul]
      split
      · next hodd =>
          rw [mul_assoc, ← pow_succ', show 2 * (n / 2) + 1 = n by omega]
      · next heven => rw [show 2 * (n / 2) = n by omega]

theorem scalar_pow (n : Nat) : (a ^ n).scalar = a.scalar ^ n := by
  show _ = Scalar.mulPowDigits (n.log2 + 1) (1 : Felt k).scalar a.scalar n
  rw [mulPowDigits_scalar _ _ _ Nat.lt_log2_self, one_mul]

end Felt

end Plonkish
