import Plonkish.Field.Word

/-!
# Fields — scalars

A `Scalar k` is what comparisons see of a word (`Word.scalar`): its residue over Goldilocks, and all
its bits over BabyBear.  Two words are equal exactly if they have the same scalar
(`Word.beq_iff_scalar_eq`).  Expressions are evaluated to scalars, since the coefficients they hold
are words, and whether a value is zero is asked of the word.

Scalars are computed with as words are.  Over Goldilocks this is the arithmetic of residues.  Over
BabyBear a word need not be reduced, and the operations do not reduce it first: a sum is formed in
32 bits and then loses the order once, if it is not below it; a difference below zero gains the
order once; a product is divided by `2 ^ 32` with `Word.foldLow`.  On the scalars of elements
(`Felt.scalar`), which come from reduced words, all this is the arithmetic of the field.
-/

namespace Plonkish

/-- The number of scalars. -/
def BaseField.scalarRange : BaseField → Nat
  | goldilocks => goldilocks.order
  | babyBear => babyBear.wordRange

theorem BaseField.scalarRange_pos (k : BaseField) : 0 < k.scalarRange := by cases k <;> decide

theorem BaseField.scalarRange_le (k : BaseField) : k.scalarRange ≤ k.wordRange := by
  cases k <;> decide

/-- What comparisons see of a word. -/
@[ext] structure Scalar (k : BaseField) where
  /-- The residue over Goldilocks, and the bits over BabyBear. -/
  key : Nat
  /-- There are no others. -/
  key_lt : key < k.scalarRange
deriving DecidableEq, Repr

variable {k : BaseField}

/-! ### Words and elements -/

namespace Word

/-- What comparisons see of a word is in range. -/
theorem key_lt (w : Word k) : w.key < k.scalarRange := by
  cases k with
  | goldilocks => exact Nat.mod_lt _ (BaseField.order_pos _)
  | babyBear => exact w.bits_lt

/-- The scalar of a word. -/
def scalar (w : Word k) : Scalar k := ⟨w.key, w.key_lt⟩

/-- Words are equal exactly if their scalars are. -/
theorem beq_iff_scalar_eq {v w : Word k} : v == w ↔ v.scalar = w.scalar :=
  beq_iff.trans (Scalar.ext_iff (x := v.scalar) (y := w.scalar)).symm

end Word

/-- The scalar of an element, which is that of its reduced word. -/
def Felt.scalar (a : Felt k) : Scalar k := a.word.scalar

namespace Scalar

/-- The least word with a scalar. -/
def word (a : Scalar k) : Word k := ⟨a.key, Nat.lt_of_lt_of_le a.key_lt k.scalarRange_le⟩

/-- The element a scalar stands for. -/
def felt (a : Scalar k) : Felt k := a.word.felt

/-- A scalar is what comparisons see of its own word. -/
@[simp] theorem scalar_word (a : Scalar k) : a.word.scalar = a := by
  apply Scalar.ext
  cases k with
  | goldilocks => exact Nat.mod_eq_of_lt a.key_lt
  | babyBear => rfl

/-- The scalar that a number stands for, as far as it fits. -/
def ofKey (n : Nat) : Scalar k := ⟨n % k.scalarRange, Nat.mod_lt _ k.scalarRange_pos⟩

instance : Zero (Scalar k) := ⟨(0 : Word k).scalar⟩

instance : One (Scalar k) := ⟨(1 : Word k).scalar⟩

instance : Inhabited (Scalar k) := ⟨0⟩

instance : ToString (Scalar k) := ⟨fun a => toString a.felt⟩

/-! ### Operations -/

/-- The sum. -/
def add : {k : BaseField} → Scalar k → Scalar k → Scalar k
  | .goldilocks, a, b => ofKey (a.key + b.key)
  | .babyBear, a, b =>
    let sum := (a.key + b.key) % 0x100000000
    ofKey (if sum < BaseField.babyBear.order then sum else sum - BaseField.babyBear.order)

/-- The difference. -/
def sub : {k : BaseField} → Scalar k → Scalar k → Scalar k
  | .goldilocks, a, b => ofKey (a.key + (BaseField.goldilocks.order - b.key))
  | .babyBear, a, b =>
    ofKey (if b.key ≤ a.key then a.key - b.key
      else a.key + 0x100000000 + BaseField.babyBear.order - b.key)

instance : Add (Scalar k) := ⟨add⟩

instance : Sub (Scalar k) := ⟨sub⟩

instance : Mul (Scalar k) := ⟨fun a b => (a.word * b.word).scalar⟩

/-- The product of a scalar and the powers `a ^ (2 ^ i)` over the first `digits` binary digits of
`n`, from the lowest digit on. -/
def mulPowDigits : Nat → Scalar k → Scalar k → Nat → Scalar k
  | 0, product, _, _ => product
  | digits + 1, product, a, n =>
    mulPowDigits digits (if n % 2 = 1 then product * a else product) (a * a) (n / 2)

/-- The power, by repeated squaring. -/
def pow (a : Scalar k) (n : Nat) : Scalar k := mulPowDigits (n.log2 + 1) 1 a n

instance : Pow (Scalar k) Nat := ⟨pow⟩

end Scalar

/-- The scalar of a product of words. -/
theorem Word.scalar_mul (v w : Word k) : (v * w).scalar = v.scalar * w.scalar := by
  apply Scalar.ext
  cases k with
  | goldilocks =>
    show (v * w).key = (v.scalar.word * w.scalar.word).key
    rw [key_mul_goldilocks, key_mul_goldilocks]
    exact Nat.mul_mod _ _ _
  | babyBear => rfl

end Plonkish
