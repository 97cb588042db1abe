import Plonkish.Field.Basic

/-!
# Fields — words

A machine holds a field element as a `Word k`, of 8 bytes over Goldilocks and 4 over BabyBear.  Over
Goldilocks a word stands for its residue; over BabyBear the word of an element is its representative
times `2 ^ 32`, reduced.  Words need not be reduced: `Word.felt` reads any of them, and `Felt.word`
gives the reduced one, so that `Word.felt_word` holds and the converse does not.

Two words are compared by what `Word.key` keeps of them, the residue over Goldilocks and all the
bits over BabyBear.  Equal words stand for the same element (`Word.felt_eq_of_beq`).

Words are multiplied without a full reduction, so the product of two words of one element is a word
of its square, though not the reduced one:

* `foldHigh` brings a number below `2 ^ 128` to 64 bits, by `2 ^ 96 = -1` and
  `2 ^ 64 = 2 ^ 32 - 1`;
* `foldLow` divides a number below `2 ^ 64` by `2 ^ 32`, after making its low 32 bits zero by a
  multiple of the order.

Neither changes the residue, as `foldHigh_mod` and `foldLow_mod` say, so `Word.felt_mul` holds.
-/

namespace Plonkish

namespace BaseField

/-- The number of words. -/
def wordRange (k : BaseField) : Nat := 1 <<< (8 * k.wordBytes)

/-- The word of one. -/
def wordOne : BaseField → Nat
  | goldilocks => 1
  | babyBear => 268435454

/-- What the word one stands for. -/
def wordUnit : BaseField → Nat
  | goldilocks => 1
  | babyBear => 943718400

theorem wordRange_pos (k : BaseField) : 0 < k.wordRange := by cases k <;> decide

theorem order_lt_wordRange (k : BaseField) : k.order < k.wordRange := by cases k <;> decide

/-- The word of one and the unit that words are stored with are inverse to each other. -/
theorem wordOne_mul_wordUnit (k : BaseField) : k.wordOne * k.wordUnit % k.order = 1 := by
  cases k <;> decide

end BaseField

/-- A field element as a machine holds it. -/
@[ext] structure Word (k : BaseField) where
  /-- The word, read as a number. -/
  bits : Nat
  /-- The word fits in its bytes. -/
  bits_lt : bits < k.wordRange
deriving Repr

/-- The reduced word of an element. -/
def Felt.word {k : BaseField} (a : Felt k) : Word k where
  bits := a.val * k.wordOne % k.order
  bits_lt := Nat.lt_trans (Nat.mod_lt _ k.order_pos) k.order_lt_wordRange

namespace Word

variable {k : BaseField}

/-- The word that the low bytes of a number make. -/
def ofBits (n : Nat) : Word k := ⟨n % k.wordRange, Nat.mod_lt _ k.wordRange_pos⟩

/-- The element a word stands for. -/
def felt (w : Word k) : Felt k := Felt.ofNat (w.bits * k.wordUnit)

/-- What comparisons of words look at. -/
def key : {k : BaseField} → Word k → Nat
  | .goldilocks, w => w.bits % BaseField.goldilocks.order
  | .babyBear, w => w.bits

instance : BEq (Word k) := ⟨fun v w => v.key == w.key⟩

instance : Zero (Word k) := ⟨ofBits 0⟩

instance : One (Word k) := ⟨Felt.word 1⟩

instance : Inhabited (Word k) := ⟨0⟩

/-- The word of a 64-bit number, which over Goldilocks is the number. -/
def ofNat : {k : BaseField} → Nat → Word k
  | .goldilocks, n => ofBits n
  | .babyBear, n => (Felt.ofNat n).word

/-- The negation. -/
def neg : {k : BaseField} → Word k → Word k
  | .goldilocks, w => ofBits (BaseField.goldilocks.order - w.key)
  | .babyBear, w =>
    if w.bits = 0 then w else ofBits (BaseField.babyBear.order + 0x100000000 - w.bits)

instance : Neg (Word k) := ⟨neg⟩

/-- The word of a signed 64-bit number. -/
def ofInt (n : Int) : Word k := if n < 0 then -ofNat n.natAbs else ofNat n.natAbs

instance : ToString (Word k) := ⟨fun w => toString w.felt⟩

/-! ### Comparison -/

theorem beq_iff {v w : Word k} : v == w ↔ v.key = w.key := beq_iff_eq (a := v.key) (b := w.key)

instance : EquivBEq (Word k) where
  rfl := beq_iff.mpr rfl
  symm h := beq_iff.mpr (beq_iff.mp h).symm
  trans h₁ h₂ := beq_iff.mpr ((beq_iff.mp h₁).trans (beq_iff.mp h₂))

/-- Equal words stand for the same element. -/
theorem felt_eq_of_beq {v w : Word k} (h : v == w) : v.felt = w.felt := by
  have hk := beq_iff.mp h
  apply Felt.ext
  cases k with
  | goldilocks =>
    simp only [felt, Felt.val_ofNat, BaseField.wordUnit, Nat.mul_one]
    exact hk
  | babyBear =>
    have hb : v.bits = w.bits := hk
    simp only [felt, hb]

/-- An element is the residue of its own word. -/
@[simp] theorem felt_word (a : Felt k) : a.word.felt = a := by
  apply Felt.ext
  simp only [Felt.word, felt, Felt.val_ofNat]
  rw [Nat.mod_mul_mod, Nat.mul_assoc, Nat.mul_mod, k.wordOne_mul_wordUnit, Nat.mul_one,
    Nat.mod_mod, Nat.mod_eq_of_lt a.val_lt]

@[simp] theorem felt_zero : (0 : Word k).felt = 0 := by cases k <;> rfl

@[simp] theorem felt_one : (1 : Word k).felt = 1 := felt_word 1

/-! ### Products -/

/-- A number below `2 ^ 128` brought to 64 bits without changing its residue over Goldilocks. -/
def foldHigh (x : Nat) : Nat :=
  let low := x % 0x10000000000000000
  let middle := x / 0x10000000000000000 % 0x100000000
  let high := x / 0x10000000000000000 / 0x100000000
  let less := if high ≤ low then low - high else low + BaseField.goldilocks.order - high
  let sum := less + middle * (0x100000000 - 1)
  if sum < 0x10000000000000000 then sum else sum - BaseField.goldilocks.order

/-- The inverse of the order of BabyBear modulo `2 ^ 32`. -/
def lowInverse : Nat := 2281701377

/-- A number below `2 ^ 64` divided by `2 ^ 32` over BabyBear. -/
def foldLow (x : Nat) : Nat :=
  let multiple := x * lowInverse % 0x100000000 * BaseField.babyBear.order
  if multiple ≤ x then (x - multiple) / 0x100000000
  else BaseField.babyBear.order - (multiple - x) / 0x100000000

theorem mod_eq_of_add_mul {a b i j n : Nat} (h : a + n * i = b + n * j) : a % n = b % n := by
  rw [← Nat.add_mul_mod_self_left a n i, h, Nat.add_mul_mod_self_left]

/-- Folding the upper half keeps the residue. -/
theorem foldHigh_mod {x : Nat} (h : x < 0x100000000000000000000000000000000) :
    foldHigh x % BaseField.goldilocks.order = x % BaseField.goldilocks.order := by
  simp only [foldHigh, BaseField.order]
  generalize hlow : x % 0x10000000000000000 = low
  generalize hmiddle : x / 0x10000000000000000 % 0x100000000 = middle
  generalize hhigh : x / 0x10000000000000000 / 0x100000000 = high
  have hx : x = low + 0x10000000000000000 * (middle + 0x100000000 * high) := by omega
  have hlt : high < 0x100000000 := by omega
  split <;> split
  · exact mod_eq_of_add_mul (i := middle + high * (0x100000000 + 1)) (j := 0) (by omega)
  · exact mod_eq_of_add_mul (i := middle + high * (0x100000000 + 1) + 1) (j := 0) (by omega)
  · exact mod_eq_of_add_mul (i := middle + high * (0x100000000 + 1)) (j := 1) (by omega)
  · exact mod_eq_of_add_mul (i := middle + high * (0x100000000 + 1)) (j := 0) (by omega)

theorem foldHigh_lt {x : Nat} (h : x < 0x100000000000000000000000000000000) :
    foldHigh x < 0x10000000000000000 := by
  simp only [foldHigh, BaseField.order]
  split <;> split <;> omega

/-- The multiple of the order that `foldLow` takes has the low bits of the number. -/
theorem foldLow_multiple_mod (x : Nat) :
    x * lowInverse % 0x100000000 * BaseField.babyBear.order % 0x100000000 = x % 0x100000000 := by
  simp only [lowInverse, BaseField.order]
  omega

/-- Folding the lower half divides by the radix, up to a multiple of the modulus. -/
theorem foldLow_mod (x : Nat) :
    foldLow x * 0x100000000 % BaseField.babyBear.order = x % BaseField.babyBear.order := by
  have h := foldLow_multiple_mod x
  simp only [foldLow]
  generalize ht : x * lowInverse % 0x100000000 = t at h ⊢
  have hlt : t < 0x100000000 := ht ▸ Nat.mod_lt _ (by decide)
  split <;> simp only [BaseField.order] at *
  · exact mod_eq_of_add_mul (i := t) (j := 0) (by omega)
  · exact mod_eq_of_add_mul (i := t) (j := 0x100000000) (by omega)

theorem foldLow_lt {x : Nat} (h : x < 0x10000000000000000) : foldLow x < 0x100000000 := by
  simp only [foldLow]
  split <;> simp only [BaseField.order] at * <;> omega

/-- The product. -/
def mul : {k : BaseField} → Word k → Word k → Word k
  | .goldilocks, v, w => ofBits (foldHigh (v.bits * w.bits))
  | .babyBear, v, w => ofBits (foldLow (v.bits * w.bits))

instance : Mul (Word k) := ⟨mul⟩

/-- Words multiply in either order, with the same word as the answer. -/
theorem mul_comm (v w : Word k) : v * w = w * v := by
  cases k
  · show ofBits (foldHigh _) = ofBits (foldHigh _)
    rw [Nat.mul_comm]
  · show ofBits (foldLow _) = ofBits (foldLow _)
    rw [Nat.mul_comm]

/-- What is compared of a product over Goldilocks is the residue of the product. -/
theorem key_mul_goldilocks (v w : Word .goldilocks) :
    (v * w).key = v.bits * w.bits % BaseField.goldilocks.order := by
  have hlt : v.bits * w.bits < 0x100000000000000000000000000000000 :=
    show _ < 0x10000000000000000 * 0x10000000000000000 from Nat.mul_lt_mul'' v.bits_lt w.bits_lt
  show foldHigh (v.bits * w.bits) % _ % _ = _
  rw [Nat.mod_eq_of_lt (show foldHigh _ < BaseField.wordRange _ from foldHigh_lt hlt),
    foldHigh_mod hlt]

/-- The product of words stands for the product. -/
@[simp] theorem felt_mul (v w : Word k) : (v * w).felt = v.felt * w.felt := by
  apply Felt.ext
  cases k with
  | goldilocks =>
    show ((v * w).bits * 1) % _ = (v.bits * 1 % _) * (w.bits * 1 % _) % _
    simp only [Nat.mul_one]
    rw [← Nat.mul_mod, ← key_mul_goldilocks]
    rfl
  | babyBear =>
    have hlt : v.bits * w.bits < 0x10000000000000000 :=
      show _ < 0x100000000 * 0x100000000 from Nat.mul_lt_mul'' v.bits_lt w.bits_lt
    show (foldLow (v.bits * w.bits) % _ * _) % _ = (v.bits * _ % _) * (w.bits * _ % _) % _
    rw [Nat.mod_eq_of_lt (show foldLow _ < BaseField.wordRange _ from foldLow_lt hlt),
      ← Nat.mul_mod]
    generalize hu : BaseField.babyBear.wordUnit = u
    have hone : 0x100000000 * u % BaseField.babyBear.order = 1 := by subst hu; decide
    calc foldLow (v.bits * w.bits) * u % BaseField.babyBear.order
        = foldLow (v.bits * w.bits) * 0x100000000 * (u * u) % BaseField.babyBear.order := by
          rw [show foldLow (v.bits * w.bits) * 0x100000000 * (u * u)
              = foldLow (v.bits * w.bits) * u * (0x100000000 * u) by ac_rfl,
            Nat.mul_mod (foldLow _ * u), hone, Nat.mul_one, Nat.mod_mod]
      _ = v.bits * w.bits * (u * u) % BaseField.babyBear.order := by
          rw [Nat.mul_mod, foldLow_mod, ← Nat.mul_mod]
      _ = v.bits * u * (w.bits * u) % BaseField.babyBear.order := by
          rw [show v.bits * w.bits * (u * u) = v.bits * u * (w.bits * u) by ac_rfl]

end Word

end Plonkish
