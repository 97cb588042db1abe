/-!
# Fields — the two base fields

`BaseField` names the prime fields a circuit can be written over, Goldilocks and BabyBear, and
`Felt k` is an element of the field `k`: its canonical representative, a natural number below the
order.  Equality, order and text of an element are those of the representative.

* Addition, subtraction, negation and multiplication are the arithmetic of residues.
* `Felt.pow` reads the binary digits of the exponent; `a.pow 0 = 1` for every `a`, zero included.
* `Felt.inverse` is `a ^ (order - 2)`.  It inverts every nonzero element and sends zero to zero;
  `Felt.inverse?` refuses zero.
* `BaseField.generator k b` generates the subgroup of order `2 ^ b`, for `b` up to the
  two-adicity.  Each generator is the square of the next one.
-/

namespace Plonkish

/-- The prime fields a circuit can be written over. -/
inductive BaseField where
  /-- The field of order `2 ^ 64 - 2 ^ 32 + 1`. -/
  | goldilocks
  /-- The field of order `2 ^ 31 - 2 ^ 27 + 1`. -/
  | babyBear
deriving DecidableEq, Repr

namespace BaseField

/-- The number of elements. -/
def order : BaseField → Nat
  | goldilocks => 18446744069414584321
  | babyBear => 2013265921

/-- The name a field is reported under. -/
def name : BaseField → String
  | goldilocks => "Goldilocks"
  | babyBear => "BabyBear"

/-- The largest `b` such that `2 ^ b` divides the order of the multiplicative group. -/
def twoAdicity : BaseField → Nat
  | goldilocks => 32
  | babyBear => 27

/-- The representative of the generator of the subgroup of order `2 ^ twoAdicity`. -/
def root : BaseField → Nat
  | goldilocks => 1753635133440165772
  | babyBear => 440564289

/-- The number of bytes an element takes. -/
def wordBytes : BaseField → Nat
  | goldilocks => 8
  | babyBear => 4

theorem two_lt_order (k : BaseField) : 2 < k.order := by cases k <;> decide

theorem order_pos (k : BaseField) : 0 < k.order := Nat.lt_trans (by decide) k.two_lt_order

theorem order_lt (k : BaseField) : k.order < 1 <<< 64 := by cases k <;> decide

end BaseField

/-- An element of the field `k`, held as its canonical representative. -/
@[ext] structure Felt (k : BaseField) where
  /-- The canonical representative. -/
  val : Nat
  /-- The representative is reduced. -/
  val_lt : val < k.order
deriving DecidableEq, Repr

namespace Felt

variable {k : BaseField}

/-- The residue class of `n`. -/
def ofNat (n : Nat) : Felt k := ⟨n % k.order, Nat.mod_lt _ k.order_pos⟩

/-- The residue class of a signed number. -/
def ofInt (n : Int) : Felt k :=
  if n < 0 then ofNat (k.order - n.natAbs % k.order) else ofNat n.natAbs

instance : Zero (Felt k) := ⟨ofNat 0⟩

instance : One (Felt k) := ⟨ofNat 1⟩

instance : Inhabited (Felt k) := ⟨0⟩

instance : Add (Felt k) := ⟨fun a b => ofNat (a.val + b.val)⟩

instance : Neg (Felt k) := ⟨fun a => ofNat (k.order - a.val)⟩

instance : Sub (Felt k) := ⟨fun a b => ofNat (a.val + (k.order - b.val))⟩

instance : Mul (Felt k) := ⟨fun a b => ofNat (a.val * b.val)⟩

/-- The two bits a truth value is written as. -/
def ofBool (b : Bool) : Felt k := if b then 1 else 0

instance : Hashable (Felt k) := ⟨fun a => hash a.val⟩

instance : ToString (Felt k) := ⟨fun a => toString a.val⟩

instance : Ord (Felt k) := ⟨fun a b => compare a.val b.val⟩

@[simp] theorem val_ofNat (n : Nat) : (ofNat n : Felt k).val = n % k.order := rfl

@[simp] theorem val_zero : (0 : Felt k).val = 0 := Nat.zero_mod _

@[simp] theorem val_one : (1 : Felt k).val = 1 :=
  Nat.mod_eq_of_lt (Nat.lt_trans (by decide) k.two_lt_order)

theorem val_add (a b : Felt k) : (a + b).val = (a.val + b.val) % k.order := rfl

@[simp] theorem ofNat_val (a : Felt k) : ofNat a.val = a :=
  Felt.ext (Nat.mod_eq_of_lt a.val_lt)

/-! ### Powers and inverses -/

/-- The square of an element. -/
def square (a : Felt k) : Felt k := a * a

/-- The product of the powers `a ^ (2 ^ i)` over the first `digits` binary digits of `n`. -/
def powDigits : Nat → Felt k → Nat → Felt k
  | 0, _, _ => 1
  | digits + 1, a, n =>
    let rest := powDigits digits a.square (n / 2)
    if n % 2 = 1 then a * rest else rest

/-- The power of an element, by repeated squaring. -/
def pow (a : Felt k) (n : Nat) : Felt k := powDigits (n.log2 + 1) a n

instance : Pow (Felt k) Nat := ⟨pow⟩

/-- The multiplicative inverse, and zero at zero. -/
def inverse (a : Felt k) : Felt k := a.pow (k.order - 2)

/-- The multiplicative inverse of a nonzero element. -/
def inverse? (a : Felt k) : Option (Felt k) := if a = 0 then none else some a.inverse

/-- The first `n` terms of the geometric sequence from `start` with ratio `w`. -/
def geometric (w : Felt k) : Felt k → Nat → List (Felt k)
  | _, 0 => []
  | start, n + 1 => start :: geometric w (start * w) n

@[simp] theorem length_geometric (w start : Felt k) (n : Nat) :
    (geometric w start n).length = n := by
  induction n generalizing start with
  | zero => rfl
  | succ n ih => simp [geometric, ih]

end Felt

/-- The generator of the subgroup of order `2 ^ bits`, meant for `bits` up to the two-adicity. -/
def BaseField.generator (k : BaseField) (bits : Nat) : Felt k :=
  Nat.repeat Felt.square (k.twoAdicity - bits) (Felt.ofNat k.root)

end Plonkish
