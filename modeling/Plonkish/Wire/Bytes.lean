import Plonkish.Stored

/-!
# Wire form — bytes

Numbers are written in a fixed number of bytes, least significant first.  `numberBytes w n` writes
`n` in `w` bytes and `number w` reads `w` bytes, one at a time; `number_numberBytes` says that
reading undoes writing, whatever follows.

A `Decoder` takes bytes off the front of a list and leaves the rest, or stops at the first problem:
the bytes end, a tag is none of those expected, or a truth value is neither 0 nor 1.
-/

namespace Plonkish.Wire

/-- Why bytes do not decode. -/
inductive DecodeError where
  /-- The bytes end inside a value. -/
  | endOfInput
  /-- The tag `found` is not below `limit`. -/
  | unknownTag (found limit : Nat)
  /-- The byte of a truth value is neither 0 nor 1. -/
  | notBool (found : UInt8)
deriving DecidableEq, Repr

/-- The text of an error. -/
def DecodeError.message : DecodeError → String
  | endOfInput => "wire encoding failed: io error: unexpected end of file"
  | unknownTag found limit =>
    s!"wire encoding failed: invalid value: integer `{found}`, " ++
      s!"expected variant index 0 <= i < {limit}"
  | notBool found =>
    "wire encoding failed: invalid u8 while decoding bool, expected 0 or 1, " ++
      s!"found {found}"

/-- A reader of a value from the front of a list of bytes. -/
abbrev Decoder := StateT (List UInt8) (Except DecodeError)

/-- The next byte. -/
def byte : Decoder UInt8 := fun
  | [] => .error .endOfInput
  | b :: rest => .ok (b, rest)

/-! ### Numbers -/

/-- The `width` bytes of a number, least significant first. -/
def numberBytes : Nat → Nat → List UInt8
  | 0, _ => []
  | width + 1, n => UInt8.ofNat n :: numberBytes width (n / 256)

/-- The number written in the next `width` bytes. -/
def number : Nat → Decoder Nat
  | 0 => return 0
  | width + 1 => do
    let low ← byte
    let high ← number width
    return low.toNat + 256 * high

@[simp] theorem byte_cons (b : UInt8) (rest : List UInt8) :
    byte (b :: rest) = .ok (b, rest) := rfl

@[simp] theorem byte_nil : byte [] = .error .endOfInput := rfl

@[simp] theorem length_numberBytes (width n : Nat) : (numberBytes width n).length = width := by
  induction width generalizing n with
  | zero => rfl
  | succ width ih => simp [numberBytes, ih]

/-- Reading a number undoes writing it, whatever follows. -/
theorem number_numberBytes {width n : Nat} (h : n < 1 <<< (8 * width)) (rest : List UInt8) :
    number width (numberBytes width n ++ rest) = .ok (n, rest) := by
  induction width generalizing n with
  | zero =>
    have : n = 0 := by simpa using h
    subst this
    rfl
  | succ width ih =>
    have hd : n / 256 < 1 <<< (8 * width) := Nat.div_lt_of_lt_mul (by
      rwa [Nat.mul_succ, Nat.shiftLeft_add, Nat.shiftLeft_eq _ 8, Nat.mul_comm] at h)
    have hb : (UInt8.ofNat n).toNat + 256 * (n / 256) = n := by
      simp only [UInt8.toNat_ofNat']
      omega
    have hstep : number (width + 1) (numberBytes (width + 1) n ++ rest) =
        (number width (numberBytes width (n / 256) ++ rest)).bind fun read =>
          .ok ((UInt8.ofNat n).toNat + 256 * read.1, read.2) := rfl
    rw [hstep, ih hd]
    exact congrArg (fun m => Except.ok (m, rest)) hb

/-- The number of bytes a count is written in. -/
def countBytes : Nat := 8

/-- The number of bytes a tag, an index, a rotation and a power are written in. -/
def shortBytes : Nat := 4

/-- A tag, which `ofTag?` turns into one of `limit` values. -/
def tagged {α : Type} (limit : Nat) (ofTag? : Nat → Option α) : Decoder α := do
  let found ← number shortBytes
  match ofTag? found with
  | some a => return a
  | none => throw (.unknownTag found limit)

/-- A truth value, written in one byte. -/
def bool : Decoder Bool := do
  match ← byte with
  | 0 => return false
  | 1 => return true
  | b => throw (.notBool b)

/-- A given number of values, one after the other. -/
def many {α : Type} (item : Decoder α) : Nat → Decoder (List α)
  | 0 => return []
  | count + 1 => do
    let first ← item
    let others ← many item count
    return first :: others

/-- A count and as many values. -/
def counted {α : Type} (item : Decoder α) : Decoder (List α) := do many item (← number countBytes)

/-- The bytes of a list: its length, and its entries one after the other. -/
def countedBytes {α : Type} (write : α → List UInt8) (l : List α) : List UInt8 :=
  numberBytes countBytes l.length ++ l.flatMap write

end Plonkish.Wire
