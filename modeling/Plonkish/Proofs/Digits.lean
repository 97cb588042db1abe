import Mathlib.Algebra.BigOperators.Group.Finset.Basic
import Plonkish.Gadget.Bits
import Plonkish.Proofs.Fault

/-!
# Proofs — binary digits of elements

An element is held in a word of 64 bits, which faults if it is shifted by as many places.  The
digits of an element are read by shifting it, and whether it has more of them than there are bits is
found out by shifting it by all of them.  Both look at the number of places beforehand, each in its
own way (`Felt.digit`, `BitRows.digits`), and the word never faults.

* `binaryDigits n x` are the last `n` binary digits of a number and `binaryNumber` is the number
  that digits spell, both with the most significant one first (`binaryNumber_binaryDigits`).
* `Felt.digits_eq` and `BitRows.digits_eq`: what is read are the digits of the representative.
* `Felt.digits_canonical`: for every number of digits that can be held, they add up to the
  representative modulo a power of two; bit rows take an element exactly if it has no more digits
  than they have bits, and then the digits spell it.
-/

namespace Plonkish

variable {k : BaseField}

/-! ### Numbers and their digits -/

/-- The last `n` binary digits of a number, most significant first. -/
def binaryDigits (n x : Nat) : List Bool := ((List.range n).map x.testBit).reverse

theorem length_binaryDigits (n x : Nat) : (binaryDigits n x).length = n := by
  rw [binaryDigits, List.length_reverse, List.length_map, List.length_range]

/-- The number that binary digits spell, most significant first. -/
def binaryNumber (bits : List Bool) : Nat := bits.foldl (fun n bit => 2 * n + bit.toNat) 0

theorem binaryNumber_concat (bits : List Bool) (bit : Bool) :
    binaryNumber (bits ++ [bit]) = 2 * binaryNumber bits + bit.toNat := by
  rw [binaryNumber, List.foldl_append]
  rfl

theorem binaryNumber_binaryDigits (n x : Nat) : binaryNumber (binaryDigits n x) = x % 2 ^ n := by
  induction n generalizing x with
  | zero => exact (Nat.mod_one x).symm
  | succ n ih =>
      -- The last digit is the parity, and the others are the digits of the half.
      have hsplit : binaryDigits (n + 1) x = binaryDigits n (x / 2) ++ [x.testBit 0] := by
        rw [binaryDigits, List.range_succ_eq_map, List.map_cons, List.reverse_cons, List.map_map]
        congr 3
        exact funext fun i => Nat.testBit_succ x i
      rw [hsplit, binaryNumber_concat, ih, Nat.toNat_testBit, pow_zero, Nat.div_one, pow_succ',
        Nat.mod_mul, Nat.add_comm]

/-- Binary digits, with the powers of two for their places. -/
theorem sum_testBit (n x : Nat) :
    ∑ i ∈ Finset.range n, (x.testBit i).toNat * 2 ^ i = x % 2 ^ n := by
  induction n with
  | zero => exact (Nat.mod_one x).symm
  | succ n ih =>
      rw [Finset.sum_range_succ, ih, Nat.toNat_testBit, Nat.mod_pow_succ, Nat.mul_comm]

/-! ### The digits of an element -/

namespace Felt

theorem val_lt_word (a : Felt k) : a.val < 2 ^ 64 := a.val_lt.trans k.order_lt

/-- A digit is read without a fault, at every place. -/
theorem digit_eq (a : Felt k) (place : Nat) : a.digit place = .ok (a.val.testBit place) := by
  rw [digit, Nat.testBit_eq_decide_div_mod_eq]
  by_cases hplace : place < 64
  · rw [if_pos hplace, Count.shiftRight, if_pos hplace, Nat.shiftRight_eq_div_pow]
    rfl
  · have hle : 2 ^ 64 ≤ 2 ^ place := Nat.pow_le_pow_right Nat.two_pos (not_lt.mp hplace)
    rw [if_neg hplace, Nat.div_eq_of_lt (a.val_lt_word.trans_le hle)]
    rfl

/-- **The digits of an element**, if there are not too many to be held. -/
theorem digits_eq (a : Felt k) {n : Nat} (h : n < 2 ^ 63) :
    a.digits n = .ok ((List.range n).map a.val.testBit) := by
  have hheld : Count.entries 1 n = .ok n := Count.entries_eq_ok.mpr ⟨by rwa [Nat.mul_one], rfl⟩
  rw [digits, hheld]
  exact mapM_eq_map fun place _ => a.digit_eq place

theorem digits_eq_overflow (a : Felt k) {n : Nat} (h : 2 ^ 63 ≤ n) :
    a.digits n = .error .overflow := by
  have hlarge : ¬ n * 1 < 1 <<< 63 := by
    rw [Nat.mul_one, Nat.one_shiftLeft]
    exact not_lt.mpr h
  rw [digits, Count.entries, if_neg hlarge]
  rfl

end Felt

/-- **The digits that bit rows take** are those of an element that has no more than there are bits.
-/
theorem BitRows.digits_eq (b : BitRows) (a : Felt k) :
    b.digits a = if a.val < 2 ^ b.bits then .ok (binaryDigits b.bits a.val)
      else .error (.input b.name (.tooWide a.val b.bits)) := by
  have hfew : b.bits < 2 ^ 63 := b.bits_le.trans_lt (by decide)
  have hdigits : (do return (← (a.digits b.bits).mapError GadgetError.fault).reverse) =
      (.ok (binaryDigits b.bits a.val) : Except GadgetError (List Bool)) := by
    rw [a.digits_eq hfew]
    rfl
  rw [digits]
  by_cases hbits : b.bits < maxBits
  · rw [if_pos hbits, Count.shiftRight, if_pos (show b.bits < 64 from hbits),
      Nat.shiftRight_eq_div_pow]
    by_cases hfits : a.val < 2 ^ b.bits
    · rw [if_pos hfits, Nat.div_eq_of_lt hfits]
      exact hdigits
    · have hrest : a.val / 2 ^ b.bits ≠ 0 :=
        (Nat.div_pos (not_lt.mp hfits) (Nat.two_pow_pos _)).ne'
      rw [if_neg hfits]
      show (if a.val / 2 ^ b.bits ≠ 0 then _ else _) = _
      rw [if_pos hrest]
      rfl
  · -- With all the bits that there can be, every element fits.
    have hall : b.bits = 64 := le_antisymm b.bits_le (not_lt.mp hbits)
    have hfits : a.val < 2 ^ b.bits := hall ▸ a.val_lt_word
    rw [if_neg hbits, if_pos hfits]
    exact hdigits

/-! ### Canonical digits -/

namespace Felt

/-- **The digits of an element are those of its representative.**  As many digits as are asked for
are read, also beyond the word, and with the powers of two for their places they add up to the
representative modulo a power of two; the list can be held if there are fewer than `2 ^ 63`.  Bit
rows take an element exactly if it has no more digits than they have bits, all the bits of a word
included, and then the digits spell the representative. -/
theorem digits_canonical (a : Felt k) :
    (∀ n < 2 ^ 63, ∃ bits, a.digits n = .ok bits ∧ bits.length = n ∧
      ∑ i ∈ Finset.range n, (bits.getD i false).toNat * 2 ^ i = a.val % 2 ^ n) ∧
    (∀ n, 2 ^ 63 ≤ n → a.digits n = .error .overflow) ∧
    ∀ b : BitRows,
      (a.val < 2 ^ b.bits → ∃ bits, b.digits a = .ok bits ∧ bits.length = b.bits ∧
        binaryNumber bits = a.val) ∧
      (2 ^ b.bits ≤ a.val → b.digits a = .error (.input b.name (.tooWide a.val b.bits))) := by
  refine ⟨fun n hn => ⟨_, a.digits_eq hn, by rw [List.length_map, List.length_range], ?_⟩,
    fun n hn => a.digits_eq_overflow hn, fun b => ⟨fun hfits => ?_, fun hwide => ?_⟩⟩
  · rw [← sum_testBit]
    refine Finset.sum_congr rfl fun i hi => ?_
    rw [List.getD_eq_getElem?_getD, List.getElem?_map,
      List.getElem?_range (Finset.mem_range.mp hi)]
    rfl
  · exact ⟨binaryDigits b.bits a.val, by rw [b.digits_eq, if_pos hfits], length_binaryDigits _ _,
      by rw [binaryNumber_binaryDigits, Nat.mod_eq_of_lt hfits]⟩
  · rw [b.digits_eq, if_neg (not_lt.mpr hwide)]

/-- The largest element of Goldilocks has a digit more than bit rows of 63 bits take, and those of
64 bits take it. -/
theorem digits_canonical_largest :
    (∃ bits, (-1 : Felt .goldilocks).digits 65 = .ok bits ∧ bits.length = 65) ∧
    (∃ b, BitRows.new "range_check" (.contiguous 3 0) 64 true = .ok b ∧
      ∃ bits, b.digits (-1 : Felt .goldilocks) = .ok bits ∧
        binaryNumber bits = 18446744069414584320) ∧
    ∃ b, BitRows.new "range_check" (.contiguous 3 0) 63 true = .ok b ∧
      b.digits (-1 : Felt .goldilocks) =
        .error (.input "range_check" (.tooWide 18446744069414584320 63)) := by
  obtain ⟨hheld, -, hrows⟩ := digits_canonical (-1 : Felt .goldilocks)
  refine ⟨?_, ⟨_, rfl, ?_⟩, ⟨_, rfl, ?_⟩⟩
  · obtain ⟨bits, hbits, hlength, -⟩ := hheld 65 (by decide)
    exact ⟨bits, hbits, hlength⟩
  · obtain ⟨bits, hbits, -, hnumber⟩ :=
      (hrows ⟨"range_check", .contiguous 3 0, 64, true, by decide, by decide,
      by decide⟩).1 (by decide)
    exact ⟨bits, hbits, hnumber⟩
  · exact (hrows _).2 (by decide)

/-- A list of `2 ^ 63` digits cannot be held. -/
theorem digits_not_held :
    ¬ ∃ bits, (1 : Felt .goldilocks).digits (2 ^ 63) = .ok bits ∧ bits.length = 2 ^ 63 := by
  rintro ⟨bits, hbits, -⟩
  rw [digits_eq_overflow _ le_rfl] at hbits
  cases hbits

end Felt

end Plonkish
