import Mathlib.Logic.Function.Basic
import Std.Data.String.ToInt
import Plonkish.Variable

/-!
# Proofs — the text of variables

The text of a variable is the letters of its region, its index in decimals, and what tells its row:
none for the anchor row, a signed distance in brackets, or a row after `@`.

* `digits_append_inj`: decimals end where the digits do, so a number and what follows it can be told
  from the text of both.
* `Variable.place_inj`: what follows the index tells the rotation, and whether it is relative.
* `Variable.toString_injective`: the text of a variable tells all four attributes.
-/

namespace Plonkish

/-! ### Decimals -/

/-- The text does not go on with a digit. -/
def EndsDigits (text : List Char) : Prop := ∀ c ∈ text.head?, c.isDigit = false

/-- Decimals are written with digits only. -/
theorem isDigit_of_mem_digits {n : Nat} {c : Char} (h : c ∈ Nat.toDigits 10 n) : c.isDigit = true :=
  Nat.isDigit_of_mem_toDigits (by decide) (by decide) h

/-- A number is determined by its decimal. -/
theorem digits_injective : Function.Injective (Nat.toDigits 10) := fun m n h => by
  rw [← Nat.ofDigitChars_ten_toDigits (n := m), h, Nat.ofDigitChars_ten_toDigits]

/-- A text that ends the digits before it has none itself at the front. -/
theorem EndsDigits.takeWhile_eq {text : List Char} (h : EndsDigits text) :
    text.takeWhile Char.isDigit = [] := by
  cases text with
  | nil => rfl
  | cons c text => rw [List.takeWhile_cons, h c rfl, if_neg Bool.false_ne_true]

/-- A decimal can be cut off a text that goes on with no digit. -/
theorem takeWhile_digits_append {n : Nat} {text : List Char} (h : EndsDigits text) :
    (Nat.toDigits 10 n ++ text).takeWhile Char.isDigit = Nat.toDigits 10 n := by
  rw [List.takeWhile_append_of_pos fun _ => isDigit_of_mem_digits, h.takeWhile_eq, List.append_nil]

/-- **A number and what follows it** can be told from the text of both. -/
theorem digits_append_inj {m n : Nat} {text text' : List Char} (h : EndsDigits text)
    (h' : EndsDigits text') (heq : Nat.toDigits 10 m ++ text = Nat.toDigits 10 n ++ text') :
    m = n ∧ text = text' := by
  have hdigits : Nat.toDigits 10 m = Nat.toDigits 10 n := by
    rw [← takeWhile_digits_append (n := m) h, heq, takeWhile_digits_append h']
  rw [hdigits] at heq
  exact ⟨digits_injective hdigits, List.append_cancel_left heq⟩

theorem toList_toString_nat (n : Nat) : (toString n).toList = Nat.toDigits 10 n := by
  rw [Nat.toString_eq_repr, Nat.toList_repr]

/-- A negative number is written with a sign in front. -/
theorem toList_toString_int (n : Int) :
    (toString n).toList =
      if n < 0 then '-' :: Nat.toDigits 10 n.natAbs else Nat.toDigits 10 n.natAbs := by
  rw [Int.toString_eq_repr, Int.repr_eq_if]
  by_cases h : n < 0
  · have habs : (-n).toNat = n.natAbs := by omega
    rw [if_neg (Int.not_le.mpr h), if_pos h, String.toList_append, Nat.toList_repr, habs]
    rfl
  · have habs : n.toNat = n.natAbs := by omega
    rw [if_pos (Int.not_lt.mp h), if_neg h, Nat.toList_repr, habs]

namespace Variable

theorem toList_signed (n : Int) :
    (signed n).toList = (if n < 0 then '-' else '+') :: Nat.toDigits 10 n.natAbs := by
  unfold signed
  split
  · next h => rw [toList_toString_int, if_pos h]
  · next h => rw [String.toList_append, toList_toString_int, if_neg h]; rfl

/-- A number is determined by its text with a sign, in which zero is positive. -/
theorem signed_injective : Function.Injective signed := fun m n h => by
  have hchars := congrArg String.toList h
  rw [toList_signed, toList_signed] at hchars
  obtain ⟨hsign, hdigits⟩ := List.cons.inj hchars
  have habs : m.natAbs = n.natAbs := digits_injective hdigits
  -- Opposite numbers have different signs.
  have hneg : m < 0 ↔ n < 0 := by
    split at hsign <;> split at hsign
    · next hm hn => exact iff_of_true hm hn
    · exact absurd hsign (by decide)
    · exact absurd hsign (by decide)
    · next hm hn => exact iff_of_false hm hn
  omega

/-! ### Variables -/

/-- A distance in brackets, unless it is zero. -/
def bracketed (rotation : Int32) : List Char :=
  if rotation = 0 then [] else '[' :: ((signed rotation.toInt).toList ++ [']'])

/-- What the text of a variable tells of its row. -/
def place (v : Variable) : List Char :=
  if v.relative then bracketed v.rotation else '@' :: (toString v.rotation.toInt).toList

/-- A rotation that is written at all begins with a bracket. -/
theorem head_bracketed {rotation : Int32} {c : Char} (h : c ∈ (bracketed rotation).head?) :
    c = '[' := by
  unfold bracketed at h
  split at h
  · cases h
  · exact (Option.some.inj h).symm

/-- A rotation that is left out is zero. -/
theorem bracketed_injective : Function.Injective bracketed := fun r s h => by
  unfold bracketed at h
  split at h <;> split at h
  · next hr hs => rw [hr, hs]
  · cases h
  · cases h
  · have htext := List.append_cancel_right (List.cons.inj h).2
    exact Int32.toInt_inj.mp (signed_injective (String.toList_injective htext))

/-- What follows the index of a variable is not a digit. -/
theorem endsDigits_place (v : Variable) : EndsDigits v.place := by
  intro c hc
  unfold place at hc
  split at hc
  · rw [head_bracketed hc]
    rfl
  · rw [← Option.some.inj hc]
    rfl

/-- What follows the index tells the rotation, and an absolute variable from a relative one. -/
theorem place_inj {v w : Variable} (h : v.place = w.place) :
    v.rotation = w.rotation ∧ v.relative = w.relative := by
  have hmixed {r : Int32} {text : List Char} : bracketed r ≠ '@' :: text := fun h =>
    absurd (head_bracketed (h ▸ rfl : '@' ∈ (bracketed r).head?)) (by decide)
  unfold place at h
  cases hv : v.relative <;> cases hw : w.relative <;> simp only [hv, hw, if_true] at h
  · have htext := String.toList_injective (List.cons.inj h).2
    rw [Int.toString_eq_repr, Int.toString_eq_repr] at htext
    exact ⟨Int32.toInt_inj.mp (Int.repr_injective htext), rfl⟩
  · exact absurd h.symm hmixed
  · exact absurd h hmixed
  · exact ⟨bracketed_injective h, rfl⟩

/-- The text of a variable is that of its kind, its index and its place. -/
theorem toList_toString (v : Variable) :
    v.toString.toList = v.kind.letters.toList ++ (Nat.toDigits 10 v.index.toNat ++ v.place) := by
  unfold Variable.toString place bracketed
  rw [String.toList_append, String.toList_append, toList_toString_nat, List.append_assoc]
  congr 2
  split
  · split
    · rfl
    · rw [String.toList_append, String.toList_append]
      rfl
  · rw [String.toList_append]
    rfl

/-- The characters of names that are not digits. -/
def nameSigns : List Char := ['w', 'p', 'i', 'c', 's', '[', '+', '-', ']', '@']

/-- A variable is written with few characters, none of which separates the tokens of an expression.
-/
theorem isDigit_or_mem_of_mem_toString {v : Variable} {c : Char} (h : c ∈ v.toString.toList) :
    c.isDigit = true ∨ c ∈ nameSigns := by
  have hdigits {n : Nat} (hc : c ∈ Nat.toDigits 10 n) : c.isDigit = true ∨ c ∈ nameSigns :=
    .inl (isDigit_of_mem_digits hc)
  rw [toList_toString, List.mem_append, List.mem_append] at h
  rcases h with hletter | hindex | hplace
  · have hletters : ∀ c ∈ v.kind.letters.toList, c ∈ nameSigns := by
      cases v.kind <;> simp [ColumnKind.letters, nameSigns]
    exact .inr (hletters c hletter)
  · exact hdigits hindex
  · unfold place bracketed at hplace
    split at hplace
    · split at hplace
      · cases hplace
      · rw [toList_signed, List.mem_cons, List.mem_append, List.mem_cons,
          List.mem_singleton] at hplace
        rcases hplace with rfl | (rfl | hdistance) | rfl
        · exact .inr (by decide)
        · exact .inr (by split <;> decide)
        · exact hdigits hdistance
        · exact .inr (by decide)
    · rw [toList_toString_int, List.mem_cons] at hplace
      rcases hplace with rfl | hrow
      · exact .inr (by decide)
      · split at hrow
        · rcases List.mem_cons.mp hrow with rfl | hrow
          · exact .inr (by decide)
          · exact hdigits hrow
        · exact hdigits hrow

/-- No letters of a kind are the beginning of those of another. -/
theorem letters_append_inj {c d : ColumnKind} {text text' : List Char}
    (h : c.letters.toList ++ text = d.letters.toList ++ text') : c = d ∧ text = text' := by
  cases c <;> cases d <;> simp_all [ColumnKind.letters]

/-- **The text of a variable** tells all of its attributes. -/
theorem toString_injective : Function.Injective Variable.toString := fun v w h => by
  have hchars := congrArg String.toList h
  rw [toList_toString, toList_toString] at hchars
  obtain ⟨hkind, hrest⟩ := letters_append_inj hchars
  obtain ⟨hindex, hplace⟩ := digits_append_inj v.endsDigits_place w.endsDigits_place hrest
  obtain ⟨hrotation, hrelative⟩ := place_inj hplace
  obtain ⟨kind, index, rotation, relative⟩ := v
  cases w
  exact (Variable.mk.injEq ..).mpr ⟨hkind, UInt32.toNat_inj.mp hindex, hrotation, hrelative⟩

end Variable

end Plonkish
