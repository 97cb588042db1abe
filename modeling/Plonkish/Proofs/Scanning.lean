import Mathlib.Data.List.TakeWhile
import Plonkish.Json.Stored
import Plonkish.Proofs.Fault
import Plonkish.Proofs.VariableText

/-!
# Proofs — reading the tokens of a text

`Reads r text x` says what a reader does with a text wherever it stands: after any blanks, and in
front of anything that no number goes on with, it comes to `x`.  It either gives the value of `x`
and leaves what follows the text, or stops with the problem of `x`.

* `reads_integer`, `reads_unsigned`: numbers are read from their decimals.
* `reads_boolean`: truth values are read from their words.
* `quotedText_quoted`: a string without characters to escape is read from its quotes.
* `read_eq`: what is read from a text that holds nothing else.
-/

namespace Plonkish.Json

variable {α β : Type}

/-! ### Blanks -/

/-- Blanks, and nothing else. -/
def Blank (text : List Char) : Prop := ∀ c ∈ text, isBlank c = true

@[simp] theorem blank_nil : Blank [] := nofun

theorem Blank.append {before between : List Char} (h : Blank before) (h' : Blank between) :
    Blank (before ++ between) := fun _ hc => (List.mem_append.mp hc).elim (h _) (h' _)

section Peeking

variable {before text : List Char} {c : Char}

/-- Whatever blanks stand before a character that is not one, the reader gets to that character. -/
theorem dropWhile_blank (h : Blank before) (hc : isBlank c = false) :
    (before ++ c :: text).dropWhile isBlank = c :: text := by
  rw [List.dropWhile_append_of_pos h, List.dropWhile_cons, hc]
  rfl

theorem peekToken_eq (h : Blank before) (hc : isBlank c = false) :
    peekToken (before ++ c :: text) = .ok (some c, c :: text) :=
  congrArg (fun ahead : List Char => Except.ok (ahead.head?, ahead)) (dropWhile_blank h hc)

theorem peekValue_eq (h : Blank before) (hc : isBlank c = false) :
    peekValue (before ++ c :: text) = .ok (c, c :: text) :=
  run_bind_of_ok (peekToken_eq h hc)

/-- A mark is read past the blanks before it. -/
theorem punctuation_eq (h : Blank before) (hc : isBlank c = false) :
    punctuation c (before ++ c :: text) = .ok ((), text) := by
  refine (run_bind_of_ok (peekToken_eq h hc)).trans ?_
  show (if c = c then advance else throw .malformed : Reader Unit) (c :: text) = _
  rw [if_pos rfl]
  rfl

theorem peekValue_cons (hc : isBlank c = false) : peekValue (c :: text) = .ok (c, c :: text) :=
  peekValue_eq blank_nil hc

theorem punctuation_cons (hc : isBlank c = false) : punctuation c (c :: text) = .ok ((), text) :=
  punctuation_eq blank_nil hc

/-- A list ends at its closing bracket. -/
theorem hasNext_close (h : Blank before) (hc : isBlank c = false) (first : Bool) :
    hasNext first c (before ++ c :: text) = .ok (false, c :: text) := by
  refine (run_bind_of_ok (peekValue_eq h hc)).trans ?_
  rw [if_pos rfl]
  rfl

/-- The first entry stands with no comma before it. -/
theorem hasNext_first {close : Char} (h : Blank before) (hc : isBlank c = false) (hne : c ≠ close) :
    hasNext true close (before ++ c :: text) = .ok (true, c :: text) := by
  refine (run_bind_of_ok (peekValue_eq h hc)).trans ?_
  rw [if_neg hne]
  rfl

/-- Every later entry stands after a comma. -/
theorem hasNext_comma {close : Char} {between : List Char} (h : Blank before) (h' : Blank between)
    (hc : isBlank c = false) (hne : c ≠ close) (hclose : ',' ≠ close) :
    hasNext false close (before ++ ',' :: (between ++ c :: text)) = .ok (true, c :: text) := by
  refine (run_bind_of_ok (peekValue_eq h (by decide))).trans ?_
  rw [if_neg hclose, if_neg Bool.false_ne_true, if_pos rfl]
  refine (run_bind_of_ok (rfl : advance (',' :: (between ++ c :: text)) = _)).trans ?_
  refine (run_bind_of_ok (peekValue_eq h' hc)).trans ?_
  rw [if_neg hne]
  rfl

end Peeking

/-! ### Texts that are read -/

/-- Whether a number may go on with a character. -/
def inNumber (c : Char) : Bool := c.isDigit || c = '.' || c = 'e' || c = 'E'

/-- No number goes on with the text. -/
def Ends (text : List Char) : Prop := ∀ c ∈ text.head?, inNumber c = false

@[simp] theorem ends_nil : Ends [] := nofun

/-- A number ends before a character that cannot be part of one. -/
theorem ends_cons {c : Char} (h : inNumber c = false) (text : List Char) : Ends (c :: text) := by
  rintro _ ⟨⟩
  exact h

theorem Blank.ends {text : List Char} (h : Blank text) : Ends text := fun c hc => by
  have hblank := h c (List.mem_of_mem_head? hc)
  simp only [isBlank, Bool.or_eq_true, decide_eq_true_eq] at hblank
  rcases hblank with ((rfl | rfl) | rfl) | rfl <;> rfl

theorem Ends.blank_append {before text : List Char} (h : Ends text) (hbefore : Blank before) :
    Ends (before ++ text) := by
  cases before with
  | nil => exact h
  | cons c before => exact ends_cons (hbefore.ends c rfl) (before ++ text)

theorem Ends.endsDigits {text : List Char} (h : Ends text) : EndsDigits text := fun c hc => by
  have hnumber := h c hc
  simp only [inNumber, Bool.or_eq_false_iff] at hnumber
  exact hnumber.1.1.1

/-- After any blanks and in front of what ends it, the reader comes with the text to `x`. -/
def Reads (r : Reader α) (text : List Char) (x : Except Problem α) : Prop :=
  ∀ before rest, Blank before → Ends rest → r (before ++ (text ++ rest)) = (·, rest) <$> x

section Reads

variable {r : Reader α} {text before : List Char} {x : Except Problem α} {a : α}

/-- What a reader answers may be stated by any equal answer. -/
theorem Reads.of_eq {y : Except Problem α} (h : Reads r text x) (hxy : x = y) : Reads r text y :=
  hxy ▸ h

/-- Blanks may stand in front of the text. -/
theorem Reads.after (h : Reads r text x) (hbefore : Blank before) : Reads r (before ++ text) x := by
  intro before' rest hbefore' hrest
  rw [List.append_assoc, ← List.append_assoc]
  exact h _ rest (hbefore'.append hbefore) hrest

/-- The value that is read, brought into another shape. -/
theorem Reads.map (h : Reads r text x) (f : α → β) :
    Reads (do return f (← r)) text (f <$> x) := by
  intro before rest hbefore hrest
  cases x with
  | ok a => exact run_bind_of_ok (h before rest hbefore hrest)
  | error p => exact run_bind_of_error (h before rest hbefore hrest)

/-- One value after another, which starts with a mark that no number goes on with. -/
theorem Reads.bind {f : α → Reader β} {y : α → Except Problem β} {mark : Char} {more : List Char}
    (h : Reads r text x) (hmark : inNumber mark = false)
    (hmore : ∀ a, x = .ok a → Reads (f a) (mark :: more) (y a)) :
    Reads (r >>= f) (text ++ mark :: more) (x >>= y) := by
  intro before rest hbefore hrest
  have hfirst := h before (mark :: more ++ rest) hbefore (ends_cons hmark _)
  rw [List.append_assoc]
  cases x with
  | ok a => exact (run_bind_of_ok hfirst).trans (hmore a rfl [] rest blank_nil hrest)
  | error p => exact run_bind_of_error hfirst

/-- **A text that holds one value** is read as that value, whatever blanks are around it. -/
theorem read_eq {s : String} {after : List Char} (h : Reads r text x) (hbefore : Blank before)
    (hafter : Blank after) (hs : s.toList = before ++ (text ++ after)) : read r s = x := by
  have hrun := h before after hbefore hafter.ends
  rw [← hs] at hrun
  have hend : after.dropWhile isBlank = [] := List.dropWhile_eq_nil_iff.mpr hafter
  have hpeek : peekToken after = .ok (none, []) :=
    congrArg (fun ahead : List Char => Except.ok (ahead.head?, ahead)) hend
  unfold read StateT.run'
  cases x with
  | ok a =>
      rw [run_bind_of_ok hrun, run_bind_of_ok hpeek]
      rfl
  | error p =>
      rw [run_bind_of_error hrun]
      rfl

end Reads

/-! ### Numbers -/

section Numbers

theorem le_foldl_digits (ds : List Nat) (n : Nat) : n ≤ ds.foldl (fun n d => 10 * n + d) n := by
  induction ds generalizing n with
  | nil => exact le_rfl
  | cons d ds ih => exact le_trans (by omega) (ih (10 * n + d))

/-- A number that fits in 64 bits is put together from all of its digits. -/
theorem accumulate_eq {ds : List Nat} {n : Nat} (h : ds.foldl (fun n d => 10 * n + d) n < 2 ^ 64) :
    accumulate n ds = (ds.foldl (fun n d => 10 * n + d) n, ds.length) := by
  induction ds generalizing n with
  | nil => rfl
  | cons d ds ih =>
      have hlt : 10 * n + d < 1 <<< 64 := (le_foldl_digits ds (10 * n + d)).trans_lt h
      rw [accumulate, if_pos hlt, ih h]
      rfl

/-- A numeral below `2^64` is read in full as a number of 64 bits. -/
theorem accumulate_digits {n : Nat} (h : n < 2 ^ 64) :
    accumulate 0 ((Nat.toDigits 10 n).map fun c => c.toNat - '0'.toNat) =
      (n, (Nat.toDigits 10 n).length) := by
  have hvalue : ((Nat.toDigits 10 n).map fun c => c.toNat - '0'.toNat).foldl
      (fun n d => 10 * n + d) 0 = n := by
    rw [List.foldl_map]
    exact Nat.ofDigitChars_ten_toDigits
  rw [accumulate_eq (hvalue.trans_lt h), hvalue, List.length_map]

/-- The decimals of a number start with zero only if there are no others. -/
theorem eq_nil_of_toDigits {n : Nat} {more : List Char} (h : Nat.toDigits 10 n = '0' :: more) :
    more = [] := by
  induction n using Nat.strong_induction_on generalizing more with
  | _ n ih =>
      by_cases hlt : n < 10
      · rw [Nat.toDigits_of_lt_base hlt] at h
        exact (List.cons.inj h).2.symm
      · rw [Nat.toDigits_of_base_le (by decide) (Nat.not_lt.mp hlt)] at h
        obtain ⟨c, cs, hcs⟩ :=
          List.exists_cons_of_ne_nil (Nat.toDigits_ne_nil (n := n / 10) (b := 10))
        rw [hcs] at h
        obtain rfl : c = '0' := (List.cons.inj h).1
        -- Then the number without its last digit is zero.
        have hzero : n / 10 = 0 := by
          have hvalue := Nat.ofDigitChars_ten_toDigits (n := n / 10)
          rw [hcs, ih (n / 10) (by omega) hcs] at hvalue
          exact hvalue.symm
        omega

/-- Reads a number after its sign. -/
def magnitude (negative : Bool) : Reader Numeral := do
  let first ← next
  if ¬ first.isDigit then throw .malformed
  let more ← digits
  if first = '0' ∧ more ≠ [] then throw .malformed
  let (significand, taken) := accumulate 0 ((first.toNat - '0'.toNat) :: more)
  let dropped := more.length + 1 - taken
  let mark ← peek
  if mark = some '.' then fractionPart significand dropped
  else if isExponentMark mark then exponentPart significand dropped
  else return .ofDigits negative significand dropped

theorem numeral_eq :
    numeral = (do
      let negative := (← peek) = some '-'
      if negative then advance
      magnitude negative) := rfl

/-- The digits of a numeral are read up to the first character that is not one. -/
theorem digits_append {ds rest : List Char} (h : ∀ c ∈ ds, c.isDigit = true)
    (hrest : EndsDigits rest) :
    digits (ds ++ rest) = .ok (ds.map fun c => c.toNat - '0'.toNat, rest) := by
  have htake : (ds ++ rest).takeWhile Char.isDigit = ds := by
    rw [List.takeWhile_append_of_pos h, hrest.takeWhile_eq, List.append_nil]
  have hdrop : (ds ++ rest).dropWhile Char.isDigit = rest := by
    have hall := List.takeWhile_append_dropWhile (p := Char.isDigit) (l := ds ++ rest)
    rw [htake] at hall
    exact List.append_cancel_left hall
  unfold digits
  rw [htake, hdrop]

/-- The decimal text of a number below `2^64` is read as that number, whatever its sign. -/
theorem magnitude_eq {n : Nat} (h : n < 2 ^ 64) (negative : Bool) {rest : List Char}
    (hrest : Ends rest) :
    magnitude negative (Nat.toDigits 10 n ++ rest) = .ok (.ofDigits negative n 0, rest) := by
  obtain ⟨d, ds, hds⟩ := List.exists_cons_of_ne_nil (Nat.toDigits_ne_nil (n := n) (b := 10))
  have hdigit : ∀ c ∈ d :: ds, c.isDigit = true := fun c hc => isDigit_of_mem_digits (hds ▸ hc)
  have hvalue := accumulate_digits h
  rw [hds, List.map_cons, List.length_cons] at hvalue
  have hzero : ¬ (d = '0' ∧ ds.map (fun c => c.toNat - '0'.toNat) ≠ []) := by
    rintro ⟨rfl, hne⟩
    rw [eq_nil_of_toDigits hds] at hne
    exact hne rfl
  have hpoint : rest.head? ≠ some '.' := fun hc => absurd (hrest '.' hc) (by decide)
  have hexponent : isExponentMark rest.head? = false := by
    rcases hhead : rest.head? with _ | c
    · rfl
    · have hc := hrest c hhead
      simp only [inNumber, Bool.or_eq_false_iff, decide_eq_false_iff_not] at hc
      simp [isExponentMark, hc]
  unfold magnitude
  rw [hds]
  refine (run_bind_of_ok (rfl : next (d :: (ds ++ rest)) = _)).trans ?_
  rw [if_neg (not_not.mpr (hdigit d List.mem_cons_self))]
  refine (run_bind_of_ok (digits_append (fun c hc => hdigit c (List.mem_cons_of_mem d hc))
    hrest.endsDigits)).trans ?_
  rw [if_neg hzero, hvalue]
  refine (run_bind_of_ok (rfl : peek rest = .ok (rest.head?, rest))).trans ?_
  rw [if_neg hpoint, hexponent, List.length_map, Nat.sub_self]
  rfl

/-- Every decimal text starts as a number does, with a digit or a minus sign. -/
theorem exists_startsNumber (n : Int) : ∃ c more, (toString n).toList = c :: more ∧
    startsNumber c = true ∧ isBlank c = false := by
  obtain ⟨d, ds, hds⟩ := List.exists_cons_of_ne_nil (Nat.toDigits_ne_nil (n := n.natAbs) (b := 10))
  have hdigit : d.isDigit = true := isDigit_of_mem_digits (hds ▸ List.mem_cons_self)
  rw [toList_toString_int, hds]
  split
  · exact ⟨'-', d :: ds, rfl, rfl, rfl⟩
  · refine ⟨d, ds, rfl, by simp [startsNumber, hdigit], ?_⟩
    rw [isBlank]
    simp only [Bool.or_eq_false_iff, decide_eq_false_iff_not]
    refine ⟨⟨⟨?_, ?_⟩, ?_⟩, ?_⟩ <;> (rintro rfl; exact absurd hdigit (by decide))

/-- The integers that the format holds are read back from their decimal text. -/
theorem numeral_toString {n : Int} (hlow : -0x8000000000000000 ≤ n)
    (hhigh : n < 0x10000000000000000) {rest : List Char} (hrest : Ends rest) :
    numeral ((toString n).toList ++ rest) = .ok (.integer n, rest) := by
  have habs : n.natAbs < 2 ^ 64 := by omega
  have hmagnitude (negative : Bool) := magnitude_eq habs negative hrest
  rw [numeral_eq, toList_toString_int]
  split
  · next hneg =>
      refine (run_bind_of_ok (rfl : peek ('-' :: (Nat.toDigits 10 n.natAbs ++ rest)) = _)).trans ?_
      refine (run_bind_of_ok (rfl : advance ('-' :: (Nat.toDigits 10 n.natAbs ++ rest)) = _)).trans
        ?_
      refine (hmagnitude true).trans ?_
      have hrange : 0 < n.natAbs ∧ n.natAbs ≤ 1 <<< 63 := ⟨by omega, by omega⟩
      have habs : -(n.natAbs : Int) = n := by omega
      rw [Numeral.ofDigits, if_neg (by simp), if_neg (by simp), if_pos hrange, habs]
  · next hpos =>
      obtain ⟨d, ds, hds⟩ :=
        List.exists_cons_of_ne_nil (Nat.toDigits_ne_nil (n := n.natAbs) (b := 10))
      have hdigit : d.isDigit = true := isDigit_of_mem_digits (hds ▸ List.mem_cons_self)
      have hsign : ¬ (Nat.toDigits 10 n.natAbs ++ rest).head? = some '-' := by
        rw [hds]
        rintro ⟨⟩
        exact absurd hdigit (by decide)
      refine (run_bind_of_ok (rfl : peek (Nat.toDigits 10 n.natAbs ++ rest) = _)).trans ?_
      rw [if_neg hsign, decide_eq_false hsign]
      refine (hmagnitude false).trans ?_
      have habs : (n.natAbs : Int) = n := by omega
      rw [Numeral.ofDigits, if_neg (by simp), if_pos (by simp), habs]

/-- **An integer** is read from its decimals. -/
theorem reads_integer {n low high : Int} (h64 : -0x8000000000000000 ≤ n ∧ n < 0x10000000000000000)
    (h : low ≤ n ∧ n < high) :
    Reads (integer low high) (toString n).toList (.ok n) := by
  intro before rest hbefore hrest
  obtain ⟨c, more, htext, hstart, hblank⟩ := exists_startsNumber n
  have hnumeral := numeral_toString h64.1 h64.2 hrest
  rw [htext] at hnumeral ⊢
  refine (run_bind_of_ok (peekValue_eq hbefore hblank)).trans ?_
  rw [if_neg (not_not.mpr hstart)]
  refine (run_bind_of_ok hnumeral).trans ?_
  show (if low ≤ n ∧ n < high then _ else _ : Reader Int) rest = _
  rw [if_pos h]
  rfl

/-- **A number** is read from its decimals. -/
theorem reads_unsigned {n bits : Nat} (hbits : bits ≤ 64) (h : n < 2 ^ bits) :
    Reads (unsigned bits) (toString n).toList (.ok n) := by
  have h64 : n < 2 ^ 64 := h.trans_le (Nat.pow_le_pow_right Nat.zero_lt_two hbits)
  have hhigh : (n : Int) < ((1 <<< bits : Nat) : Int) := by
    rw [Nat.one_shiftLeft]
    exact_mod_cast h
  have hread : Reads (integer 0 (1 <<< bits : Nat)) (toString (n : Int)).toList (.ok (n : Int)) :=
    reads_integer ⟨by omega, by omega⟩ ⟨by omega, hhigh⟩
  exact Reads.map hread Int.toNat

end Numbers

/-! ### Words and strings -/

section Words

/-- **A truth value** is read from its word. -/
theorem reads_boolean (b : Bool) : Reads boolean (boolText b).toList (.ok b) := by
  intro before rest hbefore hrest
  cases b with
  | false => exact run_bind_of_ok (peekValue_eq hbefore rfl)
  | true => exact run_bind_of_ok (peekValue_eq hbefore rfl)

/-- No character of the string needs an escape. -/
def Plain (s : String) : Prop := ∀ c ∈ s.toList, c ≠ '"' ∧ c ≠ '\\' ∧ ¬ c < ' '

instance (s : String) : Decidable (Plain s) := List.decidableBAll _ s.toList

/-- A text with nothing to escape is read up to its closing quote. -/
theorem textBody_plain {cs bound rest : List Char} (paired : Bool)
    (h : ∀ c ∈ cs, c ≠ '"' ∧ c ≠ '\\' ∧ ¬ c < ' ') (hbound : cs.length < bound.length) :
    textBody paired bound (cs ++ '"' :: rest) = .ok (cs, rest) := by
  induction cs generalizing bound with
  | nil =>
      obtain ⟨b, bound, rfl⟩ := List.exists_cons_of_length_pos hbound
      rfl
  | cons c cs ih =>
      obtain ⟨b, bound, rfl⟩ := List.exists_cons_of_length_pos (Nat.zero_lt_of_lt hbound)
      obtain ⟨hquote, hescape, hcontrol⟩ := h c List.mem_cons_self
      have hmore := ih (fun d hd => h d (List.mem_cons_of_mem c hd)) (Nat.lt_of_succ_lt_succ hbound)
      refine (run_bind_of_ok (rfl : next (c :: (cs ++ '"' :: rest)) = _)).trans ?_
      rw [if_neg hquote, if_neg hescape, if_neg hcontrol]
      exact run_bind_of_ok hmore

theorem toList_quoted (s : String) : (quoted s).toList = '"' :: (s.toList ++ ['"']) := by
  simp [quoted, String.toList_append]

/-- **A string** is read from its quotes, if no character needs an escape. -/
theorem quotedText_quoted {s : String} (h : Plain s) (paired : Bool) (rest : List Char) :
    quotedText paired ((quoted s).toList ++ rest) = .ok (s, rest) := by
  rw [toList_quoted, List.cons_append, List.append_assoc, List.singleton_append]
  refine (run_bind_of_ok (rfl : advance ('"' :: (s.toList ++ '"' :: rest)) = _)).trans ?_
  refine (run_bind_of_ok (rfl : (get : Reader _) (s.toList ++ '"' :: rest) = _)).trans ?_
  refine (run_bind_of_ok (textBody_plain paired h (by simp))).trans ?_
  rw [String.ofList_toList]
  rfl

end Words

end Plonkish.Json
