import Mathlib.Data.List.Basic
import Mathlib.Tactic.Common
import Plonkish.Proofs.Fault
import Plonkish.Wire.Codec

/-!
# Proofs — exact decoders

A decoder reads a form `S` exactly, `Exact n d S`, if it answers with `a` where, and only where, the
input starts with bytes that are a form of `a`, and runs out of input wherever the form is cut
short. `n` bounds the length of the inputs: a decoder of nested values is exact on inputs that are
no longer than its bound.

Both parts pass through a sequence of decoders (`Exact.bind`), so every decoder of the wire form is
exact: those of numbers, tags and truth values, then `exact_readVariable`, `exact_readTerm`, and, by
induction on the bound, `exact_readNested`.  The form of a value is the bytes that it is written in;
a count has 8 bytes, so a list is written faithfully if its length is below `2 ^ 64`, and a stored
term or expression `Fits` if that is so of its lists.

An exact decoder finds at most one value at the front of an input (`Exact.unique`), in the front
only (`Exact.run'_eq_ok_iff`), and none in a strict part of a form (`Exact.run'_cut`).
-/

namespace Plonkish

variable {k : BaseField}

namespace Stored

/-- The number of variables fits in the bytes of a count. -/
def Term.Fits (t : Term k) : Prop := t.vars.length < 2 ^ 64

/-- The terms fit. -/
def Expr.Fits : Expr k → Prop
  | term t => t.Fits
  | pow base _ => base.Fits
  | binop lhs rhs _ => lhs.Fits ∧ rhs.Fits

/-- The degree and the number of values fit in the bytes of a count. -/
def PointValues.Fits (p : PointValues k) : Prop := p.degree < 2 ^ 64 ∧ p.values.length < 2 ^ 64

end Stored

namespace Wire

variable {α β : Type}

/-- On inputs of at most `n` bytes, `d` reads exactly the bytes that `S` lists. -/
structure Exact (n : Nat) (d : Decoder α) (S : α → List UInt8 → Prop) : Prop where
  /-- A value is read where the input starts with a form of it. -/
  eq_ok_iff : ∀ {input a rest}, input.length ≤ n →
    (d input = .ok (a, rest) ↔ ∃ front, S a front ∧ input = front ++ rest)
  /-- Where a form is cut short, the input ends. -/
  eq_endOfInput : ∀ {input a more}, input.length ≤ n → S a (input ++ more) → more ≠ [] →
    d input = .error .endOfInput

/-- A value is written as `write` says, if it has `P`. -/
def Written (P : α → Prop) (write : α → List UInt8) (a : α) (front : List UInt8) : Prop :=
  P a ∧ front = write a

/-- Every value is written as `write` says. -/
abbrev WrittenAs (write : α → List UInt8) : α → List UInt8 → Prop := Written (fun _ => True) write

/-! ### Sequences of decoders -/

section Combinators

variable {n m : Nat} {d : Decoder α} {S S' : α → List UInt8 → Prop}

/-- What a decoder reads may be stated by any equivalent relation. -/
theorem Exact.congr (h : Exact n d S) (hS : ∀ a front, S a front ↔ S' a front) :
    Exact n d S' := by
  obtain rfl : S = S' := funext fun a => funext fun front => propext (hS a front)
  exact h

/-- A decoder that reads nothing leaves the input as it was. -/
theorem exact_pure (a : α) : Exact n (pure a : Decoder α) fun b front => b = a ∧ front = [] where
  eq_ok_iff {input b rest} _ := by
    constructor
    · rintro ⟨⟩
      exact ⟨[], ⟨rfl, rfl⟩, rfl⟩
    · rintro ⟨_, ⟨rfl, rfl⟩, rfl⟩
      rfl
  eq_endOfInput _ h hmore := absurd (List.append_eq_nil_iff.mp h.2).2 hmore

/-- A decoder that always refuses reads no input. -/
theorem exact_throw (e : DecodeError) : Exact n (throw e : Decoder α) fun _ _ => False where
  eq_ok_iff _ := ⟨nofun, fun ⟨_, h, _⟩ => h.elim⟩
  eq_endOfInput _ h := h.elim

/-- A sequence of two decoders reads the one form and then the other.  The second is only run on
what the first leaves. -/
theorem Exact.bind_of_le {f : α → Decoder β} {T : α → β → List UInt8 → Prop} (h : Exact n d S)
    (hf : ∀ a, Exact m (f a) (T a)) (hle : ∀ a first, S a first → n ≤ first.length + m) :
    Exact n (d >>= f) fun b front =>
      ∃ a first second, S a first ∧ T a b second ∧ front = first ++ second := by
  have hmid : ∀ {a first mid}, S a first → (first ++ mid).length ≤ n → mid.length ≤ m := by
    intro a first mid ha hlen
    have := hle a first ha
    rw [List.length_append] at hlen
    omega
  constructor
  · intro input b rest hlen
    have hrun : (d >>= f) input = .ok (b, rest) ↔ ∃ read, d input = .ok read ∧
        f read.1 read.2 = .ok (b, rest) := bind_eq_ok
    rw [hrun]
    constructor
    · rintro ⟨⟨a, mid⟩, hd, hmore⟩
      obtain ⟨first, ha, rfl⟩ := (h.eq_ok_iff hlen).mp hd
      obtain ⟨second, hb, rfl⟩ := ((hf a).eq_ok_iff (hmid ha hlen)).mp hmore
      exact ⟨first ++ second, ⟨a, first, second, ha, hb, rfl⟩, (List.append_assoc ..).symm⟩
    · rintro ⟨_, ⟨a, first, second, ha, hb, rfl⟩, rfl⟩
      rw [List.append_assoc] at hlen ⊢
      have hsecond := ((hf a).eq_ok_iff (hmid ha hlen)).mpr ⟨second, hb, rfl⟩
      exact ⟨(a, second ++ rest), (h.eq_ok_iff hlen).mpr ⟨first, ha, rfl⟩, hsecond⟩
  · rintro input b more hlen ⟨a, first, second, ha, hb, heq⟩ hmore
    -- The input ends inside the first form, or after it and inside the second.
    obtain ⟨cut, rfl, rfl⟩ | ⟨mid, rfl, rfl⟩ := List.append_eq_append_iff.mp heq
    · by_cases hcut : cut = []
      · subst hcut
        rw [List.append_nil] at ha
        have hd : d input = .ok (a, []) :=
          (h.eq_ok_iff hlen).mpr ⟨input, ha, (List.append_nil _).symm⟩
        exact (run_bind_of_ok hd).trans ((hf a).eq_endOfInput (Nat.zero_le m) hb hmore)
      · exact run_bind_of_error (h.eq_endOfInput hlen ha hcut)
    · have hd := (h.eq_ok_iff hlen).mpr ⟨first, ha, rfl⟩
      exact (run_bind_of_ok hd).trans ((hf a).eq_endOfInput (hmid ha hlen) hb hmore)

/-- Two decoders in sequence read two fronts of the input, one after the other. This is the lemma
that every composite reader below is opened with. -/
theorem Exact.bind {f : α → Decoder β} {T : α → β → List UInt8 → Prop} (h : Exact n d S)
    (hf : ∀ a, Exact n (f a) (T a)) :
    Exact n (d >>= f) fun b front =>
      ∃ a first second, S a first ∧ T a b second ∧ front = first ++ second :=
  h.bind_of_le hf fun _ _ _ => Nat.le_add_left ..

/-- The value that is read, brought into another shape. -/
theorem Exact.map (h : Exact n d S) (f : α → β) :
    Exact n (do return f (← d)) fun b front => ∃ a, S a front ∧ b = f a :=
  (h.bind fun a => exact_pure (f a)).congr fun b front => by
    constructor
    · rintro ⟨a, first, _, ha, ⟨rfl, rfl⟩, rfl⟩
      exact ⟨a, (List.append_nil first).symm ▸ ha, rfl⟩
    · rintro ⟨a, ha, rfl⟩
      exact ⟨a, front, [], ha, ⟨rfl, rfl⟩, (List.append_nil front).symm⟩

end Combinators

/-! ### What an exact decoder finds -/

section Runs

variable {n : Nat} {d : Decoder α} {S : α → List UInt8 → Prop} {input : List UInt8} {a : α}

/-- A whole run, which drops what is left of the input, answers `a` when some prefix of the input
reads as `a`. -/
theorem Exact.run'_eq_ok_iff (h : Exact n d S) (hlen : input.length ≤ n) :
    d.run' input = .ok a ↔ ∃ front, S a front ∧ front <+: input := by
  have hrun : d.run' input = .ok a ↔ ∃ read : α × List UInt8, d input = .ok read ∧ read.1 = a :=
    bind_pure_eq_ok
  rw [hrun]
  constructor
  · rintro ⟨⟨a, rest⟩, hd, rfl⟩
    obtain ⟨front, ha, rfl⟩ := (h.eq_ok_iff hlen).mp hd
    exact ⟨front, ha, List.prefix_append ..⟩
  · rintro ⟨front, ha, rest, rfl⟩
    exact ⟨(a, rest), (h.eq_ok_iff hlen).mpr ⟨front, ha, rfl⟩, rfl⟩

/-- What a value is written in decodes to the value, whatever follows. -/
theorem Exact.run'_append {front rest : List UInt8} (h : ∀ n, Exact n d S) (ha : S a front) :
    d.run' (front ++ rest) = .ok a :=
  ((h _).run'_eq_ok_iff le_rfl).mpr ⟨front, ha, List.prefix_append ..⟩

/-- At the front of an input there is at most one value. -/
theorem Exact.unique {b : α} {front other : List UInt8} (h : Exact n d S) (hlen : input.length ≤ n)
    (ha : S a front) (hfront : front <+: input) (hb : S b other) (hother : other <+: input) :
    a = b :=
  Except.ok.inj <| ((h.run'_eq_ok_iff hlen).mpr ⟨front, ha, hfront⟩).symm.trans
    ((h.run'_eq_ok_iff hlen).mpr ⟨other, hb, hother⟩)

/-- A strict part of the front of a form ends too early. -/
theorem Exact.run'_cut {front cut : List UInt8} (h : Exact n d S) (hlen : cut.length ≤ n)
    (ha : S a front) (hcut : cut <+: front) (hne : cut ≠ front) :
    d.run' cut = .error .endOfInput := by
  obtain ⟨more, rfl⟩ := hcut
  have hmore : more ≠ [] := fun h => hne (by rw [h, List.append_nil])
  exact congrArg (Prod.fst <$> ·) (h.eq_endOfInput hlen ha hmore)

end Runs

/-! ### Numbers, tags and truth values -/

section Scalars

variable {n : Nat}

/-- A byte is read exactly as it is written. -/
theorem exact_byte : Exact n byte (WrittenAs fun b => [b]) where
  eq_ok_iff {input b rest} _ := by
    cases input with
    | nil => exact ⟨nofun, fun ⟨_, ⟨_, hfront⟩, h⟩ => by simp [hfront] at h⟩
    | cons c input =>
        constructor
        · rintro ⟨⟩
          exact ⟨[b], ⟨trivial, rfl⟩, rfl⟩
        · rintro ⟨_, ⟨_, rfl⟩, h⟩
          cases h
          rfl
  eq_endOfInput {input b more} _ h hmore := by
    cases input with
    | nil => rfl
    | cons c input => simp [Written, hmore] at h

/-- A number is written with its last digit first. -/
theorem exact_number (width : Nat) :
    Exact n (number width) (Written (· < 256 ^ width) (numberBytes width)) := by
  induction width with
  | zero =>
      refine (exact_pure 0).congr fun m front => and_congr_left' ?_
      exact Nat.lt_one_iff.symm
  | succ width ih =>
      refine (exact_byte.bind fun low => ih.map fun high => low.toNat + 256 * high).congr ?_
      intro m front
      constructor
      · rintro ⟨low, _, second, ⟨-, rfl⟩, ⟨high, ⟨hhigh, rfl⟩, rfl⟩, rfl⟩
        have hlow := low.toNat_lt
        refine ⟨by rw [pow_succ]; omega, ?_⟩
        rw [numberBytes, List.singleton_append,
          show (low.toNat + 256 * high) / 256 = high by omega,
          show UInt8.ofNat (low.toNat + 256 * high) = low from UInt8.toNat_inj.mp (by
            rw [UInt8.toNat_ofNat']; omega)]
      · rintro ⟨hm, rfl⟩
        rw [pow_succ] at hm
        refine ⟨UInt8.ofNat m, [UInt8.ofNat m], numberBytes width (m / 256), ⟨trivial, rfl⟩,
          ⟨m / 256, ⟨by omega, rfl⟩, ?_⟩, rfl⟩
        rw [UInt8.toNat_ofNat']
        omega

/-- A tag is read exactly when the table of tags is an inverse of the numbering and its numbers fit
the width of a tag. -/
theorem exact_tagged {limit : Nat} {ofTag? : Nat → Option α} {tag : α → Nat}
    (htag : ∀ a, ofTag? (tag a) = some a) (hof : ∀ found a, ofTag? found = some a → found = tag a)
    (hlt : ∀ a, tag a < 256 ^ shortBytes) :
    Exact n (tagged limit ofTag?) (WrittenAs fun a => numberBytes shortBytes (tag a)) := by
  have hspec : Exact n (tagged limit ofTag?) _ :=
    (exact_number shortBytes).bind (T := fun found a front => ofTag? found = some a ∧ front = [])
      fun found => by
        cases ofTag? found with
        | some a => exact (exact_pure a).congr fun b front => by rw [Option.some_inj, eq_comm]
        | none => exact (exact_throw _).congr fun b front => by simp
  refine hspec.congr fun a front => ?_
  constructor
  · rintro ⟨found, _, _, ⟨-, rfl⟩, ⟨hfound, rfl⟩, rfl⟩
    rw [hof found a hfound, List.append_nil]
    exact ⟨trivial, rfl⟩
  · rintro ⟨-, rfl⟩
    exact ⟨tag a, _, [], ⟨hlt a, rfl⟩, ⟨htag a, rfl⟩, (List.append_nil _).symm⟩

/-- A truth value is one byte, `0` or `1`. -/
theorem exact_bool : Exact n bool (WrittenAs fun b => [if b then 1 else 0]) := by
  have hspec : Exact n bool _ :=
    exact_byte.bind (T := fun b r front => b = (if r then 1 else 0) ∧ front = []) fun b => by
      split
      · exact (exact_pure false).congr fun r front => by cases r <;> simp
      · exact (exact_pure true).congr fun r front => by cases r <;> simp
      · next h₀ h₁ =>
          refine (exact_throw _).congr fun r front => ⟨False.elim, ?_⟩
          rintro ⟨hb, -⟩
          cases r
          · exact h₀ hb
          · exact h₁ hb
  refine hspec.congr fun r front => ?_
  constructor
  · rintro ⟨b, _, _, ⟨-, rfl⟩, ⟨rfl, rfl⟩, rfl⟩
    exact ⟨trivial, rfl⟩
  · rintro ⟨-, rfl⟩
    exact ⟨_, _, [], ⟨trivial, rfl⟩, ⟨rfl, rfl⟩, rfl⟩

end Scalars

/-! ### Lists -/

section Lists

variable {n : Nat} {d : Decoder α} {P : α → Prop} {write : α → List UInt8}

/-- A given count of items, one after the other. By induction on the count. -/
theorem exact_many (h : Exact n d (Written P write)) (count : Nat) :
    Exact n (many d count)
      (Written (fun l => l.length = count ∧ ∀ a ∈ l, P a) (List.flatMap write)) := by
  induction count with
  | zero =>
      refine (exact_pure []).congr fun l front => ?_
      constructor
      · rintro ⟨rfl, rfl⟩
        exact ⟨⟨rfl, nofun⟩, rfl⟩
      · rintro ⟨⟨hlen, -⟩, rfl⟩
        obtain rfl := List.length_eq_zero_iff.mp hlen
        exact ⟨rfl, rfl⟩
  | succ count ih =>
      refine (h.bind fun first => ih.map (first :: ·)).congr fun l front => ?_
      constructor
      · rintro ⟨a, _, _, ⟨ha, rfl⟩, ⟨l, ⟨⟨rfl, hl⟩, rfl⟩, rfl⟩, rfl⟩
        exact ⟨⟨rfl, List.forall_mem_cons.mpr ⟨ha, hl⟩⟩, rfl⟩
      · rintro ⟨⟨hlen, hl⟩, rfl⟩
        obtain ⟨a, l, rfl⟩ := List.exists_cons_of_length_eq_add_one hlen
        rw [List.forall_mem_cons] at hl
        exact ⟨a, write a, l.flatMap write, ⟨hl.1, rfl⟩,
          ⟨l, ⟨⟨Nat.succ_inj.mp hlen, hl.2⟩, rfl⟩, rfl⟩, rfl⟩

/-- A list behind its own length. -/
theorem exact_counted (h : Exact n d (Written P write)) :
    Exact n (counted d)
      (Written (fun l => l.length < 2 ^ 64 ∧ ∀ a ∈ l, P a) (countedBytes write)) := by
  have hbound : 256 ^ countBytes = 2 ^ 64 := by decide
  refine ((exact_number countBytes).bind (exact_many h)).congr fun l front => ?_
  rw [hbound]
  constructor
  · rintro ⟨_, _, _, ⟨hlt, rfl⟩, ⟨⟨rfl, hl⟩, rfl⟩, rfl⟩
    exact ⟨⟨hlt, hl⟩, rfl⟩
  · rintro ⟨⟨hlt, hl⟩, rfl⟩
    exact ⟨l.length, _, _, ⟨hlt, rfl⟩, ⟨⟨rfl, hl⟩, rfl⟩, rfl⟩

end Lists

/-! ### Variables, terms and expressions -/

section Values

variable {n : Nat}

/-- A kind of column is read from its own number only. -/
theorem ColumnKind.eq_tag {found : Nat} {c : ColumnKind} (h : ColumnKind.ofTag? found = some c) :
    found = c.tag := by
  unfold ColumnKind.ofTag? at h
  split at h <;> cases h <;> rfl

theorem exact_columnKind :
    Exact n (tagged 4 ColumnKind.ofTag?) (WrittenAs fun c => numberBytes shortBytes c.tag) :=
  exact_tagged ColumnKind.ofTag?_tag (fun _ _ => ColumnKind.eq_tag) fun c => by
    cases c <;> decide

/-- A variable is read exactly as it is written. -/
theorem exact_readVariable : Exact n readVariable (WrittenAs variableBytes) := by
  refine (exact_columnKind.bind fun kind => (exact_number shortBytes).bind fun index =>
    (exact_number shortBytes).bind fun rotation => exact_bool.map fun relative =>
      (⟨kind, UInt32.ofNat index, (UInt32.ofNat rotation).toInt32, relative⟩ : Variable)).congr ?_
  intro v front
  constructor
  · rintro ⟨kind, _, _, ⟨-, rfl⟩, ⟨index, _, _, ⟨hindex, rfl⟩, ⟨rotation, _, _, ⟨hrot, rfl⟩,
      ⟨relative, ⟨-, rfl⟩, rfl⟩, rfl⟩, rfl⟩, rfl⟩
    have hindex' : index % 4294967296 = index := Nat.mod_eq_of_lt hindex
    have hrot' : rotation % 4294967296 = rotation := Nat.mod_eq_of_lt hrot
    exact ⟨trivial, by simp [variableBytes, hindex', hrot']⟩
  · rintro ⟨-, rfl⟩
    refine ⟨v.kind, _, _, ⟨trivial, rfl⟩, ⟨v.index.toNat, _, _, ⟨v.index.toNat_lt, rfl⟩,
      ⟨v.rotation.toUInt32.toNat, _, _, ⟨v.rotation.toUInt32.toNat_lt, rfl⟩, ⟨v.relative,
        ⟨trivial, rfl⟩, ?_⟩, rfl⟩, rfl⟩, ?_⟩
    · simp
    · simp [variableBytes]

/-- A coefficient is read as the stored word, with no reduction. -/
theorem exact_readWord : Exact n (readWord (k := k)) (WrittenAs wordBytes) := by
  have hrange : 256 ^ k.wordBytes = k.wordRange := by cases k <;> rfl
  refine ((exact_number k.wordBytes).map Word.ofBits).congr fun w front => ?_
  rw [hrange]
  constructor
  · rintro ⟨bits, ⟨hbits, rfl⟩, rfl⟩
    exact ⟨trivial, by simp only [wordBytes, Word.ofBits, Nat.mod_eq_of_lt hbits]⟩
  · rintro ⟨-, rfl⟩
    exact ⟨w.bits, ⟨w.bits_lt, rfl⟩, by simp only [Word.ofBits, Nat.mod_eq_of_lt w.bits_lt]⟩

/-- A term is read as it is stored: its coefficient and its list of variables, with the hash left
out. -/
theorem exact_readTerm :
    Exact n (readTerm (k := k)) (Written Stored.Term.Fits termBytes) := by
  refine (exact_readWord.bind fun coeff => (exact_counted exact_readVariable).map fun vars =>
    (⟨coeff, vars⟩ : Stored.Term k)).congr fun t front => ?_
  constructor
  · rintro ⟨coeff, _, _, ⟨-, rfl⟩, ⟨vars, ⟨⟨hlt, -⟩, rfl⟩, rfl⟩, rfl⟩
    exact ⟨hlt, rfl⟩
  · rintro ⟨hfits, rfl⟩
    exact ⟨t.coeff, _, _, ⟨trivial, rfl⟩, ⟨t.vars, ⟨⟨hfits, fun _ _ => trivial⟩, rfl⟩, rfl⟩, rfl⟩

theorem exact_readPointValues :
    Exact n (readPointValues (k := k)) (Written Stored.PointValues.Fits pointValuesBytes) := by
  have hbound : 256 ^ countBytes = 2 ^ 64 := by decide
  refine ((exact_number countBytes).bind fun degree =>
    (exact_counted exact_readWord).map fun values =>
    (⟨degree, values⟩ : Stored.PointValues k)).congr fun p front => ?_
  rw [hbound]
  constructor
  · rintro ⟨degree, _, _, ⟨hdegree, rfl⟩, ⟨values, ⟨⟨hlt, -⟩, rfl⟩, rfl⟩, rfl⟩
    exact ⟨⟨hdegree, hlt⟩, rfl⟩
  · rintro ⟨hfits, rfl⟩
    exact ⟨p.degree, _, _, ⟨hfits.1, rfl⟩, ⟨p.values, ⟨⟨hfits.2, fun _ _ => trivial⟩, rfl⟩, rfl⟩,
      rfl⟩

/-! ### Nested values -/

/-- The kind of the root. -/
def nodeKind : Stored.Expr k → NodeKind
  | .term _ => .term
  | .pow .. => .pow
  | .binop .. => .binop

/-- What is written after the tag of the root. -/
def bodyBytes : Stored.Expr k → List UInt8
  | .term t => termBytes t
  | .pow base power => exprBytes base ++ numberBytes shortBytes power.toNat
  | .binop lhs rhs op => exprBytes lhs ++ exprBytes rhs ++ numberBytes shortBytes op.tag

/-- An expression is its kind's tag and then the body that the kind asks for. -/
theorem exprBytes_eq (e : Stored.Expr k) :
    exprBytes e = numberBytes shortBytes (nodeKind e).tag ++ bodyBytes e := by
  cases e with
  | term t => rfl
  | pow base power => exact List.append_assoc ..
  | binop lhs rhs op => simp only [exprBytes, bodyBytes, nodeKind, List.append_assoc]

/-- Every expression takes at least one byte, which is why a reader that runs as deep as the input
is long never runs out. -/
theorem exprBytes_ne_nil (e : Stored.Expr k) : exprBytes e ≠ [] := by
  rw [exprBytes_eq]
  exact fun h => nomatch List.append_eq_nil_iff.mp h

/-- A node's kind is read from its own number only. -/
theorem NodeKind.eq_tag {found : Nat} {kind : NodeKind} (h : NodeKind.ofTag? found = some kind) :
    found = kind.tag := by
  unfold NodeKind.ofTag? at h
  split at h <;> cases h <;> rfl

/-- An operator is read from its own number only. -/
theorem Operator.eq_tag {found : Nat} {op : Operator} (h : Operator.ofTag? found = some op) :
    found = op.tag := by
  unfold Operator.ofTag? at h
  split at h <;> cases h <;> rfl

theorem exact_operator :
    Exact n (tagged 3 Operator.ofTag?) (WrittenAs fun op => numberBytes shortBytes op.tag) :=
  exact_tagged Operator.ofTag?_tag (fun _ _ => Operator.eq_tag) fun op => by cases op <;> decide

theorem exact_nodeKind :
    Exact n (tagged 3 NodeKind.ofTag?) (WrittenAs fun kind => numberBytes shortBytes kind.tag) :=
  exact_tagged NodeKind.ofTag?_tag (fun _ _ => NodeKind.eq_tag) fun kind => by
    cases kind <;> decide

/-- The expressions with a root of the kind, as they are written after its tag. -/
def BodyOf (kind : NodeKind) : Stored.Expr k → List UInt8 → Prop :=
  Written (fun e => nodeKind e = kind ∧ e.Fits) bodyBytes

/-- The body of a leaf. -/
theorem exact_term :
    Exact n (do return .term (← readTerm) : Decoder (Stored.Expr k)) (BodyOf .term) := by
  refine (exact_readTerm.map Stored.Expr.term).congr fun e front => ?_
  constructor
  · rintro ⟨t, ⟨hfits, rfl⟩, rfl⟩
    exact ⟨⟨rfl, hfits⟩, rfl⟩
  · rintro ⟨⟨hkind, hfits⟩, rfl⟩
    cases e with
    | term t => exact ⟨t, ⟨hfits, rfl⟩, rfl⟩
    | pow | binop => exact nomatch hkind

/-- The body of a power, given a reader of its base. -/
theorem exact_pow {d : Decoder (Stored.Expr k)}
    (h : Exact n d (Written Stored.Expr.Fits exprBytes)) :
    Exact n (do
      let base ← d
      let power ← number shortBytes
      return .pow base (UInt32.ofNat power)) (BodyOf (k := k) .pow) := by
  refine (h.bind fun base => (exact_number shortBytes).map fun power =>
    Stored.Expr.pow base (UInt32.ofNat power)).congr fun e front => ?_
  constructor
  · rintro ⟨base, _, _, ⟨hfits, rfl⟩, ⟨power, ⟨hpower, rfl⟩, rfl⟩, rfl⟩
    have hpower' : power % 4294967296 = power := Nat.mod_eq_of_lt hpower
    exact ⟨⟨rfl, hfits⟩, by simp [bodyBytes, hpower']⟩
  · rintro ⟨⟨hkind, hfits⟩, rfl⟩
    cases e with
    | pow base power =>
        exact ⟨base, _, _, ⟨hfits, rfl⟩, ⟨power.toNat, ⟨power.toNat_lt, rfl⟩, by simp⟩, rfl⟩
    | term | binop => exact nomatch hkind

/-- The body of a binary operation, given a reader of its operands. -/
theorem exact_binop {d : Decoder (Stored.Expr k)}
    (h : Exact n d (Written Stored.Expr.Fits exprBytes)) :
    Exact n (do
      let lhs ← d
      let rhs ← d
      let op ← tagged 3 Operator.ofTag?
      return .binop lhs rhs op) (BodyOf (k := k) .binop) := by
  refine (h.bind fun lhs => h.bind fun rhs => exact_operator.map fun op =>
    Stored.Expr.binop lhs rhs op).congr fun e front => ?_
  constructor
  · rintro ⟨lhs, _, _, ⟨hl, rfl⟩, ⟨rhs, _, _, ⟨hr, rfl⟩, ⟨op, ⟨-, rfl⟩, rfl⟩, rfl⟩, rfl⟩
    exact ⟨⟨rfl, hl, hr⟩, (List.append_assoc ..).symm⟩
  · rintro ⟨⟨hkind, hfits⟩, rfl⟩
    cases e with
    | binop lhs rhs op =>
        exact ⟨lhs, _, _, ⟨hfits.1, rfl⟩, ⟨rhs, _, _, ⟨hfits.2, rfl⟩, ⟨op, ⟨trivial, rfl⟩, rfl⟩,
          rfl⟩, List.append_assoc ..⟩
    | term | pow => exact nomatch hkind

/-- A decoder of nested values is exact on inputs that are no longer than its bound: the tag of the
root takes more than the one byte that the bound loses. -/
theorem exact_readNested (bound : List UInt8) :
    Exact bound.length (readNested (k := k) bound) (Written Stored.Expr.Fits exprBytes) := by
  induction bound with
  | nil =>
      constructor
      · intro input e rest hlen
        obtain rfl := List.length_eq_zero_iff.mp (Nat.le_zero.mp hlen)
        refine ⟨nofun, fun ⟨_, ⟨_, rfl⟩, h⟩ => ?_⟩
        exact absurd (List.append_eq_nil_iff.mp h.symm).1 (exprBytes_ne_nil e)
      · exact fun _ _ _ => rfl
  | cons _ bound ih =>
      refine (Exact.bind_of_le (n := bound.length + 1) (m := bound.length) (T := BodyOf)
        exact_nodeKind (fun kind => ?_) ?_).congr fun e front => ?_
      · cases kind with
        | term => exact exact_term
        | pow => exact exact_pow ih
        | binop => exact exact_binop ih
      · rintro kind _ ⟨-, rfl⟩
        rw [length_numberBytes, shortBytes]
        omega
      · constructor
        · rintro ⟨_, _, _, ⟨-, rfl⟩, ⟨⟨rfl, hfits⟩, rfl⟩, rfl⟩
          exact ⟨hfits, (exprBytes_eq e).symm⟩
        · rintro ⟨hfits, rfl⟩
          exact ⟨nodeKind e, _, _, ⟨trivial, rfl⟩, ⟨⟨rfl, hfits⟩, rfl⟩, exprBytes_eq e⟩

/-- An expression is read exactly, whatever the length of the input. -/
theorem exact_readExpr : Exact n (readExpr (k := k)) (Written Stored.Expr.Fits exprBytes) where
  eq_ok_iff {input _ _} _ := (exact_readNested input).eq_ok_iff le_rfl
  eq_endOfInput {input _ _} _ := (exact_readNested input).eq_endOfInput le_rfl

/-- A list of expressions is read exactly as it is written. -/
theorem exact_readExprs : Exact n (readExprs (k := k))
    (Written (fun l => l.length < 2 ^ 64 ∧ ∀ e ∈ l, e.Fits) exprsBytes) :=
  exact_counted exact_readExpr

end Values

end Wire

end Plonkish
