import Plonkish.Proofs.Lookups
import Plonkish.Proofs.Printing
import Plonkish.Proofs.Values

/-!
# Proofs — what a printed expression means

Different trees may have the same text: `(w0 * w1 * w2)` is the product of `w0 * w1` and `w2` as
well as that of `w0` and `w1 * w2`.  They have the same value, since the value can be computed from
the text.

A `TokenReader` goes through the tokens of an expression, and through the values of its variables as
they come.  For each node that is open it keeps the product of the factors that it has seen, so that
it does not matter which part of a product a factor belongs to.

* `Expr.named_tokens`: the variables are written in the order of their occurrences.
* `Expr.foldl_read`: to read the tokens of an expression is to multiply by its value.
* `Expr.evaluate_eq_of_toString_eq`: expressions with the same text have the same value.

`Expr.toString_faithful` is the result, together with that for variables.
-/

namespace Plonkish

variable {k : BaseField}

/-! ### Variables -/

/-- Separators that are filtered out leave the entries alone. -/
theorem filterMap_intercalate {α β : Type} {f : α → Option β} {sep : List α}
    (h : sep.filterMap f = []) (l : List (List α)) :
    (sep.intercalate l).filterMap f = l.flatten.filterMap f := by
  induction l with
  | nil => rfl
  | cons a l ih =>
      cases l with
      | nil => rw [List.intercalate_singleton, List.flatten_singleton]
      | cons b l =>
          show _ = (a ++ (b :: l).flatten).filterMap f
          rw [List.intercalate_cons_cons, List.filterMap_append, List.filterMap_append, h, ih,
            List.append_nil, List.filterMap_append]

/-- Separators that a fold passes over leave the fold of the entries. -/
theorem foldl_intercalate {α β : Type} {f : β → α → β} {sep : List α} (h : ∀ b, sep.foldl f b = b)
    (l : List (List α)) (b : β) : (sep.intercalate l).foldl f b = l.flatten.foldl f b := by
  induction l generalizing b with
  | nil => rfl
  | cons a l ih =>
      cases l with
      | nil => rw [List.intercalate_singleton, List.flatten_singleton]
      | cons a' l =>
          show _ = (a ++ (a' :: l).flatten).foldl f b
          rw [List.intercalate_cons_cons, List.foldl_append, List.foldl_append, h, ih,
            List.foldl_append]

theorem flatten_names (l : List Variable) :
    (l.map fun v => [Token.name v]).flatten = l.map Token.name := by
  rw [← List.flatMap_def, List.map_eq_flatMap]

/-- A coefficient names no variable. -/
theorem named_coefficientTokens (c : Word k) :
    (coefficientTokens c).filterMap Token.named = [] := by
  unfold coefficientTokens
  split <;> rfl

/-- Nor do the brackets of a node. -/
theorem named_node (tokens : List Token) :
    (Token.opening :: tokens ++ [Token.closing]).filterMap Token.named =
      tokens.filterMap Token.named := by
  rw [List.cons_append, List.filterMap_cons_none rfl, List.filterMap_append]
  exact List.append_nil _

/-- The names in the text of a term are its variables in order. -/
theorem Term.named_tokens (t : Term k) : t.tokens.filterMap Token.named = t.vars := by
  have hnames : (t.vars.map Token.name).filterMap Token.named = t.vars := by
    rw [List.filterMap_map]
    exact List.filterMap_some
  unfold Term.tokens
  rw [filterMap_intercalate rfl]
  split
  · rw [flatten_names, hnames]
  · rw [List.flatten_cons, List.filterMap_append, named_coefficientTokens, flatten_names, hnames,
      List.nil_append]

/-- The variables of an expression are written in the order of their occurrences. -/
theorem Expr.named_tokens (e : Expr k) : e.tokens.filterMap Token.named = e.occurrences := by
  induction e with
  | term t =>
      rw [occurrences_term]
      exact t.named_tokens
  | pow base power ih =>
      rw [occurrences_pow, ← ih, tokens, named_node, List.filterMap_append]
      exact List.append_nil _
  | binop lhs rhs op ihl ihr =>
      rw [occurrences_binop, ← ihl, ← ihr, tokens, named_node, List.filterMap_append]
      rfl

/-! ### Reading -/

/-- What has been read of a node. -/
structure OpenNode (k : BaseField) where
  /-- The left operand and the operator, if the right operand is being read. -/
  left : Option (Felt k × Operator)
  /-- The product of the factors of the operand. -/
  product : Felt k
  /-- Whether the next number is an exponent. -/
  raising : Bool

namespace OpenNode

/-- Nothing has been read. -/
def start : OpenNode k := ⟨none, 1, false⟩

/-- The value if the node ends. -/
def value (g : OpenNode k) : Felt k :=
  match g.left with
  | none => g.product
  | some (a, op) => (Algebra.field k).apply op a g.product

/-- A factor is read. -/
def times (g : OpenNode k) (a : Felt k) : OpenNode k := { g with product := g.product * a }

/-- A number is read. -/
def number (g : OpenNode k) (n : Nat) : OpenNode k :=
  if g.raising then { g with product := g.product ^ n, raising := false } else g.times (.ofNat n)

/-- The sign of an operator is read.  Between factors, multiplication has nothing to do. -/
def sign (g : OpenNode k) : Operator → OpenNode k
  | .mult => g
  | op => ⟨some (g.product, op), 1, false⟩

/-- A node multiplies by two factors as by their product. -/
theorem times_times (g : OpenNode k) (a b : Felt k) : (g.times a).times b = g.times (a * b) := by
  rw [times, times, times, mul_assoc]

theorem times_one (g : OpenNode k) : g.times 1 = g := by
  rw [times, mul_one]

/-- A sign opens no exponent. -/
theorem raising_sign {g : OpenNode k} (h : g.raising = false) (op : Operator) :
    (g.sign op).raising = false := by
  cases op with
  | mult => exact h
  | _ => rfl

/-- A node of two operands, each of which has been read. -/
theorem value_operands (a b : Felt k) (op : Operator) :
    (((start.times a).sign op).times b).value = (Algebra.field k).apply op a b := by
  cases op with
  | mult =>
      show 1 * a * b = a * b
      rw [one_mul]
  | add =>
      show 1 * a + 1 * b = a + b
      rw [one_mul, one_mul]
  | sub =>
      show 1 * a - 1 * b = a - b
      rw [one_mul, one_mul]

end OpenNode

/-- A reader of tokens. -/
structure TokenReader (k : BaseField) where
  /-- The innermost node that is open. -/
  node : OpenNode k
  /-- The nodes around it. -/
  outer : List (OpenNode k)
  /-- The values of the variables that are still to be read. -/
  values : List (Felt k)

/-- Reads a token. -/
def TokenReader.read (r : TokenReader k) : Token → TokenReader k
  | .opening => { r with node := .start, outer := r.node :: r.outer }
  | .closing =>
    match r.outer with
    | [] => r
    | g :: outer => { r with node := g.times r.node.value, outer }
  | .operator op => { r with node := r.node.sign op }
  | .caret => { r with node.raising := true }
  | .minusOne => { r with node := r.node.times (-1) }
  | .number n => { r with node := r.node.number n }
  | .name _ =>
    match r.values with
    | [] => r
    | a :: values => { r with node := r.node.times a, values }

/-- The text of a node is read within its own brackets, from a fresh node. -/
theorem foldl_read_node (tokens : List Token) (g : OpenNode k) (outer : List (OpenNode k))
    (values : List (Felt k)) :
    (Token.opening :: tokens ++ [Token.closing]).foldl TokenReader.read ⟨g, outer, values⟩ =
      (tokens.foldl TokenReader.read ⟨.start, g :: outer, values⟩).read .closing := by
  rw [List.cons_append, List.foldl_cons, List.foldl_append]
  rfl

/-- A coefficient, when it is printed, multiplies by its residue. -/
theorem foldl_read_coefficient (c : Word k) {g : OpenNode k} (h : g.raising = false)
    (outer : List (OpenNode k)) (values : List (Felt k)) :
    (coefficientTokens c).foldl TokenReader.read ⟨g, outer, values⟩ =
      ⟨g.times c.felt, outer, values⟩ := by
  unfold coefficientTokens
  split
  · next hminus =>
      have hfelt : c.felt = -1 := (Word.felt_eq_of_beq hminus).trans (Word.felt_word (-1))
      show (⟨g.times (1 * -1), outer, values⟩ : TokenReader k) = _
      rw [one_mul, hfelt]
  · show (⟨g.number c.felt.val, outer, values⟩ : TokenReader k) = _
    rw [OpenNode.number, h, if_neg Bool.false_ne_true, Felt.ofNat_val]

/-- The names of a term multiply by the values given for them in order. By induction on the names.
-/
theorem foldl_read_names {l : List Variable} {values : List (Felt k)} (h : values.length = l.length)
    (g : OpenNode k) (outer : List (OpenNode k)) (rest : List (Felt k)) :
    (l.map Token.name).foldl TokenReader.read ⟨g, outer, values ++ rest⟩ =
      ⟨g.times values.prod, outer, rest⟩ := by
  induction l generalizing values g with
  | nil =>
      obtain rfl := List.eq_nil_of_length_eq_zero h
      rw [List.prod_nil, OpenNode.times_one]
      rfl
  | cons v l ih =>
      cases values with
      | nil => cases h
      | cons a values =>
          rw [List.prod_cons, ← OpenNode.times_times]
          exact ih (Nat.succ.inj h) (g.times a)

/-- The text of a term multiplies by the term's value. -/
theorem Term.foldl_read (t : Term k) {values : List (Felt k)} (hlen : values.length = t.vars.length)
    {g : OpenNode k} (h : g.raising = false) (outer : List (OpenNode k)) (rest : List (Felt k)) :
    t.tokens.foldl TokenReader.read ⟨g, outer, values ++ rest⟩ =
      ⟨g.times (t.combine (.field k) values), outer, rest⟩ := by
  rw [combine_field, ← OpenNode.times_times]
  unfold Term.tokens
  rw [foldl_intercalate fun _ => rfl]
  split
  · next hone =>
      rw [flatten_names, foldl_read_names hlen, Word.felt_eq_of_beq hone.1, Word.felt_one,
        OpenNode.times_one]
  · rw [List.flatten_cons, List.foldl_append, foldl_read_coefficient t.coeff h, flatten_names,
      foldl_read_names hlen]

/-- **To read an expression** is to multiply by its value. -/
theorem Expr.foldl_read (e : Expr k) {values : List (Felt k)}
    (hlen : values.length = e.occurrences.length) {g : OpenNode k} (h : g.raising = false)
    (outer : List (OpenNode k)) (rest : List (Felt k)) :
    e.tokens.foldl TokenReader.read ⟨g, outer, values ++ rest⟩ =
      ⟨g.times (e.combine (.field k) values), outer, rest⟩ := by
  induction e generalizing values g outer rest with
  | term t =>
      rw [occurrences_term] at hlen
      exact t.foldl_read hlen h outer rest
  | pow base power ih =>
      set x := base.combine (.field k) values
      rw [tokens, foldl_read_node, List.foldl_append, ih hlen rfl]
      show (⟨g.times ((1 * x) ^ power.toNat), outer, rest⟩ : TokenReader k) = _
      rw [one_mul]
      rfl
  | binop lhs rhs op ihl ihr =>
      rw [occurrences_binop, List.length_append] at hlen
      -- The values are those of the left operand, and then those of the right one.
      set n := lhs.occurrences.length
      have hvalues : values ++ rest = values.take n ++ (values.drop n ++ rest) := by
        rw [← List.append_assoc, List.take_append_drop]
      have hlhs := @ihl (values.take n) (List.length_take_of_le (by omega)) .start rfl (g :: outer)
        (values.drop n ++ rest)
      set x := lhs.combine (.field k) (values.take n)
      have hrhs := @ihr (values.drop n) (by rw [List.length_drop]; omega)
        ((OpenNode.times .start x).sign op) (OpenNode.raising_sign rfl op) (g :: outer) rest
      rw [tokens, foldl_read_node, List.foldl_append, hvalues, hlhs]
      refine (congrArg (TokenReader.read · .closing) hrhs).trans ?_
      show (⟨g.times (OpenNode.value _), outer, rest⟩ : TokenReader k) = _
      rw [OpenNode.value_operands]
      rfl

/-! ### Values -/

/-- **Expressions with the same text** have the same value, whatever looking a variable up may do.
-/
theorem Expr.evaluate_eq_of_toString_eq {m : Type → Type} [Monad m] [LawfulMonad m] {a b : Expr k}
    (h : a.toString = b.toString) (look : Variable → m (Felt k)) :
    a.evaluate (.field k) look = b.evaluate (.field k) look := by
  have htokens := tokens_eq h
  have hoccurrences : a.occurrences = b.occurrences := by
    rw [← named_tokens, htokens, named_tokens]
  have hcombine (values : List (Felt k)) (hlen : values.length = a.occurrences.length) :
      a.combine (.field k) values = b.combine (.field k) values := by
    have ha := a.foldl_read (g := .start) hlen rfl [] []
    have hb := b.foldl_read (g := .start) (hoccurrences ▸ hlen) rfl [] []
    rw [htokens, hb] at ha
    have hproduct := congrArg (·.node.product) ha
    simpa [OpenNode.times, OpenNode.start] using hproduct.symm
  rw [evaluate_eq_mapM, evaluate_eq_mapM, ← hoccurrences, map_eq_pure_bind, map_eq_pure_bind]
  exact mapM_bind_congr fun values hlen => congrArg pure (hcombine values hlen)

/-- **A text has one meaning.**  Expressions over proper words that are written the same have the
same value under every valuation of the variables, and if looking a variable up may fail, the same
failure. The text of a variable tells its region, its index, its rotation, and whether it is
relative. -/
theorem Expr.toString_faithful :
    (∀ a b : Expr k, a.Proper → b.Proper → a.toString = b.toString →
      (∀ valuation, a.scalar valuation = b.scalar valuation) ∧
      ∀ {ε : Type} (look : Variable → Except ε (Felt k)),
        a.evaluate (.scalars k) (fun v => Felt.scalar <$> look v) =
          b.evaluate (.scalars k) (fun v => Felt.scalar <$> look v)) ∧
    ∀ v w : Variable, v.toString = w.toString → v = w := by
  refine ⟨fun a b ha hb h => ⟨fun valuation => ?_, fun look => ?_⟩, fun v w h => ?_⟩
  · have hvalue : a.value valuation = b.value valuation := by
      rw [value, value, ← run_evaluate, ← run_evaluate]
      exact congrArg Id.run (evaluate_eq_of_toString_eq h fun v => pure (valuation v))
    rw [scalar_eq_scalar_value ha, scalar_eq_scalar_value hb, hvalue]
  · rw [evaluate_scalars ha, evaluate_scalars hb, evaluate_eq_of_toString_eq h]
  · exact Variable.toString_injective h

/-- Products of three variables are written the same, although they are different trees. -/
theorem Expr.toString_faithful_regrouped :
    ∃ a b : Expr .goldilocks,
      a.toString = "(w0 * w1[-1] * pi2@7)" ∧ b.toString = "(w0 * w1[-1] * pi2@7)" ∧
        a.same b = false ∧
        a.Proper ∧ b.Proper ∧ ∀ valuation, a.scalar valuation = b.scalar valuation :=
  let x : Variable := .relativeTo .witness 0 0
  let y : Variable := .relativeTo .witness 1 (-1)
  let z : Variable := ⟨.publicInput, 2, 7, false⟩
  let a := binop (term ⟨1, [x, y], by decide, by decide⟩)
    (term ⟨1, [z], by decide, by decide⟩) .mult
  let b := binop (term ⟨1, [x], by decide, by decide⟩)
    (term ⟨1, [y, z], by decide, by decide⟩) .mult
  have ha : a.Proper := ⟨Word.closed_proper.one, Word.closed_proper.one⟩
  have hb : b.Proper := ⟨Word.closed_proper.one, Word.closed_proper.one⟩
  ⟨a, b, by decide +kernel, by decide +kernel, by decide, ha, hb,
    (toString_faithful.1 a b ha hb (by decide +kernel)).1⟩

/-- Over BabyBear, the order as a word is written as zero is, but is not equal to it. -/
example : ∃ a b : Expr .babyBear, a.toString = "0" ∧ b.toString = "0" ∧
    a.scalar (fun _ => 0) ≠ b.scalar (fun _ => 0) :=
  ⟨.literal (.ofBits 2013265921), .zero, by decide +kernel⟩

end Plonkish
