import Plonkish.Hashed
import Plonkish.Proofs.Decoders

/-!
# Proofs — what is decoded

Values are read back as they were written, with everything that is kept beside them:

* `decode_encode_append` — what a variable, a term, an expression or a list of expressions is
  written in decodes to it, with the digest at each node, whatever bytes follow;
* `decode_accepts_grammar` — bytes decode to an expression over Goldilocks exactly if they start
  with the bytes of a stored one.  There is only one, no shorter part of its bytes decodes, and what
  is made of it has its terms in normal form and its digests fresh.

`Stored.Expr.NormalForm` says what is made of a stored expression without saying how: the tree and
the coefficients stay, the variables of each term are listed in order, and those under coefficient
zero are dropped.  This leaves no choice (`Stored.Expr.normalForm_iff`).
-/

namespace Plonkish

variable {k : BaseField}

/-! ### Normal forms -/

namespace Stored

/-- `u` is the term `t` with its variables in order, or without them under coefficient zero. -/
structure Term.NormalForm (t : Term .goldilocks) (u : Plonkish.Term .goldilocks) : Prop where
  /-- The word of the coefficient stays. -/
  coeff_eq : u.coeff = t.coeff
  /-- Under coefficient zero there are no variables. -/
  vars_eq_nil : t.coeff.bits % BaseField.goldilocks.order = 0 → u.vars = []
  /-- The variables are those of `t`, a power repeated. -/
  perm : t.coeff.bits % BaseField.goldilocks.order ≠ 0 → u.vars.Perm t.vars
  /-- The variables are in order. -/
  pairwise : u.vars.Pairwise (· ≤ ·)

/-- The second tree is the first with each term brought to normal form. -/
inductive Expr.NormalForm : Expr .goldilocks → Plonkish.Expr .goldilocks → Prop where
  /-- A term. -/
  | term {t : Term .goldilocks} {u : Plonkish.Term .goldilocks} (h : t.NormalForm u) :
    NormalForm (.term t) (.term u)
  /-- A power stays a power. -/
  | pow {base : Expr .goldilocks} {a : Plonkish.Expr .goldilocks} (power : UInt32)
    (h : NormalForm base a) : NormalForm (.pow base power) (.pow a power)
  /-- An operation stays the same operation. -/
  | binop {lhs rhs : Expr .goldilocks} {a b : Plonkish.Expr .goldilocks} (op : Operator)
    (hl : NormalForm lhs a) (hr : NormalForm rhs b) : NormalForm (.binop lhs rhs op) (.binop a b op)

theorem Term.normalForm_iff {t : Term .goldilocks} {u : Plonkish.Term .goldilocks} :
    t.NormalForm u ↔ u = t.toTerm := by
  have hzero : t.coeff == 0 ↔ t.coeff.bits % BaseField.goldilocks.order = 0 := Word.beq_iff
  constructor
  · intro h
    refine Plonkish.Term.ext h.coeff_eq ?_
    rw [toTerm, Plonkish.Term.vars_of, Plonkish.Term.normalVars]
    split
    · next hc => exact h.vars_eq_nil (hzero.mp hc)
    · next hc =>
        exact ((h.perm (mt hzero.mpr hc)).trans (Variable.sort_perm _).symm).eq_of_pairwise
          (fun _ _ _ _ => Variable.le_antisymm) h.pairwise (Variable.pairwise_sort _)
  · rintro rfl
    refine ⟨rfl, fun hc => t.toTerm.vars_eq_nil (hzero.mpr hc), fun hc => ?_, t.toTerm.sorted⟩
    rw [toTerm, Plonkish.Term.vars_of, Plonkish.Term.normalVars, if_neg (mt hzero.mp hc)]
    exact Variable.sort_perm _

/-- There is one normal form, and it is the expression that is made of the stored one. -/
theorem Expr.normalForm_iff {r : Expr .goldilocks} {e : Plonkish.Expr .goldilocks} :
    r.NormalForm e ↔ e = r.toExpr := by
  constructor
  · intro h
    induction h with
    | term h => rw [toExpr, Term.normalForm_iff.mp h]
    | pow power _ ih => rw [toExpr, ih]
    | binop op _ _ ihl ihr => rw [toExpr, ihl, ihr]
  · rintro rfl
    induction r with
    | term t => exact .term (Term.normalForm_iff.mpr rfl)
    | pow base power ih => exact .pow power ih
    | binop lhs rhs op ihl ihr => exact .binop op ihl ihr

/-- A normal form has no more variables than what it is made of. -/
theorem Term.Fits.toTerm {t : Term k} (h : t.Fits) : t.toTerm.stored.Fits := by
  refine lt_of_le_of_lt ?_ h
  show (Plonkish.Term.normalVars t.coeff t.vars).length ≤ _
  rw [Plonkish.Term.normalVars]
  split
  · exact Nat.zero_le _
  · exact (Variable.sort_perm _).length_eq.le

theorem Expr.Fits.toExpr {r : Expr k} (h : r.Fits) : r.toExpr.stored.Fits := by
  induction r with
  | term t => exact Term.Fits.toTerm h
  | pow base power ih => exact ih h
  | binop lhs rhs op ihl ihr => exact ⟨ihl h.1, ihr h.2⟩

/-- The stored form of `(5 * w1 * w0 - 0 * w0) ^ 3`, with variables out of order and under
coefficient zero. -/
def Expr.cubed : Expr .goldilocks :=
  .pow (.binop (.term ⟨.ofBits 5, [.relativeTo .witness 1 0, .relativeTo .witness 0 0]⟩)
    (.term ⟨.ofBits BaseField.goldilocks.order, [.relativeTo .witness 0 0]⟩) .sub) 3

theorem Expr.fits_cubed : Expr.cubed.Fits :=
  ⟨show 2 < 2 ^ 64 by decide, show 1 < 2 ^ 64 by decide⟩

end Stored

/-! ### Decoding with digests -/

/-- Decoding forms the digests together with the nodes. -/
theorem Hashed.Term.decode_eq (D : Digesting k) (bytes : List UInt8) :
    Hashed.Term.decode D bytes = Plonkish.Term.hashed D <$> Plonkish.Term.decode bytes := by
  unfold decode Plonkish.Term.decode
  cases Wire.readTerm.run' bytes with
  | error e => rfl
  | ok t => rfl

theorem Hashed.Expr.decode_eq (D : Digesting k) (bytes : List UInt8) :
    Hashed.Expr.decode D bytes = Plonkish.Expr.hashed D <$> Plonkish.Expr.decode bytes := by
  unfold decode Plonkish.Expr.decode
  cases Wire.readExpr.run' bytes with
  | error e => rfl
  | ok r => exact congrArg Except.ok (r.toHashed_eq D)

theorem Hashed.Expr.decodeList_eq (D : Digesting k) (bytes : List UInt8) :
    Hashed.Expr.decodeList D bytes =
      List.map (Plonkish.Expr.hashed D) <$> Plonkish.Expr.decodeList bytes := by
  unfold decodeList Plonkish.Expr.decodeList
  cases Wire.readExprs.run' bytes with
  | error e => rfl
  | ok l =>
      refine congrArg Except.ok ?_
      rw [List.map_map]
      exact List.map_congr_left fun r _ => r.toHashed_eq D

namespace Wire

/-- An expression that decodes has fresh digests, whatever the bytes are. -/
theorem fresh_of_decode {D : Digesting k} {bytes : List UInt8} {e : Hashed.Expr k}
    (h : Hashed.Expr.decode D bytes = .ok e) : e.Fresh D := by
  rw [Hashed.Expr.decode_eq] at h
  obtain ⟨a, -, rfl⟩ := bind_pure_eq_ok.mp h
  exact a.fresh_hashed D

/-! ### Decoding what was encoded -/

theorem variable_decode_append (v : Variable) (rest : List UInt8) :
    Variable.decode (v.encode ++ rest) = .ok v :=
  Exact.run'_append (fun _ => exact_readVariable) ⟨trivial, rfl⟩

theorem term_decode_append {t : Term k} (h : t.stored.Fits) (rest : List UInt8) :
    Term.decode (t.encode ++ rest) = .ok t :=
  bind_pure_eq_ok.mpr ⟨t.stored, Exact.run'_append (fun _ => exact_readTerm) ⟨h, rfl⟩,
    Stored.Term.toTerm_stored t⟩

theorem expr_decode_append {e : Expr k} (h : e.stored.Fits) (rest : List UInt8) :
    Expr.decode (e.encode ++ rest) = .ok e :=
  bind_pure_eq_ok.mpr ⟨e.stored, Exact.run'_append (fun _ => exact_readExpr) ⟨h, e.encode_eq⟩,
    Stored.Expr.toExpr_stored e⟩

theorem decodeList_append {l : List (Expr k)} (hlen : l.length < 2 ^ 64)
    (h : ∀ e ∈ l, e.stored.Fits) (rest : List UInt8) :
    Expr.decodeList (Expr.encodeList l ++ rest) = .ok l := by
  refine bind_pure_eq_ok.mpr ⟨l.map Expr.stored,
    Exact.run'_append (fun _ => exact_readExprs) ⟨⟨?_, ?_⟩, rfl⟩, ?_⟩
  · rwa [List.length_map]
  · exact List.forall_mem_map.mpr h
  · rw [List.map_map]
    exact List.map_id'' Stored.Expr.toExpr_stored l

/-- **Decoding undoes encoding**, whatever bytes follow: variables, terms, expressions and lists of
expressions are read back as they are, and with the digest that each node keeps. -/
theorem decode_encode_append (D : Digesting k) (rest : List UInt8) :
    (∀ v : Variable, Variable.decode (v.encode ++ rest) = .ok v) ∧
    (∀ t : Term k, t.stored.Fits →
      Term.decode (t.encode ++ rest) = .ok t ∧
      Hashed.Term.decode D ((t.hashed D).encode ++ rest) = .ok (t.hashed D)) ∧
    (∀ e : Expr k, e.stored.Fits →
      Expr.decode (e.encode ++ rest) = .ok e ∧
      Hashed.Expr.decode D ((e.hashed D).encode ++ rest) = .ok (e.hashed D)) ∧
    (∀ l : List (Expr k), l.length < 2 ^ 64 → (∀ e ∈ l, e.stored.Fits) →
      Expr.decodeList (Expr.encodeList l ++ rest) = .ok l ∧
      Hashed.Expr.decodeList D (Hashed.Expr.encodeList (l.map (Expr.hashed D)) ++ rest) =
        .ok (l.map (Expr.hashed D))) := by
  refine ⟨fun v => variable_decode_append v rest, fun t ht => ?_, fun e he => ?_,
    fun l hlen hl => ?_⟩
  · have h := term_decode_append ht rest
    refine ⟨h, ?_⟩
    rw [Hashed.Term.decode_eq, show (t.hashed D).encode = t.encode from rfl, h]
    rfl
  · have h := expr_decode_append he rest
    refine ⟨h, ?_⟩
    rw [Hashed.Expr.decode_eq, Hashed.Expr.encode, Expr.stored_hashed, ← Expr.encode, h]
    rfl
  · have h := decodeList_append hlen hl rest
    have hstored : (l.map (Expr.hashed D)).map Hashed.Expr.stored = l.map Expr.stored := by
      rw [List.map_map]
      exact List.map_congr_left fun e _ => e.stored_hashed D
    refine ⟨h, ?_⟩
    rw [Hashed.Expr.decodeList_eq, Hashed.Expr.encodeList, hstored, ← Expr.encodeList, h]
    rfl

/-- A power of a difference, followed by other bytes. -/
theorem decode_encode_append_cubed :
    Stored.Expr.cubed.toExpr.stored.Fits ∧
    Expr.decode (Stored.Expr.cubed.toExpr.encode ++ [7]) = .ok Stored.Expr.cubed.toExpr ∧
    Hashed.Expr.decode (.standard .goldilocks)
      ((Stored.Expr.cubed.toExpr.hashed (.standard .goldilocks)).encode ++ [7]) =
        .ok (Stored.Expr.cubed.toExpr.hashed (.standard .goldilocks)) := by
  have hfits := Stored.Expr.fits_cubed.toExpr
  exact ⟨hfits, (decode_encode_append (.standard .goldilocks) [7]).2.2.1 _ hfits⟩

/-! ### What the decoder accepts -/

/-- Bytes decode to an expression if and only if they start with the bytes of a stored one, which is
then made into it. -/
theorem expr_decode_eq_ok_iff {bytes : List UInt8} {e : Expr k} :
    Expr.decode bytes = .ok e ↔
      ∃ r : Stored.Expr k, r.Fits ∧ exprBytes r <+: bytes ∧ r.toExpr = e := by
  refine bind_pure_eq_ok.trans (exists_congr fun r => ?_)
  rw [exact_readExpr.run'_eq_ok_iff le_rfl]
  constructor
  · rintro ⟨⟨_, ⟨hfits, rfl⟩, hbegins⟩, he⟩
    exact ⟨hfits, hbegins, he⟩
  · rintro ⟨hfits, hbegins, he⟩
    exact ⟨⟨_, ⟨hfits, rfl⟩, hbegins⟩, he⟩

/-- **The decoder accepts its grammar**, and nothing else: an expression over Goldilocks is found
exactly where the bytes start with those of a stored expression `r`.  No other stored expression
stands there, bytes that end inside those of `r` are refused, and what is found is the normal form
of `r`, with fresh digests. -/
theorem decode_accepts_grammar (D : Digesting .goldilocks) (bytes : List UInt8) :
    ((∃ e, Hashed.Expr.decode D bytes = .ok e) ↔
      ∃ r : Stored.Expr .goldilocks, r.Fits ∧ exprBytes r <+: bytes) ∧
    (∀ r : Stored.Expr .goldilocks, r.Fits → exprBytes r <+: bytes →
      (∀ s : Stored.Expr .goldilocks, s.Fits → exprBytes s <+: bytes → s = r) ∧
      (∀ cut, cut <+: exprBytes r → cut ≠ exprBytes r →
        Hashed.Expr.decode D cut = .error .endOfInput) ∧
      ∃ e, r.NormalForm e ∧ Expr.decode bytes = .ok e ∧
        Hashed.Expr.decode D bytes = .ok (e.hashed D)) ∧
    (∀ e, Hashed.Expr.decode D bytes = .ok e → e.Fresh D) := by
  refine ⟨?_, fun r hfits hbegins => ⟨fun s hs hsbegins => ?_, fun cut hcut hne => ?_, ?_⟩,
    fun e => fresh_of_decode⟩
  · constructor
    · rintro ⟨_, h⟩
      rw [Hashed.Expr.decode_eq] at h
      obtain ⟨e, he, -⟩ := bind_pure_eq_ok.mp h
      obtain ⟨r, hfits, hbegins, -⟩ := expr_decode_eq_ok_iff.mp he
      exact ⟨r, hfits, hbegins⟩
    · rintro ⟨r, hfits, hbegins⟩
      refine ⟨r.toExpr.hashed D, ?_⟩
      rw [Hashed.Expr.decode_eq, expr_decode_eq_ok_iff.mpr ⟨r, hfits, hbegins, rfl⟩]
      rfl
  · exact exact_readExpr.unique le_rfl ⟨hs, rfl⟩ hsbegins ⟨hfits, rfl⟩ hbegins
  · have h := exact_readExpr.run'_cut le_rfl ⟨hfits, rfl⟩ hcut hne
    exact congrArg (· >>= fun s => pure (Stored.Expr.toHashed D s)) h
  · have h := expr_decode_eq_ok_iff.mpr ⟨r, hfits, hbegins, rfl⟩
    refine ⟨r.toExpr, Stored.Expr.normalForm_iff.mpr rfl, h, ?_⟩
    rw [Hashed.Expr.decode_eq, h]
    rfl

/-- Variables out of order and under coefficient zero, followed by a byte. -/
theorem decode_accepts_grammar_cubed :
    Stored.Expr.cubed.Fits ∧
    ∃ e, Stored.Expr.cubed.NormalForm e ∧
      Expr.decode (exprBytes Stored.Expr.cubed ++ [7]) = .ok e ∧
      Hashed.Expr.decode (.standard .goldilocks) (exprBytes Stored.Expr.cubed ++ [7]) =
        .ok (e.hashed (.standard .goldilocks)) := by
  refine ⟨Stored.Expr.fits_cubed, ?_⟩
  exact ((decode_accepts_grammar (.standard .goldilocks) (exprBytes Stored.Expr.cubed ++ [7])).2.1
    Stored.Expr.cubed Stored.Expr.fits_cubed (List.prefix_append ..)).2.2

end Wire

end Plonkish
