import Plonkish.Hashed.Operators
import Plonkish.Json.Circuit
import Plonkish.Proofs.Decoding
import Plonkish.Proofs.Scalars

/-!
# Proofs — comparing expressions

`Hashed.Expr.Made` says that an expression has been built: from coefficients and variables, by the
operators, by replacing variables, as a part of another, or by reading bytes or a JSON text.  What
is built is an expression with the digests of its nodes, however these are formed
(`Made.exists_hashed`), so two of them are compared by their contents:

* `Alike R a b`: the trees have one shape with the same powers and operators, the coefficients at
  each pair of leaves are related by `R`, and their variables are the same up to order;
* `same_iff_alike_of_fresh`: expressions with fresh digests are the same exactly if they are alike,
  with coefficients compared as words;
* `same_iff_alike`: what this says of expressions that have been built.

A word that is read need not be proper.  Expressions over proper words are the same exactly if they
are alike, with coefficients compared in the field.
-/

namespace Plonkish

variable {k : BaseField}

namespace Hashed.Expr

/-! ### Building expressions -/

/-- The coefficients of the terms are in a set. -/
def Coeffs (P : Word k → Prop) : Expr k → Prop
  | term t _ => P t.coeff
  | pow base _ _ => base.Coeffs P
  | binop lhs rhs _ _ => lhs.Coeffs P ∧ rhs.Coeffs P

/-- The ways to build an expression from coefficients of a set `source`.  A term is built if the
expression of it is. -/
inductive Made (D : Digesting k) (source : Word k → Prop) : Expr k → Prop where
  /-- A term with given variables. -/
  | new {c : Word k} (hc : source c) (vars : List Variable) : Made D source (ofTerm (.new D c vars))
  /-- The empty expression. -/
  | zero : Made D source (.zero D)
  /-- A variable. -/
  | ofVariable (v : Variable) : Made D source (ofTerm (.ofVariable D v))
  /-- A product of terms. -/
  | termMul {t u : Term k} (ht : Made D source (ofTerm t)) (hu : Made D source (ofTerm u)) :
    Made D source (ofTerm (t.mul D u))
  /-- A multiple of a term. -/
  | termScale {t : Term k} {c : Word k} (ht : Made D source (ofTerm t)) (hc : source c) :
    Made D source (ofTerm (t.scale D c))
  /-- The negation of a term. -/
  | termNeg {t : Term k} (ht : Made D source (ofTerm t)) : Made D source (ofTerm (t.neg D))
  /-- A term with its variables replaced. -/
  | termMap {t : Term k} (f : Variable → Variable) (ht : Made D source (ofTerm t)) :
    Made D source (ofTerm (t.mapVariables D f))
  /-- A power. -/
  | pow {a : Expr k} (ha : Made D source a) (n : UInt32) : Made D source (ofPow D a n)
  /-- An operation without simplifications. -/
  | binop {a b : Expr k} (ha : Made D source a) (hb : Made D source b) (o : Operator) :
    Made D source (ofBinop D a b o)
  /-- A sum. -/
  | add {a b : Expr k} (ha : Made D source a) (hb : Made D source b) : Made D source (a.add D b)
  /-- A difference. -/
  | sub {a b : Expr k} (ha : Made D source a) (hb : Made D source b) : Made D source (a.sub D b)
  /-- A product. -/
  | mul {a b : Expr k} (ha : Made D source a) (hb : Made D source b) : Made D source (a.mul D b)
  /-- A negation. -/
  | neg {a : Expr k} (ha : Made D source a) : Made D source (a.neg D)
  /-- An expression with its variables replaced. -/
  | map {a : Expr k} (f : Variable → Variable) (ha : Made D source a) :
    Made D source (a.mapVariables D f)
  /-- The term at a leaf. -/
  | ofLeaf {t : Term k} {x : UInt64} (h : Made D source (.term t x)) : Made D source (ofTerm t)
  /-- The base of a power. -/
  | base {a : Expr k} {n : UInt32} {x : UInt64} (h : Made D source (.pow a n x)) : Made D source a
  /-- The first operand of an operation. -/
  | lhs {a b : Expr k} {o : Operator} {x : UInt64} (h : Made D source (.binop a b o x)) :
    Made D source a
  /-- The second operand of an operation. -/
  | rhs {a b : Expr k} {o : Operator} {x : UInt64} (h : Made D source (.binop a b o x)) :
    Made D source b
  /-- A term that bytes start with. -/
  | decodeTerm {bytes : List UInt8} {t : Term k} (h : Term.decode D bytes = .ok t)
    (hc : source t.coeff) : Made D source (ofTerm t)
  /-- An expression that bytes start with. -/
  | decode {bytes : List UInt8} {a : Expr k} (h : decode D bytes = .ok a) (hc : a.Coeffs source) :
    Made D source a
  /-- An expression of a list that bytes start with. -/
  | decodeList {bytes : List UInt8} {l : List (Expr k)} (h : decodeList D bytes = .ok l)
    {a : Expr k} (ha : a ∈ l) (hc : a.Coeffs source) : Made D source a
  /-- A term in a JSON text. -/
  | jsonTerm {text : String} {t : Term k} (h : Term.ofJson D text = .ok t) (hc : source t.coeff) :
    Made D source (ofTerm t)
  /-- An expression in a JSON text. -/
  | json {text : String} {a : Expr k} (h : ofJson D text = .ok a) (hc : a.Coeffs source) :
    Made D source a
  /-- A constraint of a gate in a JSON text. -/
  | jsonGate {text : String} {g : Stored.Gate k}
    (h : Json.read (Json.readGate Json.depthLimit) text = .ok g) {r : Stored.Expr k}
    (hr : r ∈ g.constraints) (hc : (r.toHashed D).Coeffs source) : Made D source (r.toHashed D)

variable {D : Digesting k} {source P : Word k → Prop} {a b : Expr k}

/-- An expression of a term has the digests of its nodes if the term has. -/
theorem exists_hashed_ofTerm {t : Term k} :
    (∃ e : Plonkish.Expr k, e.hashed D = ofTerm t) ↔ ∃ u : Plonkish.Term k, u.hashed D = t := by
  constructor
  · rintro ⟨e, he⟩
    cases e with
    | term u => exact ⟨u, (Expr.term.inj he).1⟩
    | pow e n => cases he
    | binop e f o => cases he
  · rintro ⟨u, rfl⟩
    exact ⟨.term u, rfl⟩

/-- **What is built has the digests of its nodes**, and is what the operators on expressions without
digests make. -/
theorem Made.exists_hashed (h : a.Made D source) : ∃ e : Plonkish.Expr k, e.hashed D = a := by
  induction h with
  | @new c hc vars => exact ⟨.term (.of c vars), rfl⟩
  | zero => exact ⟨.zero, Plonkish.Expr.hashed_zero⟩
  | ofVariable v => exact ⟨.term (.ofVariable v), rfl⟩
  | termMul _ _ iht ihu =>
      obtain ⟨t, rfl⟩ := exists_hashed_ofTerm.mp iht
      obtain ⟨u, rfl⟩ := exists_hashed_ofTerm.mp ihu
      exact exists_hashed_ofTerm.mpr ⟨t * u, t.hashed_mul u⟩
  | @termScale _ c _ _ iht =>
      obtain ⟨t, rfl⟩ := exists_hashed_ofTerm.mp iht
      exact exists_hashed_ofTerm.mpr ⟨t * c, t.hashed_scale c⟩
  | termNeg _ iht =>
      obtain ⟨t, rfl⟩ := exists_hashed_ofTerm.mp iht
      exact exists_hashed_ofTerm.mpr ⟨-t, t.hashed_neg⟩
  | termMap f _ iht =>
      obtain ⟨t, rfl⟩ := exists_hashed_ofTerm.mp iht
      exact exists_hashed_ofTerm.mpr ⟨t.mapVariables f, t.hashed_mapVariables f⟩
  | pow _ n ih =>
      obtain ⟨e, rfl⟩ := ih
      exact ⟨.pow e n, rfl⟩
  | binop _ _ o iha ihb =>
      obtain ⟨e, rfl⟩ := iha
      obtain ⟨f, rfl⟩ := ihb
      exact ⟨.binop e f o, rfl⟩
  | add _ _ iha ihb =>
      obtain ⟨e, rfl⟩ := iha
      obtain ⟨f, rfl⟩ := ihb
      exact ⟨e + f, e.hashed_add f⟩
  | sub _ _ iha ihb =>
      obtain ⟨e, rfl⟩ := iha
      obtain ⟨f, rfl⟩ := ihb
      exact ⟨e - f, e.hashed_sub f⟩
  | mul _ _ iha ihb =>
      obtain ⟨e, rfl⟩ := iha
      obtain ⟨f, rfl⟩ := ihb
      exact ⟨e * f, e.hashed_mul f⟩
  | neg _ ih =>
      obtain ⟨e, rfl⟩ := ih
      exact ⟨-e, e.hashed_neg⟩
  | map f _ ih =>
      obtain ⟨e, rfl⟩ := ih
      exact ⟨e.mapVariables f, e.hashed_mapVariables f⟩
  -- The parts of an expression with fresh digests have fresh digests.
  | ofLeaf _ ih =>
      obtain ⟨e, he⟩ := ih
      obtain ⟨u, hu⟩ := Term.fresh_iff.mp (fresh_iff.mpr ⟨e, he⟩).1
      exact exists_hashed_ofTerm.mpr ⟨u, hu⟩
  | base _ ih => exact fresh_iff.mp (fresh_iff.mpr ih).1
  | lhs _ ih => exact fresh_iff.mp (fresh_iff.mpr ih).1
  | rhs _ ih => exact fresh_iff.mp (fresh_iff.mpr ih).2.1
  | decodeTerm h _ =>
      rw [Term.decode_eq] at h
      obtain ⟨u, -, rfl⟩ := bind_pure_eq_ok.mp h
      exact ⟨.term u, rfl⟩
  | decode h _ =>
      rw [decode_eq] at h
      obtain ⟨e, -, rfl⟩ := bind_pure_eq_ok.mp h
      exact ⟨e, rfl⟩
  | decodeList h ha _ =>
      rw [decodeList_eq] at h
      obtain ⟨l, -, rfl⟩ := bind_pure_eq_ok.mp h
      obtain ⟨e, -, rfl⟩ := List.mem_map.mp ha
      exact ⟨e, rfl⟩
  | jsonTerm h _ =>
      obtain ⟨r, -, rfl⟩ := bind_pure_eq_ok.mp h
      exact ⟨.term r.toTerm, rfl⟩
  | json h _ =>
      obtain ⟨r, -, rfl⟩ := bind_pure_eq_ok.mp h
      exact ⟨r.toExpr, (r.toHashed_eq D).symm⟩
  | @jsonGate _ _ _ r _ _ => exact ⟨r.toExpr, (r.toHashed_eq D).symm⟩

theorem Made.fresh (h : a.Made D source) : a.Fresh D := fresh_iff.mpr h.exists_hashed

theorem Coeffs.mono (hsub : ∀ w, source w → P w) (h : a.Coeffs source) : a.Coeffs P := by
  induction a with
  | term t x => exact hsub _ h
  | pow a n x ih => exact ih h
  | binop a b o x iha ihb => exact ⟨iha h.1, ihb h.2⟩

theorem Coeffs.mapVariables (f : Variable → Variable) (h : a.Coeffs P) :
    (a.mapVariables D f).Coeffs P := by
  induction a with
  | term t x => exact h
  | pow a n x ih => exact ih h
  | binop a b o x iha ihb => exact ⟨iha h.1, ihb h.2⟩

/-- **The coefficients** of what is built are from the set, if the operators on terms keep to it. -/
theorem Made.coeffs (hP : Word.Closed P) (hsub : ∀ w, source w → P w) (h : a.Made D source) :
    a.Coeffs P := by
  induction h with
  | new hc vars => exact hsub _ hc
  | zero => exact hP.zero
  | ofVariable v => exact hP.one
  | @termMul t u _ _ iht ihu =>
      show P (t.mul D u).coeff
      unfold Term.mul
      split
      · exact hP.zero
      · exact hP.mul iht ihu
  | termScale _ hc iht => exact hP.mul iht (hsub _ hc)
  | termNeg _ iht => exact hP.neg iht
  | termMap f _ iht => exact iht
  | pow _ n ih => exact ih
  | binop _ _ o iha ihb => exact ⟨iha, ihb⟩
  | add _ _ iha ihb =>
      unfold Expr.add
      split
      · exact ihb
      · split
        · exact iha
        · exact ⟨iha, ihb⟩
  | sub _ _ iha ihb => exact ⟨iha, ihb⟩
  | mul _ _ iha ihb =>
      unfold Expr.mul
      split
      · exact hP.zero
      · exact ⟨iha, ihb⟩
  | neg _ ih => exact ⟨hP.zero, ih⟩
  | map f _ ih => exact ih.mapVariables f
  | ofLeaf _ ih => exact ih
  | base _ ih => exact ih
  | lhs _ ih => exact ih.1
  | rhs _ ih => exact ih.2
  | decodeTerm _ hc => exact hsub _ hc
  | decode _ hc => exact hc.mono hsub
  | decodeList _ _ hc => exact hc.mono hsub
  | jsonTerm _ hc => exact hsub _ hc
  | json _ hc => exact hc.mono hsub
  | jsonGate _ _ hc => exact hc.mono hsub

/-! ### Comparing expressions -/

/-- Trees of one shape with the same powers and operators, whose leaves have related coefficients
and the same variables up to order. -/
inductive Alike (R : Word k → Word k → Prop) : Expr k → Expr k → Prop where
  /-- Terms, whatever their digests. -/
  | term {t u : Term k} (hc : R t.coeff u.coeff) (hv : t.vars.Perm u.vars) (x y : UInt64) :
    Alike R (.term t x) (.term u y)
  /-- Powers with the same exponent. -/
  | pow {a b : Expr k} (h : Alike R a b) (n : UInt32) (x y : UInt64) :
    Alike R (.pow a n x) (.pow b n y)
  /-- The same operation. -/
  | binop {a b c d : Expr k} (hl : Alike R a c) (hr : Alike R b d) (o : Operator) (x y : UInt64) :
    Alike R (.binop a b o x) (.binop c d o y)

theorem Alike.congr {R S : Word k → Word k → Prop} (hRS : ∀ v w, P v → P w → R v w → S v w)
    (ha : a.Coeffs P) (hb : b.Coeffs P) (h : a.Alike R b) : a.Alike S b := by
  induction h with
  | term hc hv x y => exact .term (hRS _ _ ha hb hc) hv x y
  | pow _ n x y ih => exact .pow (ih ha hb) n x y
  | binop _ _ o x y ihl ihr => exact .binop (ihl ha.1 hb.1) (ihr ha.2 hb.2) o x y

/-- Terms in normal form with the same variables up to order have the same list of variables. -/
theorem vars_eq_of_perm {t u : Term k} (ht : t.Fresh D) (hu : u.Fresh D)
    (h : t.vars.Perm u.vars) : t.vars = u.vars :=
  h.eq_of_pairwise (fun _ _ _ _ => Variable.le_antisymm) ht.sorted hu.sorted

theorem term_digest_eq {t u : Term k} (ht : t.Fresh D) (hu : u.Fresh D) (hc : t.coeff == u.coeff)
    (hv : t.vars.Perm u.vars) : t.digest = u.digest := by
  rw [ht.digest_eq, hu.digest_eq, Word.beq_iff.mp hc, vars_eq_of_perm ht hu hv]

/-- Digests are functions of the contents: alike expressions have the same one. -/
theorem Alike.digest_eq (ha : a.Fresh D) (hb : b.Fresh D) (h : a.Alike (fun v w => v == w) b) :
    a.digest = b.digest := by
  induction h with
  | @term t u hc hv x y =>
      show x = y
      rw [ha.2, hb.2, term_digest_eq ha.1 hb.1 hc hv]
  | pow _ n x y ih =>
      show x = y
      rw [ha.2, hb.2, ih ha.1 hb.1]
  | binop _ _ o x y ihl ihr =>
      show x = y
      rw [ha.2.2, hb.2.2, ihl ha.1 hb.1, ihr ha.2.1 hb.2.1]

theorem alike_of_same (h : a.same b) : a.Alike (fun v w => v == w) b := by
  fun_induction same a b with
  | case1 t x u y =>
      simp only [Term.same, Bool.and_eq_true, beq_iff_eq] at h
      exact .term h.2.2.1 (.of_eq h.2.2.2) x y
  | case2 a m x b n y ih =>
      simp only [Bool.and_eq_true, beq_iff_eq] at h
      obtain ⟨-, hsame, rfl⟩ := h
      exact .pow (ih hsame) m x y
  | case3 a b o x c d p y ihl ihr =>
      simp only [Bool.and_eq_true, beq_iff_eq] at h
      obtain ⟨-, ⟨hl, hr⟩, rfl⟩ := h
      exact .binop (ihl hl) (ihr hr) o x y
  | case4 => exact absurd h Bool.false_ne_true

/-- **Fresh digests never tell alike expressions apart.** -/
theorem same_of_alike (ha : a.Fresh D) (hb : b.Fresh D) (h : a.Alike (fun v w => v == w) b) :
    a.same b := by
  -- Each comparison starts with the digests, which are those of alike expressions.
  have hdigest := h.digest_eq ha hb
  induction h with
  | term hc hv x y =>
      simp only [same, Term.same, Bool.and_eq_true, beq_iff_eq]
      exact ⟨hdigest, term_digest_eq ha.1 hb.1 hc hv, hc, vars_eq_of_perm ha.1 hb.1 hv⟩
  | pow h n x y ih =>
      simp only [same, Bool.and_eq_true, beq_iff_eq]
      exact ⟨hdigest, ih ha.1 hb.1 (h.digest_eq ha.1 hb.1), trivial⟩
  | binop hl hr o x y ihl ihr =>
      simp only [same, Bool.and_eq_true, beq_iff_eq]
      exact ⟨hdigest, ⟨ihl ha.1 hb.1 (hl.digest_eq ha.1 hb.1),
        ihr ha.2.1 hb.2.1 (hr.digest_eq ha.2.1 hb.2.1)⟩, trivial⟩

theorem same_iff_alike_of_fresh (ha : a.Fresh D) (hb : b.Fresh D) :
    a.same b ↔ a.Alike (fun v w => v == w) b :=
  ⟨alike_of_same, same_of_alike ha hb⟩

theorem digest_eq_of_same (h : a.same b) : a.digest = b.digest := by
  fun_induction same a b with
  | case1 t x u y => exact eq_of_beq (Bool.and_eq_true_iff.mp h).1
  | case2 a m x b n y _ => exact eq_of_beq (Bool.and_eq_true_iff.mp h).1
  | case3 a b o x c d p y _ _ => exact eq_of_beq (Bool.and_eq_true_iff.mp h).1
  | case4 => exact absurd h Bool.false_ne_true

/-- **Comparing expressions**, however they have been built and however digests are formed.  Two
expressions are the same exactly if they have one shape, the same powers and operators, and at each
pair of leaves equal words and the same variables up to order; and then their digests are the same.
If the coefficients they are built from are proper words, as all of them are over Goldilocks, equal
words are those of equal elements. -/
theorem same_iff_alike (ha : a.Made D source) (hb : b.Made D source) :
    (a.same b ↔ a.Alike (fun v w => v == w) b) ∧ (a.same b → a.digest = b.digest) ∧
    ((∀ w, source w → w.Proper) → (a.same b ↔ a.Alike (fun v w => v.felt = w.felt) b)) := by
  have hsame := same_iff_alike_of_fresh ha.fresh hb.fresh
  refine ⟨hsame, digest_eq_of_same, fun hproper => hsame.trans ?_⟩
  have ha' := ha.coeffs Word.closed_proper hproper
  have hb' := hb.coeffs Word.closed_proper hproper
  exact ⟨Alike.congr (fun v w hv hw => (Word.beq_iff_felt_eq hv hw).mp) ha' hb',
    Alike.congr (fun v w hv hw => (Word.beq_iff_felt_eq hv hw).mpr) ha' hb'⟩

/-- The order of the variables of a term does not matter.  But the order of BabyBear, which is zero
in the field, is not the word zero, and the expression that is read from it is not the empty one. -/
theorem same_iff_alike_unreduced :
    (∀ v w, (ofTerm (.new (.standard .babyBear) 1 [v, w])).same
      (ofTerm (.new (.standard _) 1 [w, v]))) ∧
    ∃ a, decode (.standard .babyBear) [0, 0, 0, 0, 1, 0, 0, 120, 0, 0, 0, 0, 0, 0, 0, 0] = .ok a ∧
      a.Alike (fun v w => v.felt = w.felt) (.zero (.standard _)) ∧
      ¬ a.same (.zero (.standard _)) := by
  constructor
  · intro v w
    have hproper : (1 : Word .babyBear).Proper := Word.closed_proper.one
    have hperm : (Plonkish.Term.normalVars (1 : Word .babyBear) [v, w]).Perm
        (Plonkish.Term.normalVars (1 : Word .babyBear) [w, v]) :=
      (Variable.sort_perm _).trans ((List.Perm.swap w v []).trans (Variable.sort_perm _).symm)
    refine ((same_iff_alike (.new hproper [v, w]) (.new hproper [w, v])).2.2 fun _ => id).mpr ?_
    exact .term (by rfl) hperm _ _
  · have hread : decode (.standard .babyBear) [0, 0, 0, 0, 1, 0, 0, 120, 0, 0, 0, 0, 0, 0, 0, 0] =
        .ok (ofTerm (.new (.standard _) (.ofBits BaseField.babyBear.order) [])) := rfl
    have hmade : Made (.standard .babyBear) (fun _ => True) _ := .decode hread trivial
    refine ⟨_, hread, .term (by rfl) (.of_eq (Variable.sort_of_pairwise .nil)) _ _, fun hsame => ?_⟩
    cases (same_iff_alike hmade .zero).1.mp hsame with
    | term hc hv x y => exact absurd hc (by decide)

end Hashed.Expr

end Plonkish
