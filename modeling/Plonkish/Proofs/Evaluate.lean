import Plonkish.Expr.Evaluate
import Plonkish.Proofs.Field

/-!
# Proofs — evaluation

An expression is computed in any value type from the operations on it.  `Expr.combine` is its value
from a list of the values at its leaves, and `Expr.valueOf` its value where every variable has one,
so that no effect gets in the way.  `Expr.value` is its value in the field, where a coefficient
counts by the element that its word stands for.

* `Expr.evaluate_eq_mapM`: whatever looking a variable up may do, an expression looks its
  occurrences up from left to right, each of them once, and combines what they give.
* `Expr.evaluate_eq`: where no variable of an expression fails, neither does the expression, and its
  value is the one under the values of its variables.
* `Expr.valueOf_related`: a relation between two value types that the operations respect holds
  between the values of an expression, if it holds between the values of its variables.
-/

namespace Plonkish

variable {k : BaseField} {T U : Type}

/-- The operations of the field. -/
def Algebra.field (k : BaseField) : Algebra k (Felt k) where
  constant := Word.felt
  sum := (· + ·)
  difference := (· - ·)
  product := (· * ·)
  scaled a c := a * c.felt
  power := (· ^ ·)

/-! ### Operations that respect a relation -/

/-- The operations of two value types respect a relation between them. -/
structure Algebra.Related (R : T → U → Prop) (A : Algebra k T) (B : Algebra k U) : Prop where
  /-- Constants are related. -/
  constant (c : Word k) : R (A.constant c) (B.constant c)
  /-- Sums of related values are related. -/
  sum {x y : T} {x' y' : U} : R x x' → R y y' → R (A.sum x y) (B.sum x' y')
  /-- Differences of related values are related. -/
  difference {x y : T} {x' y' : U} : R x x' → R y y' → R (A.difference x y) (B.difference x' y')
  /-- Products of related values are related. -/
  product {x y : T} {x' y' : U} : R x x' → R y y' → R (A.product x y) (B.product x' y')
  /-- Multiples of related values are related. -/
  scaled {x : T} {x' : U} (c : Word k) : R x x' → R (A.scaled x c) (B.scaled x' c)
  /-- Powers of related values are related. -/
  power {x : T} {x' : U} (n : Nat) : R x x' → R (A.power x n) (B.power x' n)

variable {R : T → U → Prop} {A : Algebra k T} {B : Algebra k U}

/-- Related algebras agree on the three operators. -/
theorem Algebra.Related.apply (h : A.Related R B) (op : Operator) {x y : T} {x' y' : U}
    (hx : R x x') (hy : R y y') : R (A.apply op x y) (B.apply op x' y') := by
  cases op with
  | add => exact h.sum hx hy
  | sub => exact h.difference hx hy
  | mult => exact h.product hx hy

/-! ### Calls on the entries of a list -/

section Lists

variable {m : Type → Type} [Monad m] [LawfulMonad m] {α β γ : Type} {f : α → m β} {l : List α}

theorem mapM_congr {g : α → m β} (h : ∀ a ∈ l, f a = g a) : l.mapM f = l.mapM g := by
  induction l with
  | nil => rfl
  | cons a l ih =>
      rw [List.mapM_cons, List.mapM_cons, h a List.mem_cons_self,
        ih fun b hb => h b (List.mem_cons_of_mem _ hb)]

/-- The answers may be mapped after all calls. -/
theorem mapM_map (g : β → γ) : l.mapM (fun a => g <$> f a) = List.map g <$> l.mapM f := by
  induction l with
  | nil => simp
  | cons a l ih => simp [List.mapM_cons, ih]

/-- What follows the calls may rely on there being an answer for each entry. -/
theorem mapM_bind_congr {g g' : List β → m γ} (h : ∀ bs, bs.length = l.length → g bs = g' bs) :
    l.mapM f >>= g = l.mapM f >>= g' := by
  induction l generalizing g g' with
  | nil => simpa using h [] rfl
  | cons a l ih =>
      simp only [List.mapM_cons, bind_assoc, pure_bind]
      refine congrArg _ (funext fun b => ih fun bs hbs => h (b :: bs) ?_)
      simp [hbs]

end Lists

/-! ### Terms -/

/-- The value of a term from those of its variables, in order. -/
def Term.combine (A : Algebra k T) (t : Term k) : List T → T
  | [] => A.constant t.coeff
  | a :: rest =>
    let monomial := rest.foldl A.product a
    if t.coeff == 1 then monomial else A.scaled monomial t.coeff

/-- The product of some variables, scaled by a coefficient. -/
def Term.valueOf (A : Algebra k T) (look : Variable → T) (t : Term k) : T :=
  match t.vars with
  | [] => A.constant t.coeff
  | v :: rest =>
    let monomial := rest.foldl (fun acc w => A.product acc (look w)) (look v)
    if t.coeff == 1 then monomial else A.scaled monomial t.coeff

theorem Term.combine_map (look : Variable → T) (t : Term k) :
    t.combine A (t.vars.map look) = t.valueOf A look := by
  unfold valueOf
  cases t.vars with
  | nil => rfl
  | cons v rest =>
      rw [List.map_cons, combine, List.foldl_map]

section Lookups

variable {m : Type → Type} [Monad m] [LawfulMonad m]

theorem Term.foldlM_eq_mapM (look : Variable → m T) (l : List Variable) (acc : T) :
    l.foldlM (fun acc w => return A.product acc (← look w)) acc =
      (fun values => values.foldl A.product acc) <$> l.mapM look := by
  induction l generalizing acc with
  | nil => simp
  | cons v l ih =>
      simp only [List.foldlM_cons, List.mapM_cons, bind_assoc, pure_bind, ih, map_eq_pure_bind,
        List.foldl_cons]

/-- A term looks its variables up in order. -/
theorem Term.evaluate_eq_mapM (A : Algebra k T) (look : Variable → m T) (t : Term k) :
    t.evaluate A look = t.combine A <$> t.vars.mapM look := by
  unfold evaluate
  cases t.vars with
  | nil => simp [combine]
  | cons v rest =>
      simp only [foldlM_eq_mapM, List.mapM_cons, map_eq_pure_bind, bind_assoc, pure_bind, combine]

end Lookups

/-- The values of a term in two related algebras are related. -/
theorem Term.valueOf_related (h : A.Related R B) {look : Variable → T} {look' : Variable → U}
    {t : Term k} (hv : ∀ v ∈ t.vars, R (look v) (look' v)) :
    R (t.valueOf A look) (t.valueOf B look') := by
  unfold valueOf
  cases hvars : t.vars with
  | nil => exact h.constant t.coeff
  | cons v rest =>
      rw [hvars] at hv
      have hmonomial : R (rest.foldl (fun acc w => A.product acc (look w)) (look v))
          (rest.foldl (fun acc w => B.product acc (look' w)) (look' v)) :=
        List.foldl_rel (hv v List.mem_cons_self) fun w hw _ _ hacc =>
          h.product hacc (hv w (List.mem_cons_of_mem _ hw))
      dsimp only
      split
      · exact hmonomial
      · exact h.scaled _ hmonomial

/-! ### Expressions -/

namespace Expr

/-- The value of an expression all of whose variables have values. -/
def valueOf (A : Algebra k T) (look : Variable → T) : Expr k → T
  | term t => t.valueOf A look
  | pow base power => A.power (base.valueOf A look) power.toNat
  | binop lhs rhs op => A.apply op (lhs.valueOf A look) (rhs.valueOf A look)

/-- The value of an expression from those at its leaves, from left to right. -/
def combine (A : Algebra k T) : Expr k → List T → T
  | term t, values => t.combine A values
  | pow base power, values => A.power (base.combine A values) power.toNat
  | binop lhs rhs op, values =>
    let n := lhs.occurrences.length
    A.apply op (lhs.combine A (values.take n)) (rhs.combine A (values.drop n))

theorem combine_map (look : Variable → T) (e : Expr k) :
    e.combine A (e.occurrences.map look) = e.valueOf A look := by
  induction e with
  | term t =>
      rw [occurrences_term]
      exact t.combine_map look
  | pow base power ih => exact congrArg (A.power · power.toNat) ih
  | binop lhs rhs op ihl ihr => simp [combine, valueOf, ihl, ihr]

section Lookups

variable {m : Type → Type} [Monad m] [LawfulMonad m]

/-- **Variables are looked up** from left to right, each occurrence once, whatever a look-up does.
-/
theorem evaluate_eq_mapM (A : Algebra k T) (look : Variable → m T) (e : Expr k) :
    e.evaluate A look = e.combine A <$> e.occurrences.mapM look := by
  induction e with
  | term t =>
      rw [occurrences_term]
      exact t.evaluate_eq_mapM A look
  | pow base power ih => simp [evaluate, ih, combine]
  | binop lhs rhs op ihl ihr =>
      simp only [evaluate, ihl, ihr, occurrences_binop, List.mapM_append, map_eq_pure_bind,
        bind_assoc, pure_bind]
      -- There are as many values from the left as it has leaves, so they are taken apart again.
      refine mapM_bind_congr fun xs hxs => ?_
      simp [combine, ← hxs]

/-- **Evaluation answers** where every variable does. -/
theorem evaluate_eq {look : Variable → m T} {value : Variable → T} {e : Expr k}
    (h : ∀ v ∈ e.occurrences, look v = pure (value v)) :
    e.evaluate A look = pure (e.valueOf A value) := by
  rw [evaluate_eq_mapM, mapM_congr h, List.mapM_pure, map_pure, combine_map]

end Lookups

/-- An evaluation with look-ups that cannot fail is the plain one. -/
theorem run_evaluate (e : Expr k) (look : Variable → T) :
    Id.run (e.evaluate A fun v => pure (look v)) = e.valueOf A look :=
  evaluate_eq fun _ _ => rfl

/-- The value in the field. -/
def value (e : Expr k) (valuation : Variable → Felt k) : Felt k := e.valueOf (.field k) valuation

/-- The value of an expression over words is its evaluation by the operations of words. -/
theorem scalar_eq (e : Expr k) (valuation : Variable → Felt k) :
    e.scalar valuation = e.valueOf (.scalars k) fun v => (valuation v).scalar :=
  e.run_evaluate _

/-- Where every variable of an expression has an element for its value, the scalar is the one under
these. -/
theorem evaluate_scalars_eq {m : Type → Type} [Monad m] [LawfulMonad m] {e : Expr k}
    {look : Variable → m (Felt k)} {valuation : Variable → Felt k}
    (h : ∀ v ∈ e.occurrences, look v = pure (valuation v)) :
    e.evaluate (.scalars k) (fun v => Felt.scalar <$> look v) = pure (e.scalar valuation) := by
  rw [scalar_eq]
  refine evaluate_eq fun v hv => ?_
  rw [h v hv, map_pure]

/-- **Evaluation respects relations** that the operations do. -/
theorem valueOf_related (h : A.Related R B) {look : Variable → T} {look' : Variable → U}
    {e : Expr k} (hv : ∀ v ∈ e.occurrences, R (look v) (look' v)) :
    R (e.valueOf A look) (e.valueOf B look') := by
  induction e with
  | term t => exact Term.valueOf_related h (by simpa using hv)
  | pow base power ih => exact h.power power.toNat (ih hv)
  | binop lhs rhs op ihl ihr =>
      simp only [occurrences_binop, List.mem_append] at hv
      exact h.apply op (ihl fun v hv' => hv v (.inl hv')) (ihr fun v hv' => hv v (.inr hv'))

/-- Only the variables that occur matter. -/
theorem valueOf_congr {look look' : Variable → T} {e : Expr k}
    (h : ∀ v ∈ e.occurrences, look v = look' v) : e.valueOf A look = e.valueOf A look' :=
  valueOf_related (R := Eq)
    ⟨fun _ => rfl, fun hx hy => hx ▸ hy ▸ rfl, fun hx hy => hx ▸ hy ▸ rfl, fun hx hy =>
      hx ▸ hy ▸ rfl,
      fun _ hx => hx ▸ rfl, fun _ hx => hx ▸ rfl⟩ h

theorem value_congr {valuation valuation' : Variable → Felt k} {e : Expr k}
    (h : ∀ v ∈ e.occurrences, valuation v = valuation' v) :
    e.value valuation = e.value valuation' :=
  valueOf_congr h

end Expr

end Plonkish
