import Plonkish.Hashed.Operators
import Plonkish.Proofs.Values

/-!
# Proofs — replacing variables

`Expr.mapVariables f` puts `f v` in the place of every variable `v`.  The function need not be
injective, and may change the order of variables, so each term sorts its variables again:
`Term.vars_mapVariables` says what it lists then.

* `Expr.mapVariables_id` and `Expr.mapVariables_mapVariables`: replacing variables by themselves
  changes nothing, and replacing them twice is replacing them by the composite.
* `Expr.scalar_mapVariables`: an expression with its variables replaced has the value of the
  expression under the valuation of the variables that are put in.
* `Expr.mem_occurrences_mapVariables`: its variables are those that are put in, and no others.

`Expr.mapVariables_substitutes` puts these together for expressions as they are kept, whose digests
are formed anew at every node.
-/

namespace Plonkish

variable {k : BaseField}

/-! ### Terms -/

namespace Term

/-- A term with its variables replaced lists them in order.  This holds of the zero term as well,
which has none to begin with. -/
theorem vars_mapVariables (f : Variable → Variable) (t : Term k) :
    (t.mapVariables f).vars = Variable.sort (t.vars.map f) := by
  show normalVars t.coeff (t.vars.map f) = _
  unfold normalVars
  split
  · next hzero =>
      rw [t.vars_eq_nil hzero]
      exact (Variable.sort_of_pairwise .nil).symm
  · rfl

theorem vars_mapVariables_perm (f : Variable → Variable) (t : Term k) :
    (t.mapVariables f).vars.Perm (t.vars.map f) := by
  rw [vars_mapVariables]
  exact Variable.sort_perm _

theorem mapVariables_id (t : Term k) : t.mapVariables id = t := by
  rw [mapVariables, List.map_id, of_self]

/-- The variables need not be sorted between two replacements. -/
theorem mapVariables_mapVariables (f g : Variable → Variable) (t : Term k) :
    (t.mapVariables f).mapVariables g = t.mapVariables (g ∘ f) := by
  apply Term.ext
  · rfl
  · have hperm : ((t.mapVariables f).vars.map g).Perm (t.vars.map (g ∘ f)) := by
      rw [← List.map_map]
      exact (t.vars_mapVariables_perm f).map g
    rw [vars_mapVariables, vars_mapVariables (g ∘ f), Variable.sort_eq_of_perm hperm]

theorem degree_mapVariables (f : Variable → Variable) (t : Term k) :
    (t.mapVariables f).degree = t.degree :=
  (t.vars_mapVariables_perm f).length_eq.trans (List.length_map f)

end Term

/-! ### Expressions -/

namespace Expr

theorem mapVariables_id (e : Expr k) : e.mapVariables id = e := by
  induction e with
  | term t => simp [mapVariables, t.mapVariables_id]
  | pow base power ih => simp [mapVariables, ih]
  | binop lhs rhs op ihl ihr => simp [mapVariables, ihl, ihr]

theorem mapVariables_mapVariables (f g : Variable → Variable) (e : Expr k) :
    (e.mapVariables f).mapVariables g = e.mapVariables (g ∘ f) := by
  induction e with
  | term t => simp [mapVariables, t.mapVariables_mapVariables]
  | pow base power ih => simp [mapVariables, ih]
  | binop lhs rhs op ihl ihr => simp [mapVariables, ihl, ihr]

/-- The value of an expression with other variables in place of its own. -/
theorem value_mapVariables (e : Expr k) (f : Variable → Variable) (valuation : Variable → Felt k) :
    (e.mapVariables f).value valuation = e.value fun v => valuation (f v) := by
  induction e with
  | term t =>
      rw [mapVariables, value_term, value_term,
        ((t.vars_mapVariables_perm f).map valuation).prod_eq,
        List.map_map]
      rfl
  | pow base power ih => rw [mapVariables, value_pow, value_pow, ih]
  | binop lhs rhs op ihl ihr => rw [mapVariables, value_binop, value_binop, ihl, ihr]

/-- The scalar of an expression with other variables in place of its own.  Each term multiplies its
variables in another order, which is the same for elements. -/
theorem scalar_mapVariables (e : Expr k) (f : Variable → Variable) (valuation : Variable → Felt k) :
    (e.mapVariables f).scalar valuation = e.scalar fun v => valuation (f v) := by
  induction e with
  | term t =>
      have hperm := t.vars_mapVariables_perm f
      have hnil : (t.mapVariables f).vars = [] ↔ t.vars = [] := by
        rw [← List.length_eq_zero_iff, ← List.length_eq_zero_iff, hperm.length_eq, List.length_map]
      rw [mapVariables, scalar_term, scalar_term, (hperm.map valuation).prod_eq, List.map_map]
      simp only [hnil]
      rfl
  | pow base power ih => rw [mapVariables, scalar_pow, scalar_pow, ih]
  | binop lhs rhs op ihl ihr => rw [mapVariables, scalar_binop, scalar_binop, ihl, ihr]

/-- Replacing variables keeps the coefficients. -/
theorem Proper.mapVariables {e : Expr k} (h : e.Proper) (f : Variable → Variable) :
    (e.mapVariables f).Proper := by
  induction e with
  | term t => exact h
  | pow base power ih => exact ih h
  | binop lhs rhs op ihl ihr => exact ⟨ihl h.1, ihr h.2⟩

/-- Replacing variables does not change the bound on the degree, nor whether it fits. -/
theorem degree_mapVariables (f : Variable → Variable) (e : Expr k) :
    (e.mapVariables f).degree = e.degree := by
  induction e with
  | term t => simp [mapVariables, degree, t.degree_mapVariables]
  | pow base power ih => simp [mapVariables, degree, ih]
  | binop lhs rhs op ihl ihr => cases op <;> simp [mapVariables, degree, ihl, ihr]

theorem mem_occurrences_mapVariables {e : Expr k} {f : Variable → Variable} {u : Variable} :
    u ∈ (e.mapVariables f).occurrences ↔ ∃ v ∈ e.occurrences, f v = u := by
  induction e with
  | term t =>
      rw [mapVariables, occurrences_term, occurrences_term, (t.vars_mapVariables_perm f).mem_iff,
        List.mem_map]
  | pow base power ih => exact ih
  | binop lhs rhs op ihl ihr =>
      simp only [mapVariables, occurrences_binop, List.mem_append, ihl, ihr, or_and_right,
        exists_or]

/-- The different variables of an expression with its variables replaced. -/
theorem distinctVariables_mapVariables (f : Variable → Variable) (e : Expr k) :
    (e.mapVariables f).distinctVariables = Variable.distinct (e.distinctVariables.map f) := by
  refine Variable.distinct_eq_of_mem_iff fun u => ?_
  simp only [mem_occurrences_mapVariables, List.mem_map, mem_distinctVariables]

/-- **Replacing variables is substitution.**  The value of the result is the value under the
variables that are put in; the bound on the degree stays; and the variables of the result are
exactly those that are put in, even if some fall together or change places.  Replacing variables
twice gives, digests included, what replacing them by the composite gives, and replacing them by
themselves gives what there was. -/
theorem mapVariables_substitutes (D : Digesting k) (f g : Variable → Variable) (e : Expr k) :
    (∀ valuation, (e.mapVariables f).scalar valuation = e.scalar (valuation ∘ f)) ∧
    (e.hashed D).mapVariables D f = (e.mapVariables f).hashed D ∧
    ((e.hashed D).mapVariables D f).mapVariables D g = (e.hashed D).mapVariables D (g ∘ f) ∧
    (e.hashed D).mapVariables D id = e.hashed D ∧
    (e.mapVariables f).degree = e.degree ∧
    (∀ u, u ∈ (e.mapVariables f).distinctVariables ↔ ∃ v ∈ e.distinctVariables, f v = u) ∧
    (e.mapVariables f).distinctVariables = Variable.distinct (e.distinctVariables.map f) := by
  refine ⟨e.scalar_mapVariables f, (e.hashed_mapVariables f).symm, ?_, ?_, e.degree_mapVariables f,
    fun u => ?_, e.distinctVariables_mapVariables f⟩
  · rw [← hashed_mapVariables, ← hashed_mapVariables, ← hashed_mapVariables,
      mapVariables_mapVariables]
  · rw [← hashed_mapVariables, mapVariables_id]
  · rw [distinctVariables_mapVariables, Variable.mem_distinct, List.mem_map]

end Expr

end Plonkish
