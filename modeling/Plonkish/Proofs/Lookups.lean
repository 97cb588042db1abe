import Plonkish.Proofs.Evaluate
import Plonkish.Proofs.Fault

/-!
# Proofs — looking variables up

An expression whose variables are looked up by calls that may fail has a value exactly if each of
its variables has one, and otherwise the error of the first of its occurrences that has none
(`Expr.exists_evaluate_iff`, `Expr.evaluate_eq_error`).  A map of values is such a call, which fails
for the variables that it lacks (`Expr.exists_valueIn_iff`, `Expr.valueIn_eq_error`).

`recorded look` notes each variable that is looked up.  What it notes in the course of an evaluation
are the occurrences in order, up to the first that fails (`Expr.evaluate_recorded_cases`).
-/

namespace Plonkish

variable {k : BaseField}

/-! ### Calls that may fail -/

section Calls

variable {T ε : Type} {A : Algebra k T} {look : Variable → Except ε T} {e : Expr k} {err : ε}

namespace Expr

/-- An expression has a value exactly if all its variables have. -/
theorem exists_evaluate_iff :
    (∃ x, e.evaluate A look = .ok x) ↔ ∀ v ∈ e.occurrences, ∃ x, look v = .ok x := by
  rw [evaluate_eq_mapM, ← exists_mapM_eq_ok]
  constructor
  · rintro ⟨x, hx⟩
    obtain ⟨values, hvalues, -⟩ := map_eq_ok.mp hx
    exact ⟨values, hvalues⟩
  · rintro ⟨values, hvalues⟩
    exact ⟨e.combine A values, by rw [hvalues]; rfl⟩

/-- Look-ups that fail with something else let the expression fail with something else. -/
theorem evaluate_mapError {ε' : Type} (A : Algebra k T) (look : Variable → Except ε T) (g : ε → ε')
    (e : Expr k) : e.evaluate A (fun v => (look v).mapError g) =
      (e.evaluate A look).mapError g := by
  rw [evaluate_eq_mapM, evaluate_eq_mapM, mapM_mapError]
  cases e.occurrences.mapM look <;> rfl

/-- An expression without a value has the error of the first occurrence that has none. -/
theorem evaluate_eq_error :
    e.evaluate A look = .error err ↔ ∃ before v, FirstFailure look e.occurrences before v err := by
  rw [evaluate_eq_mapM, ← mapM_eq_error]
  cases e.occurrences.mapM look with
  | ok values => exact ⟨nofun, nofun⟩
  | error err' =>
      exact ⟨fun h => congrArg _ (Except.error.inj h), fun h => congrArg _ (Except.error.inj h)⟩

end Expr

end Calls

/-! ### Recorded calls -/

section Recorded

variable {T ε : Type} {A : Algebra k T} {look : Variable → Except ε T} {l : List Variable}

/-- Looks a variable up, and notes it at the end of a list. -/
def recorded (look : Variable → Except ε T) (v : Variable) : ExceptT ε (StateM (List Variable)) T :=
  .mk do
    modify (· ++ [v])
    return look v

/-- The variables of a list up to the first whose look-up fails, that one included. -/
def attempted (look : Variable → Except ε T) : List Variable → List Variable
  | [] => []
  | v :: l =>
    match look v with
    | .ok _ => v :: attempted look l
    | .error _ => [v]

theorem run_exceptT_bind {σ α β : Type} (x : ExceptT ε (StateM σ) α)
    (f : α → ExceptT ε (StateM σ) β) (s : σ) : (x >>= f).run.run s =
      match x.run.run s with
      | (.ok a, s') => (f a).run.run s'
      | (.error err, s') => (.error err, s') := by
  simp only [ExceptT.run_bind, StateT.run_bind]
  rcases x.run.run s with ⟨_ | _, s'⟩ <;> rfl

theorem run_recorded (v : Variable) (seen : List Variable) :
    (recorded look v).run.run seen = (look v, seen ++ [v]) := rfl

/-- A run over the variables records those that were asked for, up to the first one that fails. By
induction on the list. -/
theorem run_mapM_recorded (seen : List Variable) :
    (l.mapM (recorded look)).run.run seen = (l.mapM look, seen ++ attempted look l) := by
  induction l generalizing seen with
  | nil =>
      rw [attempted, List.append_nil]
      rfl
  | cons v l ih =>
      rw [List.mapM_cons, List.mapM_cons, run_exceptT_bind, run_recorded, attempted]
      cases look v with
      | error err => rfl
      | ok x =>
          dsimp only
          rw [run_exceptT_bind, ih, List.append_assoc]
          cases l.mapM look <;> rfl

/-- **What an evaluation notes** are the occurrences in order, up to the first whose look-up fails.
To note them does not change the outcome. -/
theorem Expr.evaluate_recorded (e : Expr k) (seen : List Variable) :
    (e.evaluate A (recorded look)).run.run seen =
      (e.evaluate A look, seen ++ attempted look e.occurrences) := by
  rw [evaluate_eq_mapM, evaluate_eq_mapM, map_eq_pure_bind, run_exceptT_bind, run_mapM_recorded]
  cases e.occurrences.mapM look <;> rfl

/-- Every variable is asked for when every look-up answers. -/
theorem attempted_of_answers (h : ∀ v ∈ l, ∃ x, look v = .ok x) : attempted look l = l := by
  induction l with
  | nil => rfl
  | cons v l ih =>
      obtain ⟨⟨x, hx⟩, hrest⟩ := List.forall_mem_cons.mp h
      rw [attempted, hx, ih hrest]

/-- No variable is asked for after the first failure. -/
theorem attempted_of_firstFailure {before : List Variable} {v : Variable} {err : ε}
    (h : FirstFailure look l before v err) : attempted look l = before ++ [v] := by
  obtain ⟨⟨after, rfl⟩, hanswers, hfails⟩ := h
  induction before with
  | nil => simp [attempted, hfails]
  | cons u before ih =>
      obtain ⟨⟨x, hx⟩, hrest⟩ := List.forall_mem_cons.mp hanswers
      simpa [attempted, hx] using ih hrest

/-- **An evaluation ends in one of two ways.**  Every look-up answers, and all occurrences have been
looked up; or one is the first to fail, and those up to it have been. -/
theorem Expr.evaluate_recorded_cases (e : Expr k) (A : Algebra k T) (look : Variable → Except ε T) :
    (∃ x, (∀ v ∈ e.occurrences, ∃ y, look v = .ok y) ∧ e.evaluate A look = .ok x ∧
      (e.evaluate A (recorded look)).run.run [] = (.ok x, e.occurrences)) ∨
    ∃ before v err, FirstFailure look e.occurrences before v err ∧ e.evaluate A look = .error err ∧
      (e.evaluate A (recorded look)).run.run [] = (.error err, before ++ [v]) := by
  have hrun : (e.evaluate A (recorded look)).run.run [] =
      (e.evaluate A look, attempted look e.occurrences) := e.evaluate_recorded []
  cases houtcome : e.evaluate A look with
  | ok x =>
      have hanswers := exists_evaluate_iff.mp ⟨x, houtcome⟩
      rw [houtcome, attempted_of_answers hanswers] at hrun
      exact .inl ⟨x, hanswers, rfl, hrun⟩
  | error err =>
      obtain ⟨before, v, hfirst⟩ := evaluate_eq_error.mp houtcome
      rw [houtcome, attempted_of_firstFailure hfirst] at hrun
      exact .inr ⟨before, v, err, hfirst, rfl, hrun⟩

end Recorded

/-! ### Maps of values -/

namespace EvaluationMap

variable {map : EvaluationMap k} {v : Variable}

/-- The value that a map has for a variable, or the variable if there is none. -/
def find (map : EvaluationMap k) (v : Variable) : Except Variable (Felt k) :=
  match map[v]? with
  | some a => .ok a
  | none => .error v

theorem find_eq_ok {a : Felt k} : map.find v = .ok a ↔ map[v]? = some a := by
  unfold find
  cases map[v]? with
  | none => exact ⟨nofun, nofun⟩
  | some b => simp

theorem exists_find_iff : (∃ a, map.find v = .ok a) ↔ v ∈ map := by
  simp only [find_eq_ok, ← Option.isSome_iff_exists, Std.HashMap.isSome_getElem?_iff_mem]

theorem find_eq_error {u : Variable} : map.find v = .error u ↔ v ∉ map ∧ v = u := by
  unfold find
  rw [← Std.HashMap.isSome_getElem?_iff_mem]
  cases map[v]? <;> simp

end EvaluationMap

namespace Expr

variable {e : Expr k} {map : EvaluationMap k}

theorem valueIn_eq (e : Expr k) (map : EvaluationMap k) :
    e.valueIn map = e.evaluate (.scalars k) fun v => Felt.scalar <$> map.find v := by
  refine congrArg (e.evaluate _) (funext fun v => ?_)
  unfold EvaluationMap.find
  cases map[v]? <;> rfl

/-- A map gives an expression a value exactly if it has all its variables. -/
theorem exists_valueIn_iff :
    (∃ a, e.valueIn map = .ok a) ↔ ∀ v ∈ e.occurrences, v ∈ map := by
  simp only [valueIn_eq, exists_evaluate_iff, exists_map_eq_ok, EvaluationMap.exists_find_iff]

/-- Otherwise the first variable that the map lacks is named. -/
theorem valueIn_eq_error {v : Variable} :
    e.valueIn map = .error v ↔
      ∃ before, before ++ [v] <+: e.occurrences ∧ (∀ u ∈ before, u ∈ map) ∧ v ∉ map := by
  rw [valueIn_eq, evaluate_eq_error]
  refine exists_congr fun before => ⟨?_, ?_⟩
  · rintro ⟨u, hstarts, hanswers, hfails⟩
    obtain ⟨hmissing, rfl⟩ := EvaluationMap.find_eq_error.mp (map_eq_error.mp hfails)
    refine ⟨hstarts, fun w hw => ?_, hmissing⟩
    exact EvaluationMap.exists_find_iff.mp (exists_map_eq_ok.mp (hanswers w hw))
  · rintro ⟨hstarts, hpresent, hmissing⟩
    refine ⟨v, hstarts, fun w hw => ?_, ?_⟩
    · exact exists_map_eq_ok.mpr (EvaluationMap.exists_find_iff.mpr (hpresent w hw))
    · exact map_eq_error.mpr (EvaluationMap.find_eq_error.mpr ⟨hmissing, rfl⟩)

/-- A map does not give an expression a value exactly if it lacks one of its variables. -/
theorem exists_valueIn_eq_error_iff :
    (∃ v, e.valueIn map = .error v) ↔ ∃ v ∈ e.distinctVariables, v ∉ map := by
  constructor
  · rintro ⟨v, hv⟩
    obtain ⟨before, hstarts, -, hmissing⟩ := valueIn_eq_error.mp hv
    exact ⟨v, mem_distinctVariables.mpr (hstarts.subset (by simp)), hmissing⟩
  · rintro ⟨v, hv, hmissing⟩
    cases h : e.valueIn map with
    | ok a => exact absurd (exists_valueIn_iff.mp ⟨a, h⟩ v (mem_distinctVariables.mp hv)) hmissing
    | error u => exact ⟨u, rfl⟩

end Expr

end Plonkish
