/-!
# Strides — every n-th entry of a list

`everyNth step l` takes the first entry of `l` and then every `step`-th one after it: the entry at
`i` is the entry of `l` at `step * i`, which is what `getElem?_everyNth` says.  A step of zero is
taken as one.

`stridden values start step count` takes at most `count` entries of an array, at `start`,
`start + step` and so on as far as there are any (`getElem?_stridden`).
-/

namespace Plonkish

variable {α : Type}

/-- Passes over `wait` entries, and from there on keeps the first of every `skip + 1`. -/
def everyNthFrom (skip : Nat) : Nat → List α → List α
  | _, [] => []
  | 0, a :: l => a :: everyNthFrom skip skip l
  | wait + 1, _ :: l => everyNthFrom skip wait l

/-- Every `step`-th entry of a list, from the first one on. -/
def everyNth (step : Nat) (l : List α) : List α := everyNthFrom (step - 1) 0 l

theorem getElem?_everyNthFrom (skip wait : Nat) (l : List α) (i : Nat) :
    (everyNthFrom skip wait l)[i]? = l[wait + (skip + 1) * i]? := by
  induction l generalizing wait i with
  | nil => simp [everyNthFrom]
  | cons a l ih =>
    cases wait with
    | zero =>
      cases i with
      | zero => simp [everyNthFrom]
      | succ i =>
        rw [everyNthFrom, List.getElem?_cons_succ, ih, Nat.zero_add, Nat.mul_add, Nat.mul_one,
          show (skip + 1) * i + (skip + 1) = skip + (skip + 1) * i + 1 by omega,
          List.getElem?_cons_succ]
    | succ wait =>
      rw [everyNthFrom, ih, show wait + 1 + (skip + 1) * i = wait + (skip + 1) * i + 1 by omega,
        List.getElem?_cons_succ]

/-- The entry at `i` is the one `step * i` places into the list. -/
theorem getElem?_everyNth {step : Nat} (h : 0 < step) (l : List α) (i : Nat) :
    (everyNth step l)[i]? = l[step * i]? := by
  rw [everyNth, getElem?_everyNthFrom, Nat.zero_add, Nat.sub_add_cancel h]

/-! ### Arrays -/

/-- At most `count` entries of an array, the one at `start` and every `step`-th one after it. -/
def stridden (values : Array α) (start step count : Nat) : List α :=
  (List.range count).filterMap fun i => values[step * i + start]?

/-- A partial function without gaps gives its values in order. -/
theorem getElem?_filterMap_range {f : Nat → Option α} (h : ∀ i, f i = none → f (i + 1) = none)
    (n i : Nat) : ((List.range n).filterMap f)[i]? = if i < n then f i else none := by
  induction n generalizing f i with
  | zero => simp
  | succ n ih =>
    have ih := fun i => ih (f := fun i => f (i + 1)) (fun i => h (i + 1)) i
    rw [List.range_succ_eq_map, List.filterMap_cons, List.filterMap_map]
    cases h₀ : f 0 with
    | some a =>
      cases i with
      | zero => simp [h₀]
      | succ i => simpa [Function.comp_def] using ih i
    | none =>
      have hnone : ∀ i, f i = none := fun i => by
        induction i with
        | zero => exact h₀
        | succ i hi => exact h i hi
      have hnil : (List.range n).filterMap (f ∘ Nat.succ) = [] :=
        List.filterMap_eq_nil_iff.mpr fun i _ => hnone (i + 1)
      simp only [hnil, hnone, List.getElem?_nil, ite_self]

/-- The entry at `i` is the one `step * i` places after the start. -/
theorem getElem?_stridden (values : Array α) (start step count i : Nat) :
    (stridden values start step count)[i]? =
      if i < count then values[step * i + start]? else none := by
  refine getElem?_filterMap_range (fun i hi => ?_) count i
  rw [Array.getElem?_eq_none_iff] at hi ⊢
  exact Nat.le_trans hi (by rw [Nat.mul_succ]; omega)

end Plonkish
