/-!
# Variables — cells of an assignment table

A table has four regions of columns, `ColumnKind`.  A `Variable` names a cell of a column.  A
relative one reads `rotation` rows away from the row a constraint is anchored at; an absolute one
names the fixed row `rotation`.

`a ≤ b` is the order variables are listed in: by region, then index, then rotation, and an
absolute variable before the relative one with the same three.  It is a total order:
`Variable.le_total`, `Variable.le_trans` and `Variable.le_antisymm`.  `Variable.toString` is the
text of a variable, `w3[-1]` or `pi2@7`.
-/

namespace Plonkish

/-- The regions of an assignment table. -/
inductive ColumnKind where
  /-- Cells the prover fills. -/
  | witness
  /-- Cells the statement fixes. -/
  | publicInput
  /-- Cells the circuit fixes. -/
  | constant
  /-- Cells that turn gates on. -/
  | selector
deriving DecidableEq, Repr, Hashable

namespace ColumnKind

/-- The position of a region among the four. -/
def tag : ColumnKind → Nat
  | witness => 0
  | publicInput => 1
  | constant => 2
  | selector => 3

/-- The region at a position. -/
def ofTag? : Nat → Option ColumnKind
  | 0 => some witness
  | 1 => some publicInput
  | 2 => some constant
  | 3 => some selector
  | _ => none

/-- The four regions, in order. -/
def all : List ColumnKind := [witness, publicInput, constant, selector]

/-- The letters a variable of the region starts with. -/
def letters : ColumnKind → String
  | witness => "w"
  | publicInput => "pi"
  | constant => "c"
  | selector => "s"

/-- The name of the region. -/
def name : ColumnKind → String
  | witness => "Witness"
  | publicInput => "PublicInput"
  | constant => "Constant"
  | selector => "Selector"

@[simp] theorem ofTag?_tag (c : ColumnKind) : ofTag? c.tag = some c := by cases c <;> rfl

theorem tag_injective {c d : ColumnKind} (h : c.tag = d.tag) : c = d := by
  cases c <;> cases d <;> simp_all [tag]

end ColumnKind

/-- A value for each of the four regions. -/
structure Regions (α : Type) where
  /-- The value for the witness region. -/
  witness : α
  /-- The value for the public input region. -/
  publicInput : α
  /-- The value for the constant region. -/
  constant : α
  /-- The value for the selector region. -/
  selector : α
deriving DecidableEq, Repr

namespace Regions

variable {α β : Type}

/-- The value for region `c`. -/
def get (r : Regions α) : ColumnKind → α
  | .witness => r.witness
  | .publicInput => r.publicInput
  | .constant => r.constant
  | .selector => r.selector

/-- The same values, but `a` for region `c`. -/
def set (r : Regions α) (c : ColumnKind) (a : α) : Regions α :=
  match c with
  | .witness => { r with witness := a }
  | .publicInput => { r with publicInput := a }
  | .constant => { r with constant := a }
  | .selector => { r with selector := a }

/-- Applies `f` to the four values, in order, until it fails. -/
def mapM {m : Type → Type} [Monad m] (f : α → m β) (r : Regions α) : m (Regions β) := do
  let witness ← f r.witness
  let publicInput ← f r.publicInput
  let constant ← f r.constant
  let selector ← f r.selector
  return { witness, publicInput, constant, selector }

@[simp] theorem get_set_self (r : Regions α) (c : ColumnKind) (a : α) : (r.set c a).get c = a := by
  cases c <;> rfl

theorem get_set_of_ne (r : Regions α) {c d : ColumnKind} (a : α) (h : c ≠ d) :
    (r.set c a).get d = r.get d := by
  cases c <;> cases d <;> simp_all [set, get]

end Regions

/-- A cell of an assignment table, relative to an anchor row or absolute. -/
structure Variable where
  /-- The region of the column. -/
  kind : ColumnKind
  /-- The position of the column in its region. -/
  index : UInt32
  /-- The distance from the anchor row, or the row itself for an absolute variable. -/
  rotation : Int32
  /-- Whether the rotation counts from the anchor row. -/
  relative : Bool
deriving DecidableEq, Repr, Hashable

namespace Variable

/-- The variable `rotation` rows away from the anchor row. -/
def relativeTo (kind : ColumnKind) (index : UInt32) (rotation : Int32) : Variable :=
  ⟨kind, index, rotation, true⟩

/-- The variable at a fixed row, if the row is at most the largest rotation. -/
def absolute? (kind : ColumnKind) (index : UInt32) (row : Nat) : Option Variable :=
  if row < 1 <<< 31 then some ⟨kind, index, Int32.ofNat row, false⟩ else none

/-- The variable whose rotation is `d` larger, wrapping around the range of rotations. -/
def shift (v : Variable) (d : Int32) : Variable := { v with rotation := v.rotation + d }

/-! ### Order -/

/-- The four attributes as numbers, in the order they are compared. -/
def key (v : Variable) : Nat × Nat × Int × Nat :=
  (v.kind.tag, v.index.toNat, v.rotation.toInt, v.relative.toNat)

/-- Whether `v` is listed no later than `w`. -/
def le (v w : Variable) : Bool :=
  v.kind.tag < w.kind.tag || (v.kind.tag = w.kind.tag &&
    (v.index.toNat < w.index.toNat || (v.index.toNat = w.index.toNat &&
      (v.rotation.toInt < w.rotation.toInt || (v.rotation.toInt = w.rotation.toInt &&
        (v.relative.toNat ≤ w.relative.toNat : Bool))))))

instance : LE Variable := ⟨fun v w => v.le w = true⟩

instance (v w : Variable) : Decidable (v ≤ w) := inferInstanceAs (Decidable (_ = true))

theorem le_iff {v w : Variable} : v ≤ w ↔ v.le w = true := Iff.rfl

theorem le_total (v w : Variable) : v ≤ w ∨ w ≤ v := by
  simp only [le_iff, le, Bool.or_eq_true, Bool.and_eq_true, decide_eq_true_eq]
  omega

theorem le_trans {u v w : Variable} (h₁ : u ≤ v) (h₂ : v ≤ w) : u ≤ w := by
  simp only [le_iff, le, Bool.or_eq_true, Bool.and_eq_true, decide_eq_true_eq] at *
  omega

theorem le_refl (v : Variable) : v ≤ v := (le_total v v).elim id id

theorem key_injective {v w : Variable} (h : v.key = w.key) : v = w := by
  obtain ⟨c, i, r, b⟩ := v
  obtain ⟨d, j, s, e⟩ := w
  simp only [key, Prod.mk.injEq] at h
  obtain ⟨hc, hi, hr, hb⟩ := h
  cases ColumnKind.tag_injective hc
  cases UInt32.toNat_inj.mp hi
  cases Int32.toInt_inj.mp hr
  cases b <;> cases e <;> simp_all

theorem le_antisymm {v w : Variable} (h₁ : v ≤ w) (h₂ : w ≤ v) : v = w := by
  simp only [le_iff, le, Bool.or_eq_true, Bool.and_eq_true, decide_eq_true_eq] at h₁ h₂
  apply key_injective
  simp only [key, Prod.mk.injEq]
  omega

instance : LT Variable := ⟨fun v w => v ≤ w ∧ v ≠ w⟩

theorem lt_trans {u v w : Variable} (h₁ : u < v) (h₂ : v < w) : u < w :=
  ⟨le_trans h₁.1 h₂.1, fun h => h₂.2 (le_antisymm h₂.1 (h ▸ h₁.1))⟩

theorem lt_of_not_le {v w : Variable} (h : ¬ v ≤ w) : w < v :=
  ⟨(le_total v w).resolve_left h, fun heq => h (heq ▸ le_refl w)⟩

/-- The variables of a list in order, repetitions kept. -/
def sort (l : List Variable) : List Variable := l.mergeSort le

theorem pairwise_sort (l : List Variable) : (sort l).Pairwise (· ≤ ·) :=
  @List.pairwise_mergeSort Variable le (fun _ _ _ h₁ h₂ => le_trans h₁ h₂)
    (fun v w => (Bool.or_eq_true _ _).mpr (le_total v w)) l

theorem sort_perm (l : List Variable) : (sort l).Perm l := List.mergeSort_perm l le

theorem sort_of_pairwise {l : List Variable} (h : l.Pairwise (· ≤ ·)) : sort l = l :=
  List.mergeSort_of_pairwise h

theorem sort_eq_of_perm {l m : List Variable} (h : l.Perm m) : sort l = sort m :=
  ((sort_perm l).trans (h.trans (sort_perm m).symm)).eq_of_pairwise
    (fun _ _ _ _ => le_antisymm) (pairwise_sort l) (pairwise_sort m)

/-- Adds a variable to an ordered list without repetitions. -/
def insertDistinct (v : Variable) : List Variable → List Variable
  | [] => [v]
  | w :: l => if v = w then w :: l else if v ≤ w then v :: w :: l else w :: insertDistinct v l

/-- The different variables of a list, in order. -/
def distinct (l : List Variable) : List Variable := l.foldl (fun acc v => insertDistinct v acc) []

@[simp] theorem mem_insertDistinct {u v : Variable} {l : List Variable} :
    u ∈ insertDistinct v l ↔ u = v ∨ u ∈ l := by
  induction l with
  | nil => simp [insertDistinct]
  | cons w l ih =>
    unfold insertDistinct
    split
    · next h => subst h; simp
    · split
      · simp
      · simp only [List.mem_cons, ih]; grind

@[simp] theorem mem_distinct {u : Variable} {l : List Variable} : u ∈ distinct l ↔ u ∈ l := by
  suffices ∀ acc, u ∈ l.foldl (fun acc v => insertDistinct v acc) acc ↔ u ∈ acc ∨ u ∈ l by
    simpa [distinct] using this []
  intro acc
  induction l generalizing acc with
  | nil => simp
  | cons w l ih => simp only [List.foldl_cons, ih, mem_insertDistinct, List.mem_cons]; grind

theorem pairwise_insertDistinct (v : Variable) {l : List Variable} (h : l.Pairwise (· < ·)) :
    (insertDistinct v l).Pairwise (· < ·) := by
  induction l with
  | nil => exact List.pairwise_singleton _ v
  | cons w l ih =>
    obtain ⟨hw, hl⟩ := List.pairwise_cons.mp h
    unfold insertDistinct
    split
    · exact h
    · next hne =>
      split
      · next hle =>
        have hlt : v < w := ⟨hle, hne⟩
        refine List.pairwise_cons.mpr ⟨fun u hu => ?_, h⟩
        rcases List.mem_cons.mp hu with rfl | hu
        · exact hlt
        · exact lt_trans hlt (hw u hu)
      · next hle =>
        refine List.pairwise_cons.mpr ⟨fun u hu => ?_, ih hl⟩
        rcases mem_insertDistinct.mp hu with rfl | hu
        · exact lt_of_not_le hle
        · exact hw u hu

/-- Each different variable is listed once, in order. -/
theorem pairwise_distinct (l : List Variable) : (distinct l).Pairwise (· < ·) := by
  suffices ∀ acc : List Variable, acc.Pairwise (· < ·) →
      (l.foldl (fun acc v => insertDistinct v acc) acc).Pairwise (· < ·) from this [] .nil
  intro acc hacc
  induction l generalizing acc with
  | nil => exact hacc
  | cons v l ih => exact ih _ (pairwise_insertDistinct v hacc)

theorem nodup_distinct (l : List Variable) : (distinct l).Nodup :=
  (pairwise_distinct l).imp And.right

/-- Lists with the same members have the same different variables. -/
theorem distinct_eq_of_mem_iff {l m : List Variable} (h : ∀ v, v ∈ l ↔ v ∈ m) :
    distinct l = distinct m := by
  have hperm : (distinct l).Perm (distinct m) :=
    (List.perm_ext_iff_of_nodup (nodup_distinct l) (nodup_distinct m)).mpr fun v => by
      rw [mem_distinct, mem_distinct, h]
  exact hperm.eq_of_pairwise (fun _ _ _ _ hvw hwv => le_antisymm hvw.1 hwv.1) (pairwise_distinct l)
    (pairwise_distinct m)

/-! ### Text -/

/-- A number with its sign, `+` included. -/
def signed (n : Int) : String := if n < 0 then toString n else "+" ++ toString n

/-- The region and index, then the rotation in brackets or the row after `@`. -/
protected def toString (v : Variable) : String :=
  v.kind.letters ++ toString v.index.toNat ++
    if v.relative then
      if v.rotation = 0 then "" else "[" ++ signed v.rotation.toInt ++ "]"
    else "@" ++ toString v.rotation.toInt

instance : ToString Variable := ⟨Variable.toString⟩

end Variable

end Plonkish
