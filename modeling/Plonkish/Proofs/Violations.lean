import Plonkish.Proofs.Accepted
import Plonkish.Proofs.Agreement

/-!
# Proofs — what a table violates

Checking a table answers for every circuit and every table with a row, whatever cells the circuit
names.  The list it answers with names all that the table violates (`Circuit.Violates`) and nothing
else, each once, in the order of the places of the circuit (`Place.Before`): gate by gate, row by
row, constraint by constraint, and then the copy constraints.

* `Table.tryResolve_ne_fault` and `Expr.tryAtRow_ne_fault`: reading a table may be refused but does
  not fault.
* `Listed`: a list that names the values of a relation, in the order of their places.
* `Circuit.violations_listed`: the answer of a check.  `Circuit.eq_of_listed` says that there is no
  other list of what the table violates.
-/

namespace Plonkish

variable {k : BaseField} {t : Table k}

/-! ### Reading does not fault -/

/-- The rotated row is always found in a table with rows, as long as the anchor stays within the
range of the signed arithmetic. -/
theorem Variable.exists_rotatedRow {rows anchor : Nat} (hpos : 0 < rows) (ha : anchor ≤ 2 ^ 62)
    (rotation : Int32) : ∃ r, rotatedRow rows anchor rotation = .ok r := by
  have hlow : -2 ^ 31 ≤ rotation.toInt := rotation.le_toInt
  have hhigh : rotation.toInt < 2 ^ 31 := rotation.toInt_lt
  rw [rotatedRow, if_neg hpos.ne', bmod_eq ha]
  dsimp only
  rw [if_neg (by omega), if_neg (by omega)]
  exact ⟨_, rfl⟩

/-- The row of a variable is always found in a table with rows. -/
theorem Variable.exists_row {rows anchor : Nat} (hpos : 0 < rows) (ha : anchor ≤ 2 ^ 62)
    (v : Variable) : ∃ r, v.row anchor rows = .ok r := by
  unfold row
  split
  · obtain ⟨r, hr⟩ := exists_rotatedRow hpos ha v.rotation
    exact ⟨some r, bind_pure_eq_ok.mpr ⟨r, hr, rfl⟩⟩
  · split
    · exact ⟨_, rfl⟩
    · exact ⟨_, rfl⟩

/-- A look-up at a variable may be refused, but it stops nothing. -/
theorem Table.tryResolve_ne_fault {anchor : Nat} (hpos : 0 < t.rows) (ha : anchor ≤ 2 ^ 62)
    (v : Variable) (f : Fault) : t.tryResolve v anchor ≠ .error (.fault f) := by
  obtain ⟨row?, hrow⟩ := Variable.exists_row hpos ha v
  rw [tryResolve, hrow]
  intro h
  cases row? with
  | none => cases h
  | some row =>
      replace h : (t.tryGet v.kind v.index.toNat row).mapError Failure.refused =
          .error (.fault f) := h
      cases hcell : t.tryGet v.kind v.index.toNat row with
      | ok a =>
          rw [hcell] at h
          cases h
      | error e =>
          rw [hcell] at h
          cases h

/-- Nor does the evaluation of an expression, which fails only where a look-up does. -/
theorem Expr.tryAtRow_ne_fault {anchor : Nat} (hpos : 0 < t.rows) (ha : anchor ≤ 2 ^ 62)
    (e : Expr k) (f : Fault) : e.tryAtRow t anchor ≠ .error (.fault f) := by
  intro h
  obtain ⟨_, v, hfirst⟩ := evaluate_eq_error.mp h
  exact Table.tryResolve_ne_fault hpos ha v f (map_eq_error.mp hfirst.fails)

/-! ### Lists in the order of their places -/

/-- The list names the values of a relation between places and values, once for each place that has
one, in the order of the places. -/
def Listed {α β : Type} (before : α → α → Prop) (R : α → β → Prop) (vs : List β) : Prop :=
  ∃ l : List (α × β), l.map Prod.snd = vs ∧ l.Pairwise (fun x y => before x.1 y.1) ∧
    ∀ x, x ∈ l ↔ R x.1 x.2

namespace Listed

variable {α β : Type} {before : α → α → Prop} {R S : α → β → Prop} {vs ws : List β}

/-- Nothing is listed where nothing breaks. -/
theorem nil (h : ∀ p v, ¬ R p v) : Listed before R [] :=
  ⟨[], rfl, .nil, fun _ => iff_of_false List.not_mem_nil (h _ _)⟩

/-- The relation that a list lists may be stated by any equivalent one. -/
theorem of_iff (h : Listed before R vs) (hiff : ∀ p v, R p v ↔ S p v) : Listed before S vs := by
  obtain ⟨l, hl, hordered, hmem⟩ := h
  exact ⟨l, hl, hordered, fun x => (hmem x).trans (hiff x.1 x.2)⟩

/-- What is found at a single place. -/
theorem toList (p : α) (v? : Option β) :
    Listed before (fun q v => q = p ∧ v? = some v) v?.toList := by
  cases v? with
  | none => exact nil fun _ _ h => nomatch h.2
  | some v =>
      refine ⟨[(p, v)], rfl, List.pairwise_singleton _ _, fun x => ?_⟩
      rw [List.mem_singleton, Prod.ext_iff]
      exact and_congr_right fun _ => eq_comm.trans Option.some_inj.symm

/-- Two lists whose places come one after the other list both relations together. -/
theorem append (h : Listed before R vs) (h' : Listed before S ws)
    (hbefore : ∀ {p v q w}, R p v → S q w → before p q) :
    Listed before (fun p v => R p v ∨ S p v) (vs ++ ws) := by
  obtain ⟨l, rfl, hordered, hmem⟩ := h
  obtain ⟨m, rfl, hordered', hmem'⟩ := h'
  refine ⟨l ++ m, List.map_append, List.pairwise_append.mpr ⟨hordered, hordered', ?_⟩, fun x => ?_⟩
  · intro x hx y hy
    exact hbefore ((hmem x).mp hx) ((hmem' y).mp hy)
  · rw [List.mem_append, hmem, hmem']

/-- What calls for the entries of a list find, if the places of an entry come before those of a
later one. -/
theorem exists_flatMap {γ δ ε : Type} {f : γ → Except ε δ} {found : δ → List β} {l : List γ}
    {R : Nat → γ → α → β → Prop}
    (h : ∀ i a, l[i]? = some a → ∃ d, f a = .ok d ∧ Listed before (R i a) (found d))
    (hbefore : ∀ {i a p v j b q w}, i < j → R i a p v → R j b q w → before p q) :
    ∃ r, l.mapM f = .ok r ∧
      Listed before (fun p v => ∃ i a, l[i]? = some a ∧ R i a p v) (r.flatMap found) := by
  induction l generalizing R with
  | nil => exact ⟨[], rfl, nil fun _ _ ⟨_, _, hi, _⟩ => nomatch hi⟩
  | cons a l ih =>
      obtain ⟨d, hd, hhead⟩ := h 0 a rfl
      -- The entries of the tail are one place further on.
      obtain ⟨r, hr, htail⟩ := ih (R := fun i => R (i + 1)) (fun i => h (i + 1)) fun hij =>
        hbefore (Nat.succ_lt_succ hij)
      refine ⟨d :: r, mapM_eq_ok.mpr (.cons hd (mapM_eq_ok.mp hr)), ?_⟩
      rw [List.flatMap_cons]
      refine (hhead.append htail ?_).of_iff ?_
      · rintro p v q w hp ⟨j, b, -, hq⟩
        exact hbefore j.succ_pos hp hq
      · intro p v
        rw [← Nat.or_exists_add_one (p := fun i => ∃ b, (a :: l)[i]? = some b ∧ R i b p v)]
        refine or_congr ⟨fun hp => ⟨a, rfl, hp⟩, ?_⟩ Iff.rfl
        rintro ⟨b, hb, hp⟩
        obtain rfl := Option.some.inj hb
        exact hp

/-- The lists of the members, one after the other, list what breaks at any of the members. By
induction on the members. -/
theorem exists_flatten {γ ε : Type} {f : γ → Except ε (List β)} {l : List γ}
    {R : Nat → γ → α → β → Prop}
    (h : ∀ i a, l[i]? = some a → ∃ vs, f a = .ok vs ∧ Listed before (R i a) vs)
    (hbefore : ∀ {i a p v j b q w}, i < j → R i a p v → R j b q w → before p q) :
    ∃ vs, (do return (← l.mapM f).flatten) = .ok vs ∧
      Listed before (fun p v => ∃ i a, l[i]? = some a ∧ R i a p v) vs := by
  obtain ⟨r, hr, hlisted⟩ := exists_flatMap h hbefore
  exact ⟨_, bind_pure_eq_ok.mpr ⟨r, hr, rfl⟩, List.flatMap_id ▸ hlisted⟩

/-- Where each member reports at most one violation, the list of those reported is in the members'
order. -/
theorem exists_filterMap {γ ε : Type} {f : γ → Except ε (Option β)} {l : List γ} (place : Nat → α)
    (h : ∀ a ∈ l, ∃ v?, f a = .ok v?) (hbefore : ∀ {i j}, i < j → before (place i) (place j)) :
    ∃ vs, (do return (← l.mapM f).filterMap id) = .ok vs ∧
      Listed before (fun p v => ∃ i a, l[i]? = some a ∧ p = place i ∧ f a = .ok (some v)) vs := by
  have hfound : ∀ i a, l[i]? = some a → ∃ v?, f a = .ok v? ∧
      Listed before (fun p v => p = place i ∧ f a = .ok (some v)) v?.toList := by
    intro i a ha
    obtain ⟨v?, hv⟩ := h a (List.mem_of_getElem? ha)
    refine ⟨v?, hv, (toList (place i) v?).of_iff fun p v => ?_⟩
    rw [hv, Except.ok.injEq]
  obtain ⟨r, hr, hlisted⟩ := exists_flatMap (R := fun i a p v => p = place i ∧ f a = .ok (some v))
    hfound fun hij hp hq => hp.1 ▸ hq.1 ▸ hbefore hij
  exact ⟨_, bind_pure_eq_ok.mpr ⟨r, hr, rfl⟩, List.filterMap_eq_flatMap_toList id r ▸ hlisted⟩

/-- A relation is listed by one list at most, if no two places come before each other. -/
theorem unique (hasymm : ∀ p q, before p q → ¬ before q p) (h : Listed before R vs)
    (h' : Listed before R ws) : vs = ws := by
  obtain ⟨l, rfl, hordered, hmem⟩ := h
  obtain ⟨m, rfl, hordered', hmem'⟩ := h'
  have hnodup {n : List (α × β)} (hn : n.Pairwise fun x y => before x.1 y.1) : n.Nodup :=
    hn.imp fun hxy heq => by subst heq; exact hasymm _ _ hxy hxy
  have hperm : l.Perm m := (List.perm_ext_iff_of_nodup (hnodup hordered) (hnodup hordered')).mpr
    fun x => (hmem x).trans (hmem' x).symm
  rw [hperm.eq_of_pairwise (fun x y _ _ hxy hyx => absurd hyx (hasymm _ _ hxy)) hordered hordered']

end Listed

/-! ### Violations -/

/-- A place of a circuit and a table where something can be violated. -/
inductive Place where
  /-- A constraint of a gate, on a row. -/
  | constraint (gate row index : Nat)
  /-- A copy constraint. -/
  | copy (index : Nat)

/-- The order of places: by gate, row and constraint, and the copy constraints last. -/
inductive Place.Before : Place → Place → Prop where
  | gate {g h r s i j : Nat} : g < h → Before (.constraint g r i) (.constraint h s j)
  | row {g r s i j : Nat} : r < s → Before (.constraint g r i) (.constraint g s j)
  | index {g r i j : Nat} : i < j → Before (.constraint g r i) (.constraint g r j)
  | gates {g r i n : Nat} : Before (.constraint g r i) (.copy n)
  | copy {m n : Nat} : m < n → Before (.copy m) (.copy n)

/-- No two places come before each other. -/
theorem Place.Before.asymm {p q : Place} (h : p.Before q) : ¬ q.Before p := by
  intro h'
  cases h <;> cases h' <;> omega

/-- What a constraint of a gate violates on a row: it has a nonzero value, or names a cell that does
not exist. -/
inductive Gate.Breaks (g : Gate k) (t : Table k) (row index : Nat) (e : Expr k) :
    Violation k → Prop where
  | value {a : Scalar k} : e.tryAtRow t row = .ok a → a ≠ 0 →
    Breaks g t row index e (.constraint g.selector row index e a)
  | cell {err : TableError} : e.tryAtRow t row = .error (.refused err) →
    Breaks g t row index e (.cell g.selector row err)

/-- What a copy constraint violates: its cells differ, or one does not exist.  Where neither does,
it is the first. -/
inductive CopyConstraint.Breaks (c : CopyConstraint) (t : Table k) : Violation k → Prop where
  | values {a b : Felt k} : t.tryValue c.first = .ok a → t.tryValue c.second = .ok b → a ≠ b →
    Breaks c t (.copy c a b)
  | first {err : TableError} : t.tryValue c.first = .error (.refused err) →
    Breaks c t (.copyCell c err)
  | second {a : Felt k} {err : TableError} : t.tryValue c.first = .ok a →
    t.tryValue c.second = .error (.refused err) → Breaks c t (.copyCell c err)

/-- What a table violates at a place of a circuit. -/
inductive Circuit.Violates (c : Circuit k) (t : Table k) : Place → Violation k → Prop where
  | constraint {i row j : Nat} {g : Gate k} {s : Felt k} {e : Expr k} {v : Violation k} :
    c.gates[i]? = some g → t.tryGet .selector g.selector row = .ok s → s ≠ 0 →
    g.constraints[j]? = some e → g.Breaks t row j e v → Violates c t (.constraint i row j) v
  | copy {i : Nat} {copy : CopyConstraint} {v : Violation k} :
    c.copies[i]? = some copy → copy.Breaks t v → Violates c t (.copy i) v

/-! ### Gates -/

/-- A selector is on where its cell can be read and does not hold zero. -/
theorem Table.enabled_iff_tryGet {selector row : Nat} : t.enabled selector row = true ↔
    ∃ a, t.tryGet .selector selector row = .ok a ∧ a ≠ 0 := by
  unfold enabled
  split
  · next a ha =>
      rw [decide_eq_true_iff, ha]
      exact ⟨fun hne => ⟨a, rfl, hne⟩, fun ⟨b, hb, hne⟩ => Except.ok.inj hb ▸ hne⟩
  · next err herr =>
      rw [herr]
      exact iff_of_false Bool.false_ne_true nofun

/-- What the check of a constraint reports is what the specification says breaks there. -/
theorem Gate.violationAt_eq_some {g : Gate k} {row j : Nat} {e : Expr k} {v : Violation k} :
    g.violationAt t row (e, j) = .ok (some v) ↔ g.Breaks t row j e v := by
  unfold violationAt
  constructor
  · intro h
    split at h
    · next a ha =>
        by_cases hzero : a = 0
        · rw [if_pos hzero] at h
          cases h
        · rw [if_neg hzero] at h
          obtain rfl := Option.some.inj (Except.ok.inj h)
          exact .value ha hzero
    · next err herr =>
        obtain rfl := Option.some.inj (Except.ok.inj h)
        exact .cell herr
    · cases h
  · rintro (⟨ha, hne⟩ | herr)
    · rw [ha]
      exact congrArg Except.ok (if_neg hne)
    · rw [herr]
      rfl

/-- The check of a constraint always ends where its evaluation stops nothing. -/
theorem Gate.exists_violationAt {g : Gate k} {row : Nat} {constraint : Expr k × Nat}
    (h : ∀ f, constraint.1.tryAtRow t row ≠ .error (.fault f)) :
    ∃ v?, g.violationAt t row constraint = .ok v? := by
  unfold violationAt
  split
  · exact ⟨_, rfl⟩
  · exact ⟨_, rfl⟩
  · next f hf => exact absurd hf (h f)

/-- What a table violates on a row of the gate at position `i`. -/
def Gate.ViolatesAt (g : Gate k) (t : Table k) (i row : Nat) (p : Place) (v : Violation k) : Prop :=
  t.enabled g.selector row = true ∧
    ∃ j e, g.constraints[j]? = some e ∧ p = .constraint i row j ∧ g.Breaks t row j e v

/-- The check of a gate on one row lists what it breaks there, in the order of its constraints. -/
theorem Gate.violations_listed (hheld : t.Held) (g : Gate k) (i row : Nat) :
    ∃ vs, g.violations t row = .ok vs ∧ Listed Place.Before (g.ViolatesAt t i row) vs := by
  unfold violations
  split
  · next henabled =>
      -- The selector has a column, which can be held, so the rows are few enough to be rotated.
      obtain ⟨hcolumn, hrow⟩ := Table.lt_of_enabled henabled
      have hrows := hheld.rows_le (Nat.zero_lt_of_lt hcolumn)
      refine (Listed.exists_filterMap (.constraint i row) ?_ .index).imp fun vs hvs =>
        ⟨hvs.1, hvs.2.of_iff fun p v => ?_⟩
      · exact fun constraint _ => exists_violationAt (constraint.1.tryAtRow_ne_fault
          (Nat.zero_lt_of_lt hrow) (hrow.le.trans hrows))
      · rw [ViolatesAt, and_iff_right henabled]
        -- The constraints are numbered by their places in the gate.
        simp only [List.getElem?_zipIdx, Nat.zero_add, Option.map_eq_some_iff]
        refine exists_congr fun j => ⟨?_, ?_⟩
        · rintro ⟨_, ⟨e, he, rfl⟩, hp, hv⟩
          exact ⟨e, he, hp, violationAt_eq_some.mp hv⟩
        · rintro ⟨e, he, hp, hv⟩
          exact ⟨_, ⟨e, he, rfl⟩, hp, violationAt_eq_some.mpr hv⟩
  · next hdisabled => exact ⟨[], rfl, .nil fun _ _ h => hdisabled h.1⟩

/-- The check of a gate goes over the rows in order. -/
theorem Gate.rows_listed (hheld : t.Held) (g : Gate k) (i : Nat) :
    ∃ vs, (do return (← (List.range t.rows).mapM (g.violations t)).flatten) = .ok vs ∧
      Listed Place.Before (fun p v => ∃ row, g.ViolatesAt t i row p v) vs := by
  refine (Listed.exists_flatten (R := fun row _ => g.ViolatesAt t i row) ?_ ?_).imp fun vs hvs =>
    ⟨hvs.1, hvs.2.of_iff fun p v => exists_congr fun row => ?_⟩
  · intro row r hr
    obtain ⟨-, rfl⟩ := List.getElem?_eq_some_iff.mp hr
    rw [List.getElem_range]
    exact violations_listed hheld g i row
  · rintro row _ p v row' _ q w hlt ⟨-, _, _, -, rfl, -⟩ ⟨-, _, _, -, rfl, -⟩
    exact .row hlt
  · refine ⟨fun ⟨_, _, h⟩ => h, fun h => ⟨row, ?_, h⟩⟩
    exact List.getElem?_range (Table.lt_of_enabled h.1).2

/-- The check of the gates goes over the gates in order. -/
theorem Circuit.gateViolations_listed (hheld : t.Held) (c : Circuit k) :
    ∃ vs, c.gateViolations t = .ok vs ∧ Listed Place.Before
      (fun p v => ∃ (i : Nat) (g : Gate k), c.gates[i]? = some g ∧ ∃ row, g.ViolatesAt t i row p v)
      vs := by
  simp only [← Array.getElem?_toList]
  unfold gateViolations
  refine Listed.exists_flatten
    (R := fun i (g : Gate k) p v => ∃ row, g.ViolatesAt t i row p v) ?_ ?_
  · intro i g _
    split
    · exact g.rows_listed hheld i
    · -- A selector without a column is enabled nowhere.
      next hmissing =>
        exact ⟨[], rfl, .nil fun _ _ ⟨_, h⟩ => hmissing (Table.lt_of_enabled h.1).1⟩
  · rintro i g p v j g' q w hij ⟨row, -, _, _, -, rfl, -⟩ ⟨row', -, _, _, -, rfl, -⟩
    exact .gate hij

/-! ### Copy constraints -/

theorem Table.cellOrRefusal_eq_ok {v : Variable} {r : Except TableError (Felt k)} :
    t.cellOrRefusal v = .ok r ↔ t.tryValue v = r.mapError .refused := by
  unfold cellOrRefusal
  rcases t.tryValue v with (err | f) | a <;> cases r <;>
    simp [Except.mapError, pure, Except.pure, throw, throwThe, MonadExceptOf.throw]

theorem Table.exists_cellOrRefusal (hpos : 0 < t.rows) (v : Variable) :
    ∃ r, t.cellOrRefusal v = .ok r := by
  unfold cellOrRefusal
  split
  · exact ⟨_, rfl⟩
  · exact ⟨_, rfl⟩
  · next f hf => exact absurd hf (tryResolve_ne_fault hpos (Nat.zero_le _) v f)

/-- What the check of a copy constraint reports is what the specification says breaks it. -/
theorem CopyConstraint.violation_eq_some (hpos : 0 < t.rows) {c : CopyConstraint}
    {v : Violation k} : c.violation t = .ok (some v) ↔ c.Breaks t v := by
  constructor
  · intro h
    obtain ⟨first, hfirst, h⟩ := bind_eq_ok.mp h
    obtain ⟨second, hsecond, h⟩ := bind_eq_ok.mp h
    rw [Table.cellOrRefusal_eq_ok] at hfirst hsecond
    cases first with
    | error err =>
        obtain rfl := Option.some.inj (Except.ok.inj h)
        exact .first hfirst
    | ok a =>
        cases second with
        | error err =>
            obtain rfl := Option.some.inj (Except.ok.inj h)
            exact .second hfirst hsecond
        | ok b =>
            replace h : (if a = b then none else some (.copy c a b)) = some v := Except.ok.inj h
            obtain ⟨hne, h⟩ := Option.ite_none_left_eq_some.mp h
            obtain rfl := Option.some.inj h
            exact .values hfirst hsecond hne
  · rintro (⟨hfirst, hsecond, hne⟩ | hfirst | ⟨hfirst, hsecond⟩)
    · refine bind_eq_ok.mpr ⟨.ok _, Table.cellOrRefusal_eq_ok.mpr hfirst,
        bind_eq_ok.mpr ⟨.ok _, Table.cellOrRefusal_eq_ok.mpr hsecond, ?_⟩⟩
      exact congrArg Except.ok (if_neg hne)
    · -- The second cell is looked up all the same, and what it is does not matter.
      obtain ⟨second, hsecond⟩ := Table.exists_cellOrRefusal hpos c.second
      exact bind_eq_ok.mpr ⟨.error _, Table.cellOrRefusal_eq_ok.mpr hfirst,
        bind_eq_ok.mpr ⟨second, hsecond, rfl⟩⟩
    · exact bind_eq_ok.mpr ⟨.ok _, Table.cellOrRefusal_eq_ok.mpr hfirst,
        bind_eq_ok.mpr ⟨.error _, Table.cellOrRefusal_eq_ok.mpr hsecond, rfl⟩⟩

theorem CopyConstraint.exists_violation (hpos : 0 < t.rows) (c : CopyConstraint) :
    ∃ v?, c.violation t = .ok v? := by
  obtain ⟨first, hfirst⟩ := Table.exists_cellOrRefusal hpos c.first
  obtain ⟨second, hsecond⟩ := Table.exists_cellOrRefusal hpos c.second
  unfold violation
  rw [hfirst, hsecond]
  cases first with
  | error err => exact ⟨_, rfl⟩
  | ok a =>
      cases second with
      | error err => exact ⟨_, rfl⟩
      | ok b => exact ⟨_, rfl⟩

namespace Circuit

variable {c : Circuit k}

/-- The check of the copy constraints goes over them in order. -/
theorem copyViolations_listed (hpos : 0 < t.rows) (c : Circuit k) :
    ∃ vs, c.copyViolations t = .ok vs ∧ Listed Place.Before
      (fun p v => ∃ (i : Nat) (copy : CopyConstraint), c.copies[i]? = some copy ∧ p = .copy i ∧
        copy.Breaks t v) vs := by
  simp only [← Array.getElem?_toList, ← CopyConstraint.violation_eq_some hpos]
  unfold copyViolations
  exact Listed.exists_filterMap Place.copy
    (fun (copy : CopyConstraint) _ => copy.exists_violation hpos) .copy

/-! ### Circuits -/

/-- What breaks in an assignment breaks at a gate or at a copy constraint. -/
theorem violates_iff {p : Place} {v : Violation k} : c.Violates t p v ↔
    (∃ (i : Nat) (g : Gate k), c.gates[i]? = some g ∧ ∃ row, g.ViolatesAt t i row p v) ∨
      ∃ (i : Nat) (copy : CopyConstraint), c.copies[i]? = some copy ∧ p = .copy i ∧
        copy.Breaks t v := by
  constructor
  · rintro (⟨hg, hs, hne, he, hv⟩ | ⟨hcopy, hv⟩)
    · exact .inl ⟨_, _, hg, _, Table.enabled_iff_tryGet.mpr ⟨_, hs, hne⟩, _, _, he, rfl, hv⟩
    · exact .inr ⟨_, _, hcopy, rfl, hv⟩
  · rintro (⟨i, g, hg, row, henabled, j, e, he, rfl, hv⟩ | ⟨i, copy, hcopy, rfl, hv⟩)
    · obtain ⟨s, hs, hne⟩ := Table.enabled_iff_tryGet.mp henabled
      exact .constraint hg hs hne he hv
    · exact .copy hcopy hv

/-- **Checking a table** answers with the list of what the table violates. -/
theorem violations_listed (c : Circuit k) (hheld : t.Held) (hpos : 0 < t.rows) :
    ∃ vs, c.violations t = .ok vs ∧ Listed Place.Before (c.Violates t) vs := by
  obtain ⟨gates, hgates, hgatesListed⟩ := gateViolations_listed hheld c
  obtain ⟨copies, hcopies, hcopiesListed⟩ := copyViolations_listed hpos c
  refine ⟨gates ++ copies, ?_, (hgatesListed.append hcopiesListed ?_).of_iff fun p v =>
    violates_iff.symm⟩
  · rw [violations, hgates, hcopies]
    rfl
  · rintro p v q w ⟨_, _, -, _, -, _, _, -, rfl, -⟩ ⟨_, _, -, rfl, -⟩
    exact .gates

/-- There is one list of what a table violates. -/
theorem eq_of_listed {vs ws : List (Violation k)} (h : Listed Place.Before (c.Violates t) vs)
    (h' : Listed Place.Before (c.Violates t) ws) : vs = ws :=
  h.unique (fun _ _ => Place.Before.asymm) h'

/-- **Checking decides whether a table satisfies a circuit**: it finds nothing exactly if the table
does what the circuit asks for, and otherwise all that the table violates. -/
theorem violations_exact (c : Circuit k) (hheld : t.Held) (hpos : 0 < t.rows) :
    ∃ vs, c.violations t = .ok vs ∧ (vs = [] ↔ c.MetBy t) ∧
      Listed Place.Before (c.Violates t) vs := by
  obtain ⟨vs, hvs, hlisted⟩ := c.violations_listed hheld hpos
  refine ⟨vs, hvs, ?_, hlisted⟩
  rw [← violations_eq_nil_iff, hvs, Except.ok.injEq]

end Circuit

/-- Two rows of a witness column and a selector column, enabled on both rows. -/
def Table.twoRows : Table .goldilocks where
  rows := 2
  usableRows := 2
  regions :=
    { witness := ⟨2, 1, #[0, .ofNat 3], rfl⟩
      publicInput := .zero _ 2 0
      constant := .zero _ 2 0
      selector := ⟨2, 1, #[1, .ofNat 5], rfl⟩ }
  height_eq kind := by cases kind <;> rfl

/-- A gate with a constraint on a missing column, a gate whose selector has no column, and copy
constraints between cells that differ, that do not exist, and that are the same. -/
def Circuit.unmet : Circuit .goldilocks where
  gates := #[⟨0, [.ofCell (.relativeTo .witness 0 0), .ofCell (.relativeTo .witness 1 0)]⟩,
    ⟨3, [.ofCell (.relativeTo .witness 0 0)]⟩]
  selectors := ∅
  copies := #[⟨⟨.witness, 0, 0, false⟩, ⟨.witness, 0, 1, false⟩⟩,
    ⟨⟨.witness, 4, 0, false⟩, ⟨.constant, 0, -1, false⟩⟩,
    ⟨⟨.witness, 0, 1, false⟩, ⟨.witness, 0, 1, false⟩⟩]

/-- The gate without a selector column and the last copy constraint are not in the list. -/
theorem Circuit.violations_exact_unmet :
    let found : List (Violation .goldilocks) :=
      [.cell 0 0 (.columnOutOfRange .witness 1 1),
        .constraint 0 1 0 (.ofCell (.relativeTo .witness 0 0)) (3 : Felt _).scalar,
        .cell 0 1 (.columnOutOfRange .witness 1 1),
        .copy ⟨⟨.witness, 0, 0, false⟩, ⟨.witness, 0, 1, false⟩⟩ 0 3,
        .copyCell ⟨⟨.witness, 4, 0, false⟩, ⟨.constant, 0, -1, false⟩⟩
          (.columnOutOfRange .witness 4 1)]
    unmet.violations .twoRows = .ok found ∧ ¬ unmet.MetBy .twoRows ∧
      Listed Place.Before (unmet.Violates .twoRows) found := by
  intro found
  have hfound : unmet.violations .twoRows = .ok found := by rfl
  obtain ⟨vs, hvs, hmet, hlisted⟩ := violations_exact (t := .twoRows) unmet
    (fun kind => by cases kind <;> decide) Nat.two_pos
  obtain rfl : found = vs := Except.ok.inj (hfound.symm.trans hvs)
  exact ⟨hvs, fun h => (nomatch hmet.mpr h), hlisted⟩

end Plonkish
