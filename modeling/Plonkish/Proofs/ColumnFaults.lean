import Plonkish.Proofs.Agreement
import Plonkish.Proofs.Lookups

/-!
# Proofs — what can go wrong over the columns

To compute a constraint over the columns of a table, the shifted columns are prepared from the list
of its different variables and read in the course of an evaluation.  What is read has been prepared
(`Expr.lookup_eq_of_shifted`), so the calls on columns fault in the ways of `Fault.OfColumns` only:
a size does not fit or is not right for a domain, or a column does not exist.

* `ColumnCall`: a call that answers or has such a fault.  `ColumnCall.bind` and the lemmas after it
  compose them, and each call on columns is one (`Poly.columnCall_mul`, `PointValues.columnCall_mul`
  and so on).
* `Expr.columnCall_polynomial` and `Expr.columnCall_pointValues`: constraints over the columns.
* `Expr.lookups_in_order`: the variables of an expression are looked up in the order in which they
  are listed, whatever the look-ups are and do.
-/

namespace Plonkish

variable {k : BaseField}

/-! ### Calls on columns -/

/-- The faults of calls on columns. -/
inductive Fault.OfColumns : Fault → Prop where
  | overflow : OfColumns .overflow
  | assertion : OfColumns .assertion
  | evaluations (count degree : Nat) : OfColumns (.evaluations count degree)
  | resize (degree points : Nat) : OfColumns (.resize degree points)
  | domainMultiple (points domain : Nat) : OfColumns (.domainMultiple points domain)
  | domainHeight : OfColumns .domainHeight
  | column (kind : ColumnKind) (index available : Nat) :
    OfColumns (.table (.columnOutOfRange kind index available))

/-- A call that answers, or faults as calls on columns do. -/
inductive ColumnCall {α : Type} : Except Fault α → Prop where
  | ok (a : α) : ColumnCall (.ok a)
  | error {f : Fault} (h : f.OfColumns) : ColumnCall (.error f)

namespace ColumnCall

variable {α β : Type} {x : Except Fault α} {f : α → Except Fault β}

/-- Of two calls one after the other, the second one matters only for answers of the first. -/
theorem bind_of_ok (hx : ColumnCall x) (hf : ∀ a, x = .ok a → ColumnCall (f a)) :
    ColumnCall (x >>= f) := by
  cases hx with
  | ok a => exact hf a rfl
  | error h => exact .error h

/-- Two calls on columns are one. -/
theorem bind (hx : ColumnCall x) (hf : ∀ a, ColumnCall (f a)) : ColumnCall (x >>= f) :=
  hx.bind_of_ok fun a _ => hf a

theorem map (hx : ColumnCall x) (g : α → β) : ColumnCall (do return g (← x)) :=
  hx.bind fun a => .ok (g a)

/-- Calls on columns for the entries of a list are one. -/
theorem mapM {l : List α} (hf : ∀ a, ColumnCall (f a)) : ColumnCall (l.mapM f) := by
  induction l with
  | nil => exact .ok []
  | cons a l ih =>
      rw [List.mapM_cons]
      exact (hf a).bind fun b => ih.map (b :: ·)

/-- So are those for the four regions. -/
theorem regions {r : Regions α} (hf : ∀ a, ColumnCall (f a)) : ColumnCall (r.mapM f) :=
  (hf _).bind fun _ => (hf _).bind fun _ => (hf _).bind fun _ => (hf _).map _

/-- A call on columns finds the shifted columns that it asks for. -/
theorem ne_missingShift (hx : ColumnCall x) (v : Variable) : x ≠ .error (.missingShift v) := by
  rintro rfl
  cases hx with
  | error h => cases h

end ColumnCall

/-! ### Counts -/

namespace Count

/-- A count that does not fit overflows. -/
theorem columnCall_check (n : Nat) : ColumnCall (check n) := by
  unfold check
  split
  · exact .ok n
  · exact .error .overflow

/-- So does memory that cannot be had. -/
theorem columnCall_entries (bytes n : Nat) : ColumnCall (entries bytes n) := by
  unfold entries
  split
  · exact .ok n
  · exact .error .overflow

end Count

theorem Domain.columnCall_ofLength (n : Nat) : ColumnCall (ofLength k n) := by
  unfold ofLength
  cases ofSize k n with
  | ok d => exact .ok d
  | error f => exact .error .assertion

/-! ### Point values -/

namespace PointValues

theorem columnCall_checkSize (degree size : Nat) : ColumnCall (checkSize degree size) := by
  unfold checkSize
  split
  · exact .ok ()
  · exact .error (.evaluations size degree)

/-- Values may have a size that is not a power of two, or does not hold the degree. -/
theorem columnCall_ofValues (degree : Nat) (values : List (Felt k)) :
    ColumnCall (ofValues degree values) :=
  (columnCall_checkSize degree values.length).map _

theorem columnCall_ofCoefficients (coeffs : List (Felt k)) : ColumnCall (ofCoefficients coeffs) :=
  (Count.columnCall_check _).bind fun size => (Domain.columnCall_ofLength size).map _

theorem columnCall_constant (c : Felt k) (size : Nat) : ColumnCall (constant c size) :=
  (Count.columnCall_entries _ size).bind fun held => (columnCall_checkSize 0 held).map _

/-- Taking values apart asks for a domain of their size. -/
theorem columnCall_coefficients (p : PointValues k) : ColumnCall p.coefficients :=
  (Domain.columnCall_ofLength p.size).bind fun _ => (Count.columnCall_check _).map _

/-- A resize may ask for fewer points than there are coefficients. -/
theorem columnCall_resize (p : PointValues k) (points : Nat) : ColumnCall (p.resize points) := by
  unfold resize
  split
  · exact .ok p
  · split
    · exact p.columnCall_coefficients.bind fun _ => (Count.columnCall_entries _ points).bind
        fun held =>
        (Domain.columnCall_ofLength held).map _
    · exact .error (.resize p.degree points)

/-- A sum resizes both operands first. -/
theorem columnCall_combine (f : Felt k → Felt k → Felt k) (degree : Nat) (p q : PointValues k) :
    ColumnCall (combine f degree p q) :=
  (Count.columnCall_check _).bind fun _ => (Count.columnCall_check _).bind fun _ =>
    (p.columnCall_resize _).bind fun _ => (q.columnCall_resize _).map _

/-- A product resizes both operands to the size that its degree asks for. -/
theorem columnCall_mul (p q : PointValues k) : ColumnCall (p.mul q) :=
  (Count.columnCall_check _).bind fun degree => columnCall_combine _ degree p q

theorem columnCall_pow (p : PointValues k) (n : Nat) : ColumnCall (p.pow n) :=
  (Count.columnCall_check _).bind fun _ => (Count.columnCall_check _).bind fun _ =>
    (Count.columnCall_check _).bind fun _ => (p.columnCall_resize _).map _

/-- A rotation asks for a size that is a multiple of the domain. -/
theorem columnCall_rotated (p : PointValues k) (rotation : Int) (domain : Nat) :
    ColumnCall (p.rotated rotation domain) := by
  unfold rotated
  split
  · split
    · exact .error .overflow
    · exact .ok _
  · exact .error (.domainMultiple p.size domain)

/-- The operations on polynomials in point-value form. -/
theorem columnCall_algebra :
    (PointValues.algebra k).Related (fun x _ => ColumnCall x) (PointValues.algebra k) where
  constant c := columnCall_constant c.felt 1
  sum hx hy := hx.bind fun p => hy.bind fun q => columnCall_combine _ _ p q
  difference hx hy := hx.bind fun p => hy.bind fun q => columnCall_combine _ _ p q
  product hx hy := hx.bind fun p => hy.bind fun q => p.columnCall_mul q
  scaled c hx := hx.map (·.scale c.felt)
  power n hx := hx.bind fun p => p.columnCall_pow n

end PointValues

/-! ### Coefficients -/

namespace Poly

/-- No values at all make the zero polynomial. -/
theorem columnCall_interpolate (values : List (Felt k)) : ColumnCall (interpolate values) := by
  unfold interpolate
  split
  · exact .ok zero
  · exact (PointValues.columnCall_ofValues _ values).bind PointValues.columnCall_coefficients

/-- A short product is formed without a transform. -/
theorem columnCall_mul (p q : Poly k) : ColumnCall (p.mul q) := by
  unfold mul
  dsimp only
  split
  · exact .ok zero
  · split
    · exact .ok _
    · exact (PointValues.columnCall_ofCoefficients _).bind fun a =>
        (PointValues.columnCall_ofCoefficients _).bind fun b =>
          (a.columnCall_mul b).bind fun product => product.columnCall_coefficients.map _

/-- A power is made of products. -/
theorem columnCall_powDigits (digits : Nat) (acc base : Poly k) (n : Nat) :
    ColumnCall (powDigits digits acc base n) := by
  induction digits generalizing acc base n with
  | zero => exact .ok acc
  | succ digits ih =>
      have hacc : ColumnCall (if n % 2 = 1 then acc.mul base else .ok acc) := by
        split
        · exact acc.columnCall_mul base
        · exact .ok acc
      rw [powDigits_succ]
      refine hacc.bind fun acc => ?_
      split
      · exact .ok acc
      · exact (base.columnCall_mul base).bind fun square => ih acc square (n / 2)

/-- The operations on polynomials in coefficient form. -/
theorem columnCall_algebra :
    (Poly.algebra k).Related (fun x _ => ColumnCall x) (Poly.algebra k) where
  constant c := ColumnCall.ok (Poly.constant c.felt)
  sum hx hy := hx.bind fun p => hy.map (p + ·)
  difference hx hy := hx.bind fun p => hy.map (p - ·)
  product hx hy := hx.bind fun p => hy.bind fun q => p.columnCall_mul q
  scaled c hx := hx.map (·.scale c.felt)
  power n hx := hx.bind fun p => columnCall_powDigits _ _ p n

end Poly

/-! ### Columns -/

/-- The columns of a matrix may not fit into memory. -/
theorem Matrix.columnCall_columns (m : Matrix k) : ColumnCall m.columns :=
  (Count.columnCall_entries _ m.width).map _

namespace PolyColumns

variable {P : Type} {t : PolyColumns P}

/-- A column that is missing is an index out of range. -/
theorem columnCall_column (t : PolyColumns P) (kind : ColumnKind) (index : Nat) :
    ColumnCall (t.column kind index) := by
  unfold column
  dsimp only
  split
  · exact .ok _
  · exact .error (.column kind index _)

/-- A variable asks for its column, shifted if it is rotated. -/
theorem columnCall_value (hshift : ∀ rotation p, ColumnCall (t.shift rotation p)) (v : Variable) :
    ColumnCall (t.value v) := by
  refine (t.columnCall_column v.kind v.index.toNat).bind fun p => ?_
  split
  · exact .ok p
  · exact hshift _ p

/-- The shifted columns of a constraint are prepared one after the other. -/
theorem columnCall_shifted (hshift : ∀ rotation p, ColumnCall (t.shift rotation p))
    (vars : List Variable) : ColumnCall (t.shifted vars) :=
  .mapM fun v => (columnCall_value hshift v).map _

end PolyColumns

namespace Table

variable {t : Table k} {d : Domain k}

/-- Interpolating a table asks for a domain of its height. -/
theorem columnCall_interpolated (t : Table k) (d : Domain k) : ColumnCall (t.interpolated d) := by
  unfold interpolated
  split
  · exact .error .domainHeight
  · exact (ColumnCall.regions fun m => m.columnCall_columns.bind fun _ =>
      .mapM Poly.columnCall_interpolate).map _

/-- Columns that were interpolated have been made for the domain that they are rotated over. -/
theorem columnCall_shift_interpolated {cols : PolyColumns (Poly k)}
    (h : t.interpolated d = .ok cols)
    (rotation : Int) (p : Poly k) : ColumnCall (cols.shift rotation p) := by
  unfold interpolated at h
  split at h
  · cases h
  · obtain ⟨_, -, rfl⟩ := bind_pure_eq_ok.mp h
    exact .ok _

/-- In point-value form, columns are checked for their size only. -/
theorem columnCall_pointValues (t : Table k) : ColumnCall t.pointValues := by
  refine (ColumnCall.regions fun m => m.columnCall_columns.bind fun _ =>
    .mapM fun values => ?_).map _
  split
  · exact .error .overflow
  · exact PointValues.columnCall_ofValues _ values

theorem columnCall_shift_pointValues {cols : PolyColumns (PointValues k)}
    (h : t.pointValues = .ok cols) (rotation : Int) (p : PointValues k) :
    ColumnCall (cols.shift rotation p) := by
  obtain ⟨_, -, rfl⟩ := bind_pure_eq_ok.mp h
  exact p.columnCall_rotated rotation t.rows

end Table

/-! ### Constraints -/

namespace Expr

variable {P : Type} {cols : PolyColumns P}

/-- The look-ups of an evaluation over the columns find what has been prepared. -/
theorem lookup_eq_of_shifted {e : Expr k} {prepared : List (Variable × P)}
    (h : cols.shifted e.distinctVariables = .ok prepared) {v : Variable} (hv : v ∈ e.occurrences) :
    cols.lookup prepared v = cols.value v :=
  PolyColumns.lookup_eq h (mem_distinctVariables.mpr hv)

/-- An expression is evaluated over columns by calls on columns. -/
theorem columnCall_overColumns (e : Expr k) {A : Algebra k (Except Fault P)}
    (hA : A.Related (fun x _ => ColumnCall x) A)
    (hshift : ∀ rotation p, ColumnCall (cols.shift rotation p)) :
    ColumnCall (e.overColumns A cols) := by
  rw [overColumns_eq]
  refine (PolyColumns.columnCall_shifted hshift _).bind fun _ => ?_
  exact @valueOf_related k _ _ _ A A hA cols.value cols.value e fun v _ =>
    PolyColumns.columnCall_value hshift v

/-- **Constraints in coefficient form** fault as calls on columns do. -/
theorem columnCall_polynomial (e : Expr k) (t : Table k) (d : Domain k) :
    ColumnCall (do e.polynomial (← t.interpolated d)) :=
  (t.columnCall_interpolated d).bind_of_ok fun _ h =>
    e.columnCall_overColumns Poly.columnCall_algebra (Table.columnCall_shift_interpolated h)

/-- **Constraints in point-value form** fault as calls on columns do. -/
theorem columnCall_pointValues (e : Expr k) (t : Table k) :
    ColumnCall (do e.pointValues (← t.pointValues)) :=
  t.columnCall_pointValues.bind_of_ok fun _ h =>
    e.columnCall_overColumns PointValues.columnCall_algebra (Table.columnCall_shift_pointValues h)

/-- **Variables are looked up in order.**  An evaluation looks up the occurrences of variables as
they are listed, each once, whatever values it computes and whatever a look-up does.  If look-ups
may fail, it stops at the first that does and ends with its error.  So a map that lacks a variable
is told the first one that it lacks, and the columns that are prepared are all that an evaluation
over the columns of a table asks for. -/
theorem lookups_in_order (e : Expr k) :
    (∀ (T : Type) (m : Type → Type) [Monad m] [LawfulMonad m] (A : Algebra k T)
      (look : Variable → m T), e.evaluate A look = e.combine A <$> e.occurrences.mapM look) ∧
    (∀ (T ε : Type) (A : Algebra k T) (look : Variable → Except ε T),
      (∃ x, (∀ v ∈ e.occurrences, ∃ y, look v = .ok y) ∧ e.evaluate A look = .ok x ∧
        (e.evaluate A (recorded look)).run.run [] = (.ok x, e.occurrences)) ∨
      ∃ before v err, FirstFailure look e.occurrences before v err ∧
        e.evaluate A look = .error err ∧
        (e.evaluate A (recorded look)).run.run [] = (.error err, before ++ [v])) ∧
    (∀ map : EvaluationMap k,
      ((∃ v, e.valueIn map = .error v) ↔ ∃ v ∈ e.distinctVariables, v ∉ map) ∧
      ∀ v, e.valueIn map = .error v ↔
        ∃ before, before ++ [v] <+: e.occurrences ∧ (∀ u ∈ before, u ∈ map) ∧ v ∉ map) ∧
    (∀ (P : Type) (cols : PolyColumns P) (prepared : List (Variable × P)),
      cols.shifted e.distinctVariables = .ok prepared →
        ∀ v ∈ e.occurrences, cols.lookup prepared v = cols.value v) ∧
    ∀ (t : Table k) (v : Variable),
      (∀ d, (do e.polynomial (← t.interpolated d)) ≠ .error (.missingShift v)) ∧
      (do e.pointValues (← t.pointValues)) ≠ .error (.missingShift v) := by
  refine ⟨fun T m _ _ A look => e.evaluate_eq_mapM A look,
    fun T ε A look => e.evaluate_recorded_cases A look, fun map => ?_,
    fun P cols prepared h v hv => lookup_eq_of_shifted h hv, fun t v => ⟨fun d => ?_, ?_⟩⟩
  · exact ⟨exists_valueIn_eq_error_iff, fun v => valueIn_eq_error⟩
  · exact (e.columnCall_polynomial t d).ne_missingShift v
  · exact (e.columnCall_pointValues t).ne_missingShift v

/-- A map that lacks the second of two variables is told so, and the shifted columns of a table are
all found. -/
theorem lookups_in_order_squares :
    (∀ look : Variable → Option (Felt .babyBear), squares.evaluate (.field _) look =
      squares.combine (.field _) <$> squares.occurrences.mapM look) ∧
    squares.valueIn (.ofList [(⟨.witness, 0, 0, true⟩, 3)]) = .error ⟨.witness, 0, 1, true⟩ ∧
    ∃ cols prepared, Table.squares.pointValues = .ok cols ∧
      cols.shifted squares.distinctVariables = .ok prepared ∧ prepared.length = 1 ∧
      ∀ v ∈ squares.occurrences, cols.lookup prepared v = cols.value v := by
  obtain ⟨hevaluate, -, hmap, hcols, -⟩ := lookups_in_order squares
  refine ⟨hevaluate _ Option _, ?_, _, _, rfl, rfl, rfl, hcols _ _ _ rfl⟩
  refine ((hmap _).2 _).mpr ⟨[⟨.witness, 0, 0, true⟩], List.prefix_rfl, ?_, ?_⟩
  · simp
  · simp

end Expr

end Plonkish
