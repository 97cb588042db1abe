import Plonkish.Json.Hashed
import Plonkish.Proofs.Records

/-!
# Proofs — the texts of stored values

Each stored value is read back from its text, wherever the text stands, if enough lists and objects
may be opened; where they may not, the text is malformed (`within`).

* `reads_word`, `reads_variable`, `reads_term`, `reads_poly`, `reads_pointValues`: records, field by
  field.
* `reads_list`: lists of such values.
* `reads_expr`: expressions, by induction on the tree.
-/

namespace Plonkish.Json

variable {α β : Type} {k : BaseField}

/-! ### Levels -/

/-- What comes of a text that has `levels` lists and objects open where `depth` may be. -/
def within (levels depth : Nat) (a : α) : Except Problem α :=
  if levels ≤ depth then .ok a else .error .malformed

@[simp] theorem within_of_le {levels depth : Nat} (h : levels ≤ depth) (a : α) :
    within levels depth a = .ok a := if_pos h

@[simp] theorem within_of_lt {levels depth : Nat} (h : depth < levels) (a : α) :
    within levels depth a = .error .malformed := if_neg (Nat.not_le.mpr h)

section Within

variable {m n depth : Nat} {a : α}

@[simp] theorem within_succ : within (n + 1) (depth + 1) a = within n depth a := by simp [within]

/-- What is made of a value that was read. -/
@[simp] theorem within_bind_ok (f : α → β) :
    (within n depth a >>= fun a => .ok (f a)) = within n depth (f a) := by
  unfold within
  split <;> rfl

/-- Two values that are read one after the other need the depth of the deeper one. -/
@[simp] theorem within_bind_within (f : α → β) :
    (within m depth a >>= fun a => within n depth (f a)) = within (max m n) depth (f a) := by
  by_cases hm : m ≤ depth
  · rw [within_of_le hm, ok_bind]
    by_cases hn : n ≤ depth
    · rw [within_of_le hn, within_of_le (max_le hm hn)]
    · have hmax : depth < max m n := (Nat.not_le.mp hn).trans_le (Nat.le_max_right m n)
      rw [within_of_lt (Nat.not_le.mp hn), within_of_lt hmax]
  · have hmax : depth < max m n := (Nat.not_le.mp hm).trans_le (Nat.le_max_left m n)
    rw [within_of_lt (Nat.not_le.mp hm), within_of_lt hmax]
    rfl

theorem within_map (f : α → β) : f <$> within n depth a = within n depth (f a) := by
  unfold within
  split <;> rfl

end Within

/-- The levels of a list, from those of its entries. -/
def listLevels (n : Nat) (l : List α) : Nat := if l = [] then 1 else n + 1

theorem mapM_within (n depth : Nat) (l : List α) :
    l.mapM (within n depth) = within (listLevels n l) (depth + 1) l := by
  induction l with
  | nil => rfl
  | cons a l ih =>
      rw [List.mapM_cons, ih]
      by_cases h : n ≤ depth
      · have hlist : listLevels n l ≤ depth + 1 := by unfold listLevels; split <;> omega
        have hcons : listLevels n (a :: l) ≤ depth + 1 := by simpa [listLevels] using h
        rw [within_of_le h, within_of_le hlist, within_of_le hcons]
        rfl
      · have hcons : depth + 1 < listLevels n (a :: l) := by simpa [listLevels] using h
        rw [within_of_lt (Nat.not_le.mp h), within_of_lt hcons]
        rfl

/-- **A list** is read back, if its entries are. -/
theorem reads_list {item : Nat → Reader α} {text : α → String} {n : Nat}
    (hstart : ∀ a, Starts (text a).toList)
    (h : ∀ a depth, Reads (item depth) (text a).toList (within n depth a)) (l : List α)
    (depth : Nat) :
    Reads (listOf depth (item (depth - 1))) (listText (l.map text)).toList
      (within (listLevels n l) depth l) := by
  rw [toList_listText, List.map_map]
  cases depth with
  | zero =>
      rw [within_of_lt (by unfold listLevels; split <;> omega)]
      exact reads_listOf_zero _
  | succ depth =>
      rw [← mapM_within]
      exact reads_listOf (fun a _ => hstart a) (fun a _ => h a depth) depth

/-! ### Records -/

section Records

/-- The levels of a word. -/
def wordLevels : BaseField → Nat
  | .goldilocks => 1
  | .babyBear => 0

theorem ofBits_bits (w : Word k) : Word.ofBits w.bits = w := Word.ext (Nat.mod_eq_of_lt w.bits_lt)

/-- **A word** is read back from its text. -/
theorem reads_word (w : Word k) (depth : Nat) :
    Reads (readWord k depth) (wordText w).toList (within (wordLevels k) depth w) := by
  cases k with
  | babyBear =>
      have hbits : Reads (unsigned 32) (toString w.bits).toList (.ok w.bits) :=
        reads_unsigned (by decide) w.bits_lt
      have h := hbits.map (Word.ofBits (k := .babyBear))
      rwa [Except.map_ok, ofBits_bits] at h
  | goldilocks =>
      cases depth with
      | zero => exact reads_record_zero _
      | succ depth =>
          have hbits : Reads (unsigned 64) (toString w.bits).toList (.ok w.bits) :=
            reads_unsigned le_rfl w.bits_lt
          have h := reads_parts [.of "value" (fun n _ => .ofBits n) hbits] (by simp)
            depth (0 : Word .goldilocks)
          simpa [readWord, wordText, ofBits_bits, wordLevels] using h

/-- **A variable** is read back from its text. -/
theorem reads_variable (v : Variable) (depth : Nat) :
    Reads (readVariable depth) (variableText v).toList (within 1 depth v) := by
  cases depth with
  | zero => exact reads_record_zero _
  | succ depth =>
      have hkind : Reads (choice depth kindOfName?) (quoted v.kind.name).toList (.ok v.kind) :=
        reads_name (by cases v.kind <;> decide) (by cases v.kind <;> rfl) depth
      have hindex : Reads (unsigned 32) (toString v.index.toNat).toList (.ok v.index.toNat) :=
        reads_unsigned (by decide) v.index.toNat_lt
      have hrotation : Reads (integer (-0x80000000) 0x80000000) (toString v.rotation.toInt).toList
          (.ok v.rotation.toInt) := by
        have hlow := v.rotation.le_toInt
        have hhigh := v.rotation.toInt_lt
        exact reads_integer ⟨by omega, by omega⟩ ⟨by omega, by omega⟩
      have h := reads_parts
        [.of "column_type" (fun kind v => { v with kind }) hkind,
          .of "index" (fun n v => { v with index := UInt32.ofNat n }) hindex,
          .of "rotation" (fun r v => { v with rotation := Int32.ofInt r }) hrotation,
          .of "relative" (fun relative v => { v with relative }) (reads_boolean v.relative)]
        (by simp) depth (⟨.witness, 0, 0, true⟩ : Variable)
      simpa [readVariable, variableText] using h

/-- The text of a record is no end of a list. -/
theorem starts_objectText (members : List (String × String)) :
    Starts (objectText members).toList := by
  rw [toList_objectText]
  exact ⟨'\x7b', _, rfl, rfl, by decide⟩

theorem starts_digits (n : Nat) : Starts (toString n).toList := by
  obtain ⟨c, more, h, hstart, hblank⟩ := exists_startsNumber n
  refine ⟨c, more, h, hblank, ?_⟩
  rintro rfl
  exact absurd hstart (by decide)

theorem starts_variableText (v : Variable) : Starts (variableText v).toList := starts_objectText _

theorem starts_wordText (w : Word k) : Starts (wordText w).toList := by
  cases k with
  | goldilocks => exact starts_objectText _
  | babyBear => exact starts_digits w.bits

theorem wordLevels_le_listLevels (n : Nat) (l : List α) : wordLevels k ≤ listLevels n l := by
  unfold listLevels
  cases k <;> simp only [wordLevels] <;> split <;> omega

theorem levels_term (t : Stored.Term k) : t.levels = listLevels 1 t.vars + 1 := by
  unfold Stored.Term.levels listLevels
  split <;> rfl

/-- **A term** is read back from its text. -/
theorem reads_term (t : Stored.Term k) (depth : Nat) :
    Reads (readTerm depth) (termText t).toList (within t.levels depth t) := by
  rw [levels_term]
  cases depth with
  | zero => exact (reads_record_zero _).of_eq (within_of_lt (Nat.succ_pos _) t).symm
  | succ depth =>
      have h := reads_parts
        [.of "coeff" (fun coeff t => { t with coeff }) (reads_word t.coeff depth),
          .of "vars" (fun vars t => { t with vars })
            (reads_list starts_variableText reads_variable t.vars depth)]
        (by simp) depth (⟨0, []⟩ : Stored.Term k)
      rw [within_succ, ← max_eq_right (wordLevels_le_listLevels (k := k) 1 t.vars)]
      simpa [readTerm, termText] using h

/-- **A polynomial** is read back from its text. -/
theorem reads_poly (p : Stored.Poly k) (depth : Nat) :
    Reads (readPoly (depth + 1)) (polyText p).toList
      (within (listLevels (wordLevels k) p.coeffs) depth p) := by
  have h := reads_parts
    [.of "coeffs" (fun coeffs _ => ⟨coeffs⟩) (reads_list starts_wordText reads_word p.coeffs depth)]
    (by simp) depth (⟨[]⟩ : Stored.Poly k)
  simpa [readPoly, polyText] using h

/-- **A polynomial in point-value form** is read back from its text. -/
theorem reads_pointValues {p : Stored.PointValues k} (hdegree : p.degree < 2 ^ 64) (depth : Nat) :
    Reads (readPointValues (depth + 1)) (pointValuesText p).toList
      (within (listLevels (wordLevels k) p.values) depth p) := by
  have h := reads_parts
    [.of "degree" (fun degree p => { p with degree }) (reads_unsigned le_rfl hdegree),
      .of "values" (fun values p => { p with values })
        (reads_list starts_wordText reads_word p.values depth)]
    (by simp) depth (⟨0, []⟩ : Stored.PointValues k)
  simpa [readPointValues, pointValuesText] using h

end Records

/-! ### Expressions -/

theorem starts_exprText (e : Stored.Expr k) : Starts (exprText e).toList := by
  cases e <;> exact starts_objectText _

/-- The text of a variant is its name, a colon and what it holds, between braces. -/
theorem toList_variantText (name value : String) : (objectText [(name, value)]).toList =
    '\x7b' :: ((quoted name).toList ++ ':' :: (value.toList ++ ['\x7d'])) := by
  simp [toList_objectText, joined]

/-- Whatever the depth, the outermost form is read in the same way. -/
theorem exists_readExpr (depth : Nat) : ∃ part, readExpr (k := k) depth = readExprOf depth part :=
  match depth with
  | 0 | 1 => ⟨_, rfl⟩
  | depth + 2 => ⟨readExpr depth, rfl⟩

theorem plain_name (f : ExprForm) : Plain f.name := by cases f <;> decide

theorem ofName?_name (f : ExprForm) : ExprForm.ofName? f.name = some f := by cases f <;> rfl

/-- The two forms that hold a list need two levels. -/
theorem reads_parts_of_le_one {f : ExprForm} {items : List String} (hf : f ≠ .term) {depth : Nat}
    (hdepth : depth ≤ 1) :
    Reads (readExpr (k := k) depth) (objectText [(f.name, listText items)]).toList
      (.error .malformed) := by
  rw [toList_variantText, toList_listText]
  obtain ⟨part, hpart⟩ := exists_readExpr (k := k) depth
  rw [hpart]
  match depth, hdepth with
  | 0, _ => exact reads_variant_zero _
  | 1, _ =>
      refine reads_variant (plain_name f) (ofName?_name f) ?_ 0
      cases f with
      | term => exact absurd rfl hf
      | pow => exact reads_bracketed_zero _
      | binop => exact reads_bracketed_zero _

section Parts

variable {base lhs rhs : Stored.Expr k} {depth : Nat}

/-- The power of an expression that is read back. -/
theorem reads_pow (power : UInt32)
    (h : Reads (readExpr depth) (exprText base).toList (within base.levels depth base)) :
    Reads (do
        let base ← entry true (readExpr depth)
        let power ← entry false (unsigned 32)
        return Stored.Expr.pow base (UInt32.ofNat power))
      ((exprText base).toList ++ ',' :: (toString power.toNat).toList)
      (within base.levels depth (.pow base power)) := by
  have hpower : Reads (unsigned 32) (toString power.toNat).toList (.ok power.toNat) :=
    reads_unsigned (by decide) power.toNat_lt
  refine (Reads.bind (reads_entry_first (starts_exprText base) h) rfl fun a _ =>
    Reads.map (reads_entry (starts_digits power.toNat) hpower)
      fun n => Stored.Expr.pow a (UInt32.ofNat n)).of_eq ?_
  simp

/-- The operation on two expressions that are read back. -/
theorem reads_binop (op : Operator)
    (hl : Reads (readExpr depth) (exprText lhs).toList (within lhs.levels depth lhs))
    (hr : Reads (readExpr depth) (exprText rhs).toList (within rhs.levels depth rhs)) :
    Reads (do
        let lhs ← entry true (readExpr depth)
        let rhs ← entry false (readExpr depth)
        let op ← entry false (choice depth operatorOfName?)
        return Stored.Expr.binop lhs rhs op)
      ((exprText lhs).toList ++ ',' ::
        ((exprText rhs).toList ++ ',' :: (quoted (operatorName op)).toList))
      (within (max lhs.levels rhs.levels) depth (.binop lhs rhs op)) := by
  have hop : Reads (choice depth operatorOfName?) (quoted (operatorName op)).toList (.ok op) :=
    reads_name (by cases op <;> decide) (by cases op <;> rfl) depth
  have hstart : Starts (quoted (operatorName op)).toList := by
    rw [toList_quoted]
    exact ⟨'"', _, rfl, rfl, by decide⟩
  refine (Reads.bind (reads_entry_first (starts_exprText lhs) hl) rfl fun a _ =>
    Reads.bind (reads_entry (starts_exprText rhs) hr) rfl fun b _ =>
      Reads.map (reads_entry hstart hop) fun op => Stored.Expr.binop a b op).of_eq ?_
  simp

end Parts

/-- **An expression** is read back from its text, if enough lists and objects may be opened. -/
theorem reads_expr (e : Stored.Expr k) (depth : Nat) :
    Reads (readExpr depth) (exprText e).toList (within e.levels depth e) := by
  induction e generalizing depth with
  | term t =>
      rw [exprText, toList_variantText]
      obtain ⟨part, hpart⟩ := exists_readExpr (k := k) depth
      rw [hpart]
      cases depth with
      | zero => exact reads_variant_zero _
      | succ depth =>
          have h := Reads.map (reads_term t depth) Stored.Expr.term
          refine (reads_variant (plain_name .term) (ofName?_name .term) h depth).of_eq ?_
          rw [Stored.Expr.levels, within_succ, within_map]
  | pow base power ih =>
      rcases depth with _ | _ | depth
      · exact reads_parts_of_le_one (f := .pow) (by simp) (by simp)
      · exact reads_parts_of_le_one (f := .pow) (by simp) (by simp)
      · have htext : (listText [exprText base, toString power.toNat]).toList =
            '[' :: (((exprText base).toList ++ ',' :: (toString power.toNat).toList) ++ [']']) := by
          simp [toList_listText, joined]
        rw [exprText, toList_variantText, htext, Stored.Expr.levels, within_succ, within_succ]
        exact reads_variant (plain_name .pow) (ofName?_name .pow)
          (reads_bracketed (reads_pow power (ih depth)) depth) (depth + 1)
  | binop lhs rhs op ihl ihr =>
      rcases depth with _ | _ | depth
      · exact reads_parts_of_le_one (f := .binop) (by simp) (by simp)
      · exact reads_parts_of_le_one (f := .binop) (by simp) (by simp)
      · have htext : (listText [exprText lhs, exprText rhs, quoted (operatorName op)]).toList =
            '[' :: (((exprText lhs).toList ++
              ',' :: ((exprText rhs).toList ++ ',' :: (quoted (operatorName op)).toList)) ++
                [']']) := by
          simp [toList_listText, joined]
        rw [exprText, toList_variantText, htext, Stored.Expr.levels, within_succ, within_succ]
        exact reads_variant (plain_name .binop) (ofName?_name .binop)
          (reads_bracketed (reads_binop op (ihl depth) (ihr depth)) depth) (depth + 1)

end Plonkish.Json
