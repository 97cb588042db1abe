import Plonkish.Proofs.Descriptions
import Plonkish.Proofs.Operators
import Plonkish.Proofs.StoredTexts

/-!
# Proofs — the round trip through JSON texts

Reading the text that is written for a value gives the value again.  For variables, terms and
polynomials this is so at once, since their texts open no more than four lists and objects inside
each other.  For an expression it depends on the number of levels of its text, which a reader
limits: `Hashed.Expr.ofJsonWithin_toJson` is what comes of an expression under any limit.

Terms and expressions come back with the digests they had.
-/

namespace Plonkish

open Json (Reads)

variable {k : BaseField} {D : Digesting k}

/-- A text that is written is read as what the reader makes of it. -/
theorem Json.read_written {α : Type} {r : Json.Reader α} {text : String} {x : Except Json.Problem α}
    (h : Reads r text.toList x) : Json.read r text = x :=
  Json.read_eq h Json.blank_nil Json.blank_nil (by simp)

theorem Variable.ofJson_toJson (v : Variable) : Variable.ofJson v.toJson = .ok v :=
  Json.read_written (Json.reads_variable v Json.depthLimit)

namespace Hashed

theorem Term.ofJson_toJson {t : Term k} (h : t.Fresh D) : Term.ofJson D t.toJson = .ok t := by
  obtain ⟨u, rfl⟩ := Term.fresh_iff.mp h
  have hlevels : (u.hashed D).stored.levels ≤ Json.depthLimit := by
    unfold Stored.Term.levels
    split <;> decide
  have hread := Json.read_written (Json.reads_term (u.hashed D).stored Json.depthLimit)
  rw [Json.within_of_le hlevels] at hread
  rw [Term.ofJson, Term.toJson, hread, ok_bind]
  exact congrArg (fun t : Plonkish.Term k => Except.ok (t.hashed D)) (Stored.Term.toTerm_stored u)

/-- **An expression under a limit** is read back with all its digests, unless its text has more
lists and objects open than the limit allows. -/
theorem Expr.ofJsonWithin_toJson {e : Expr k} (h : e.Fresh D) (limit : Nat) :
    Expr.ofJsonWithin D limit e.toJson =
      if e.stored.levels ≤ limit then .ok e else .error .malformed := by
  obtain ⟨a, rfl⟩ := Expr.fresh_iff.mp h
  have hread := Json.read_written (Json.reads_expr (a.hashed D).stored limit)
  rw [Expr.ofJsonWithin, Expr.toJson, hread]
  show (fun e : Stored.Expr k => e.toHashed D) <$> Json.within _ limit (a.hashed D).stored = _
  rw [Json.within_map, Plonkish.Expr.stored_hashed, Stored.Expr.toHashed_eq,
    Stored.Expr.toExpr_stored]
  rfl

end Hashed

namespace Stored

theorem listLevels_words_le (l : List (Word k)) (n : Nat) :
    Json.listLevels (Json.wordLevels k) l ≤ n + 2 := by
  have hword : Json.wordLevels k ≤ 1 := by cases k <;> decide
  unfold Json.listLevels
  split <;> omega

theorem Poly.ofJson_toJson (p : Poly k) : Poly.ofJson p.toJson = .ok p := by
  have hread := Json.read_written (Json.reads_poly p 126)
  rwa [Json.within_of_le (listLevels_words_le p.coeffs 124)] at hread

theorem PointValues.ofJson_toJson {p : PointValues k} (h : p.degree < 2 ^ 64) :
    PointValues.ofJson p.toJson = .ok p := by
  have hread := Json.read_written (Json.reads_pointValues h 126)
  rwa [Json.within_of_le (listLevels_words_le p.values 124)] at hread

end Stored

/-- **The round trip through JSON texts.**  Each value is read back from its text: variables, terms
and expressions with fresh digests, polynomials whose degree is a count, and valid descriptions of
counts. An expression is read back exactly if its text has no more lists and objects open than a
reader allows, and is refused as malformed otherwise. -/
theorem json_round_trip (k : BaseField) (D : Digesting k) :
    (∀ v : Variable, Variable.ofJson v.toJson = .ok v) ∧
    (∀ t : Hashed.Term k, t.Fresh D → Hashed.Term.ofJson D t.toJson = .ok t) ∧
    (∀ e : Hashed.Expr k, e.Fresh D →
      (Hashed.Expr.ofJson D e.toJson =
        if e.stored.levels ≤ Json.depthLimit then .ok e else .error .malformed) ∧
      ∀ limit, Hashed.Expr.ofJsonWithin D limit e.toJson =
        if e.stored.levels ≤ limit then .ok e else .error .malformed) ∧
    (∀ p : Stored.Poly k, Stored.Poly.ofJson p.toJson = .ok p) ∧
    (∀ p : Stored.PointValues k, p.degree < 2 ^ 64 → Stored.PointValues.ofJson p.toJson = .ok p) ∧
    ∀ d : Description, d.Counted → d.validate = .ok () → Description.ofJson d.toJson = .ok d := by
  refine ⟨Variable.ofJson_toJson, fun t => Hashed.Term.ofJson_toJson, fun e h => ⟨?_, ?_⟩,
    Stored.Poly.ofJson_toJson, fun p => Stored.PointValues.ofJson_toJson,
    fun d => Description.ofJson_toJson⟩
  · rw [Hashed.Expr.ofJson_eq]
    exact Hashed.Expr.ofJsonWithin_toJson h Json.depthLimit
  · exact Hashed.Expr.ofJsonWithin_toJson h

/-- A variable raised to the second power a number of times. -/
def Expr.tower (k : BaseField) : Nat → Expr k
  | 0 => .term (.ofVariable (.relativeTo .witness 0 0))
  | n + 1 => .pow (tower k n) 2

theorem Expr.levels_tower (n : Nat) : (tower k n).stored.levels = 2 * n + 4 := by
  induction n with
  | zero => rw [tower, stored, Stored.Expr.levels, Term.stored, Stored.Term.levels,
      Term.vars_ofVariable]; rfl
  | succ n ih => rw [tower, stored, Stored.Expr.levels, ih]; omega

/-- A text with sixty-one powers, and one of each other value. -/
theorem json_round_trip_tower :
    let D := Digesting.standard .goldilocks
    let t := (Term.ofVariable (.relativeTo .witness 0 0)).hashed D
    let e := (Expr.tower .goldilocks 61).hashed D
    let p : Stored.PointValues .goldilocks := ⟨1, [.ofBits 3, .ofBits 4]⟩
    let d : Description := ⟨⟨11, 1, 2, 0⟩, 5, 8⟩
    (t.Fresh D ∧ Hashed.Term.ofJson D t.toJson = .ok t) ∧
      (e.Fresh D ∧ Hashed.Expr.ofJson D e.toJson = .ok e) ∧
      (p.degree < 2 ^ 64 ∧ Stored.PointValues.ofJson p.toJson = .ok p) ∧
      d.Counted ∧ d.validate = .ok () ∧ Description.ofJson d.toJson = .ok d := by
  intro D t e p d
  have ht : t.Fresh D := Term.fresh_hashed D _
  have he : e.Fresh D := Expr.fresh_hashed D _
  have hlevels : e.stored.levels ≤ Json.depthLimit := by
    rw [Expr.stored_hashed, Expr.levels_tower]
    decide
  have hd : d.Counted ∧ d.validate = .ok () := by decide
  obtain ⟨-, hterm, hexpr, -, hpoint, hdescription⟩ := json_round_trip .goldilocks D
  have hread := (hexpr e he).1
  rw [if_pos hlevels] at hread
  exact ⟨⟨ht, hterm t ht⟩, ⟨he, hread⟩, ⟨by decide, hpoint p (by decide)⟩, hd.1, hd.2,
    hdescription d hd.1 hd.2⟩

/-- Sixty-two powers do not come back: their text has a level more than a reader allows. -/
theorem tower_not_read_back :
    let D := Digesting.standard .goldilocks
    let e := (Expr.tower .goldilocks 62).hashed D
    e.Fresh D ∧ Hashed.Expr.ofJson D e.toJson = .error .malformed := by
  intro D e
  have he : e.Fresh D := Expr.fresh_hashed D _
  have hlevels : ¬ e.stored.levels ≤ Json.depthLimit := by
    rw [Expr.stored_hashed, Expr.levels_tower]
    decide
  refine ⟨he, ?_⟩
  rw [Hashed.Expr.ofJson_eq, Hashed.Expr.ofJsonWithin_toJson he, if_neg hlevels]

end Plonkish
