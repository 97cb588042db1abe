import Plonkish.Expr.Basic
import Plonkish.Fault

/-!
# Gadgets — points of a curve

On a curve `y ^ 2 = x ^ 3 + b`, with `(0, 0)` for the point at infinity, `Point.add` is the sum of
two points.  It does not need `b`; two points with the same `x` that are neither equal nor opposite
do not lie on one curve and have no sum.  `Point.sums` adds the points of a list one after the
other, and `Point.sumsRepeated` goes through the list several times, without writing the repetition
down (`sumsRepeated_eq`).

The gadget takes one row of eleven witness columns: the coordinates of the two points and of their
sum, then the inverses of `P.x`, `Q.x`, `Q.x - P.x` and `Q.y + P.y`, and the slope of the line
through the points.  An inverse of zero is written as zero.  `Point.constraints` tie the columns
together.
-/

namespace Plonkish

/-- A point in the plane; the origin stands for the point at infinity. -/
structure Point (k : BaseField) where
  /-- The first coordinate. -/
  x : Felt k
  /-- The second coordinate. -/
  y : Felt k
deriving DecidableEq, Repr

namespace Point

variable {k : BaseField}

/-- The point at infinity. -/
def infinity : Point k := ⟨0, 0⟩

/-- The slope of the tangent at a point, which must not be vertical. -/
def tangent (p : Point k) : Except Fault (Felt k) :=
  Felt.div (Felt.ofNat 3 * p.x.square) (p.y + p.y)

/-- The slope of the line through two finite points that are not opposite, if there is one. -/
def slope (p q : Point k) : Except Fault (Option (Felt k)) :=
  if p.x ≠ q.x then return some (← Felt.div (q.y - p.y) (q.x - p.x))
  else if p.y = q.y then return some (← p.tangent)
  else return none

/-- The sum of two points, if there is one. -/
def add (p q : Point k) : Except Fault (Option (Point k)) :=
  if p = infinity then .ok (some q)
  else if q = infinity then .ok (some p)
  else if p.x = q.x ∧ p.y = -q.y then .ok (some infinity)
  else do
    match ← p.slope q with
    | none => return none
    | some slope =>
      let x := slope.square - p.x - q.x
      return some ⟨x, slope * (p.x - x) - p.y⟩

/-- The sums of a point and the points of a list, added one after the other, up to the first that
does not exist. -/
def sums (p : Point k) : List (Point k) → List (Except Fault (Option (Point k)))
  | [] => []
  | q :: points =>
    match p.add q with
    | .ok (some r) => .ok (some r) :: sums r points
    | failed => [failed]

/-- The sums of a point and the points of a list that is gone through a number of times, up to the
first that does not exist. -/
def sumsRepeated (points : List (Point k)) :
    Nat → Point k → List (Except Fault (Option (Point k)))
  | 0, _ => []
  | times + 1, p =>
    let sums := p.sums points
    match sums.getLast? with
    | some (.ok (some r)) => sums ++ sumsRepeated points times r
    | _ => sums

theorem sums_eq_nil {p : Point k} {l : List (Point k)} : p.sums l = [] ↔ l = [] := by
  cases l with
  | nil => exact iff_of_true rfl rfl
  | cons q l =>
    refine iff_of_false ?_ (List.cons_ne_nil q l)
    rw [sums]
    split <;> exact List.cons_ne_nil _ _

/-- Adding goes on from the last sum, if there is one. -/
theorem sums_append (p : Point k) (l l' : List (Point k)) :
    p.sums (l ++ l') = match (p.sums l).getLastD (.ok (some p)) with
      | .ok (some r) => p.sums l ++ r.sums l'
      | _ => p.sums l := by
  induction l generalizing p with
  | nil => rfl
  | cons q l ih =>
    simp only [List.cons_append, sums]
    split
    · next r _ =>
      rw [ih, List.getLastD_cons]
      split <;> rfl
    · next hq =>
      rcases h : p.add q with f | _ | r
      · rfl
      · rfl
      · exact absurd h (hq r)

/-- Going through a list a number of times is going through its repetition. -/
theorem sumsRepeated_eq (points : List (Point k)) (times : Nat) (p : Point k) :
    sumsRepeated points times p = p.sums (List.replicate times points).flatten := by
  induction times generalizing p with
  | zero => rfl
  | succ times ih =>
    rw [List.replicate_succ, List.flatten_cons, sums_append, sumsRepeated,
      List.getLastD_eq_getLast?]
    rcases h : (p.sums points).getLast? with _ | f | _ | r
    · have hnil : points = [] := sums_eq_nil.mp (List.getLast?_eq_none_iff.mp h)
      simp [hnil, sums]
    · rfl
    · rfl
    · simp only [Option.getD_some, ih]

/-- The inverse of `Q.x - P.x`, the inverse of `Q.y + P.y` and the slope. -/
def auxiliary (p q : Point k) : Except Fault (Felt k × Felt k × Felt k) :=
  if p.x ≠ q.x then
    let inverse := (q.x - p.x).inverse
    return (inverse, 0, (q.y - p.y) * inverse)
  else do
    let slope ← if p.y ≠ 0 then p.tangent else .ok 0
    return (0, (q.y + p.y).inverse, slope)

/-- The cells of a row, given the points and their sum. -/
def cells (p q r : Point k) : Except Fault (List (Felt k)) := do
  let (inverseX, inverseY, slope) ← auxiliary p q
  return [p.x, p.y, q.x, q.y, r.x, r.y, p.x.inverse, q.x.inverse, inverseX, inverseY, slope]

/-- The number of witness columns. -/
def width : Nat := 11

/-- The equations between the columns. -/
def constraints (w : Nat → Expr k) : List (Expr k) :=
  let (x₀, y₀, x₁, y₁, x₂, y₂) := (w 0, w 1, w 2, w 3, w 4, w 5)
  let slope := w 10
  let one : Expr k := .constant 1
  let dx := x₁ - x₀
  let distinct := x₀ * x₁ * x₁ - x₀ * x₁ * x₀
  let notOpposite := x₀ * x₁ * y₁ + x₀ * x₁ * y₀
  let xSum := slope * slope - x₀ - x₁ - x₂
  let ySum := slope * (x₀ - x₂) - y₀ - y₂
  let firstInfinite := one - x₀ * w 6
  let secondInfinite := one - x₁ * w 7
  let opposite := one - dx * w 8 - (y₁ + y₀) * w 9
  [dx * (dx * slope - (y₁ - y₀)),
    (one - dx * w 8) * (.constant (.ofNat 2) * y₀ * slope - .constant (.ofNat 3) * x₀ * x₀),
    distinct * xSum, distinct * ySum, notOpposite * xSum, notOpposite * ySum,
    firstInfinite * (x₂ - x₁), firstInfinite * (y₂ - y₁),
    secondInfinite * (x₂ - x₀), secondInfinite * (y₂ - y₀),
    opposite * x₂, opposite * y₂]

end Point

end Plonkish
