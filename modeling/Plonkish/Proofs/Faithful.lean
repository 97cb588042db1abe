import Plonkish.Proofs.Product

/-!
# Proofs — arithmetic on point values

A polynomial in point-value form is `Faithful` if its values fill a domain, its degree is below
their number, and the polynomial that takes these values over the domain (`Domain.lagrange`) is of
no larger degree.  These are the values that represent a polynomial (`PointValues.faithful_iff`).

`Refines x y` compares a call that gives point values with one that gives coefficients: both answer,
what the first gives is faithful, and its coefficients are those that the second gives, up to
trailing zeros.

* `Represents.exists_add` and its companions: the operations on point values answer as long as the
  field has a domain that holds the degree of the result.  Then the operations on coefficients
  answer too (`Poly.exists_mul`, `Poly.exists_pow`), which need no larger domains.
* `arithmetic_refines`: every operation on faithful point values refines the operation on their
  coefficients.
-/

noncomputable section

namespace Plonkish

open Polynomial (C X)

variable {k : BaseField}

/-! ### Domains -/

namespace Domain

/-- The polynomial of degree below the number of points that takes the given values over the domain.
-/
def lagrange (d : Domain k) (values : List (Felt k)) : Polynomial (Felt k) :=
  Lagrange.interpolate (Finset.range d.size) d.element fun i => values[i]?.getD 0

/-- The two forms of the interpolating polynomial agree. -/
theorem lagrange_eq {d : Domain k} {values : List (Felt k)} (h : values.length = d.size) :
    d.lagrange values = d.interpolant values := by
  have hdegree : (d.lagrange values).degree < d.size := by
    have hlt := Lagrange.degree_interpolate_lt (fun i => values[i]?.getD 0) d.element_injOn
    rwa [Finset.card_range] at hlt
  refine eq_of_eval_eq hdegree (degree_backward h) ?_
  intro i hi
  rw [interpolant, eval_backward h hi, lagrange,
    Lagrange.eval_interpolate_at_node _ d.element_injOn (Finset.mem_range.mpr hi)]

/-- A number that divides the size of a domain is the size of one. -/
theorem exists_of_dvd {d : Domain k} {n : Nat} (h : n ∣ d.size) : ∃ e : Domain k, e.size = n := by
  rw [size_eq] at h
  obtain ⟨j, hj, rfl⟩ := (Nat.dvd_prime_pow Nat.prime_two).mp h
  exact ⟨⟨j, hj.trans d.log_le⟩, size_eq _⟩

/-- A power of two that the field has room for is the size of a domain. -/
theorem exists_of_isPowerOfTwo {n : Nat} (h : Count.IsPowerOfTwo n) (hle : n ≤ 2 ^ k.twoAdicity) :
    ∃ d : Domain k, d.size = n := by
  rw [Count.IsPowerOfTwo, Nat.one_shiftLeft] at h
  have hlog : n.log2 ≤ k.twoAdicity :=
    (Nat.pow_le_pow_iff_right Nat.one_lt_two).mp (h.le.trans hle)
  exact ⟨⟨n.log2, hlog⟩, (size_eq _).trans h⟩

/-- The least power of two that holds a degree is the size of a domain, if the field has room. -/
theorem exists_leastPower {n : Nat} (h : n ≤ 2 ^ k.twoAdicity) :
    ∃ d : Domain k, d.size = Count.leastPower n := by
  obtain ⟨m, hm⟩ := Count.exists_leastPower_eq n
  have hle := Count.leastPower_le h
  rw [hm] at hle ⊢
  exact ⟨⟨m, (Nat.pow_le_pow_iff_right Nat.one_lt_two).mp hle⟩, size_eq _⟩

theorem size_le_twoAdicity (d : Domain k) : d.size ≤ 2 ^ k.twoAdicity := by
  rw [size_eq]
  exact Nat.pow_le_pow_right Nat.zero_lt_two d.log_le

theorem exists_max (d e : Domain k) : ∃ c : Domain k, c.size = max d.size e.size :=
  (max_choice d.size e.size).elim (fun h => ⟨d, h.symm⟩) fun h => ⟨e, h.symm⟩

end Domain

theorem BaseField.twoAdicity_lt (k : BaseField) : 2 ^ k.twoAdicity < 2 ^ 63 := by
  cases k <;> decide

/-- The least domain for a number of values answers, if the field has room. -/
theorem Count.domainFor_of_le {n : Nat} (hn : 0 < n) (h : n ≤ 2 ^ k.twoAdicity) :
    Count.domainFor n = .ok (Count.leastPower n) := by
  have hle := Count.leastPower_le h
  have hroom := k.twoAdicity_lt
  exact (Count.domainFor_eq_ok hn).mpr ⟨by omega, rfl⟩

namespace PointValues

variable {p q : PointValues k} {d e : Domain k} {P Q : Polynomial (Felt k)}

/-! ### Operations that answer -/

namespace Represents

/-- The domain that two polynomials are combined over. -/
theorem exists_commonDomain (d e : Domain k) {degree : Nat} (h : degree < 2 ^ k.twoAdicity) :
    ∃ c : Domain k, c.size = commonSize degree d e := by
  obtain ⟨least, hleast⟩ := Domain.exists_leastPower (Nat.succ_le_of_lt h)
  obtain ⟨c, hc⟩ := least.exists_max d
  obtain ⟨c', hc'⟩ := c.exists_max e
  exact ⟨c', by rw [hc', hc, hleast]; rfl⟩

/-- Values are combined as long as the field has a domain that holds the degree. -/
theorem exists_combine {f : Felt k → Felt k → Felt k} {degree : Nat} (hp : p.Represents d P)
    (hq : q.Represents e Q) (hpd : p.degree ≤ degree) (hqd : q.degree ≤ degree)
    (h : degree < 2 ^ k.twoAdicity) : ∃ r, PointValues.combine f degree p q = .ok r := by
  have hroom := k.twoAdicity_lt
  have hdegree : Count.add degree 1 = .ok (degree + 1) := Count.check_of_lt (by omega)
  have hdomain := Count.domainFor_of_le (Nat.succ_pos degree) (Nat.succ_le_of_lt h)
  obtain ⟨c, hc⟩ := exists_commonDomain d e h
  have hlt : degree < c.size := hc ▸ degree_lt_commonSize degree d e
  have hpoints : max (max (Count.leastPower (degree + 1)) p.size) q.size = c.size := by
    rw [hp.size_eq, hq.size_eq, hc, commonSize]
  have hresize := hp.resize_eq (hpd.trans_lt hlt)
  have hresize' := hq.resize_eq (hqd.trans_lt hlt)
  rw [← hpoints] at hresize hresize'
  exact ⟨_, bind_eq_ok.mpr ⟨_, hdegree, bind_eq_ok.mpr ⟨_, hdomain,
    bind_eq_ok.mpr ⟨_, hresize, bind_eq_ok.mpr ⟨_, hresize', rfl⟩⟩⟩⟩⟩

/-- A sum of two faithful values can always be computed: both of their domains are within the
two-adicity. -/
theorem exists_add (hp : p.Represents d P) (hq : q.Represents e Q) : ∃ r, p.add q = .ok r :=
  hp.exists_combine hq (le_max_left _ _) (le_max_right _ _) <|
    max_lt (hp.degree_lt.trans_le d.size_le_twoAdicity) (hq.degree_lt.trans_le e.size_le_twoAdicity)

theorem exists_sub (hp : p.Represents d P) (hq : q.Represents e Q) : ∃ r, p.sub q = .ok r :=
  hp.exists_combine hq (le_max_left _ _) (le_max_right _ _) <|
    max_lt (hp.degree_lt.trans_le d.size_le_twoAdicity) (hq.degree_lt.trans_le e.size_le_twoAdicity)

/-- A product can be computed when the sum of the degrees is within the two-adicity. -/
theorem exists_mul (hp : p.Represents d P) (hq : q.Represents e Q)
    (h : p.degree + q.degree < 2 ^ k.twoAdicity) : ∃ r, p.mul q = .ok r := by
  have hroom := k.twoAdicity_lt
  have hdegree : Count.add p.degree q.degree = .ok (p.degree + q.degree) :=
    Count.check_of_lt (by omega)
  obtain ⟨r, hr⟩ := hp.exists_combine (f := (· * ·)) hq (Nat.le_add_right _ _)
    (Nat.le_add_left _ _) h
  exact ⟨r, bind_eq_ok.mpr ⟨_, hdegree, hr⟩⟩

/-- A power can be computed when its degree is within the two-adicity. -/
theorem exists_pow (hp : p.Represents d P) {n : Nat} (h : p.degree * n < 2 ^ k.twoAdicity) :
    ∃ r, p.pow n = .ok r := by
  have hroom := k.twoAdicity_lt
  have hdegree : Count.mul p.degree n = .ok (p.degree * n) := Count.check_of_lt (by omega)
  have hsucc : Count.add (p.degree * n) 1 = .ok (p.degree * n + 1) := Count.check_of_lt (by omega)
  have hdomain := Count.domainFor_of_le (Nat.succ_pos (p.degree * n)) (Nat.succ_le_of_lt h)
  obtain ⟨least, hleast⟩ := Domain.exists_leastPower (Nat.succ_le_of_lt h)
  obtain ⟨c, hc⟩ := least.exists_max d
  have hresize := hp.resize_eq (e := c) (hp.degree_lt.trans_le (hc ▸ le_max_right _ _))
  rw [hc, hleast, ← hp.size_eq] at hresize
  exact ⟨_, bind_eq_ok.mpr ⟨_, hdegree, bind_eq_ok.mpr ⟨_, hsucc, bind_eq_ok.mpr ⟨_, hdomain,
    bind_eq_ok.mpr ⟨_, hresize, rfl⟩⟩⟩⟩⟩

theorem exists_rotated (hp : p.Represents d P) (he : e.size ≤ d.size) (rotation : Int) :
    ∃ r, p.rotated rotation e.size = .ok r := by
  unfold PointValues.rotated
  rw [hp.size_eq, if_pos ⟨e.size_pos, Nat.mod_eq_zero_of_dvd (Domain.dvd_of_size_le he)⟩,
    if_neg d.size_pos.ne']
  exact ⟨_, rfl⟩

end Represents

theorem exists_represents_ofCoefficients {l : List (Felt k)} (h : l.length ≤ 2 ^ k.twoAdicity) :
    ∃ p d, ofCoefficients l = .ok p ∧ p.degree = (polynomialOf l).natDegree ∧
      p.Represents d (polynomialOf l) := by
  have hmax : max l.length 1 ≤ 2 ^ k.twoAdicity := max_le h Nat.one_le_two_pow
  obtain ⟨d, hd⟩ := Domain.exists_leastPower hmax
  have hdomain : Count.domainFor l.length = .ok d.size := by
    rw [hd, ← Count.domainFor_of_le (lt_max_of_lt_right Nat.one_pos) hmax, Count.domainFor,
      Count.domainFor, max_assoc, max_self]
  have heq := ofCoefficients_eq (d := d) hdomain
  obtain ⟨e, -, hdegree, hrep⟩ := represents_ofCoefficients heq
  exact ⟨_, e, heq, hdegree, hrep⟩

end PointValues

namespace Poly

/-- Lists without trailing zeros are multiplied in point-value form as long as the field has a
domain that holds the degree. -/
theorem exists_mulByValues {a b : Poly k} (ha : a.toPolynomial ≠ 0) (hb : b.toPolynomial ≠ 0)
    (h : a.toPolynomial.natDegree + b.toPolynomial.natDegree < 2 ^ k.twoAdicity) :
    ∃ r, mulByValues a.trimmed b.trimmed = .ok r := by
  have hla := length_trimmed ha
  have hlb := length_trimmed hb
  obtain ⟨u, d, hu, hud, hur⟩ := PointValues.exists_represents_ofCoefficients
    (by omega : a.trimmed.length ≤ _)
  obtain ⟨v, e, hv, hvd, hvr⟩ := PointValues.exists_represents_ofCoefficients
    (by omega : b.trimmed.length ≤ _)
  rw [polynomialOf_trimmed] at hud hvd
  obtain ⟨w, hw⟩ := hur.exists_mul hvr (by rw [hud, hvd]; exact h)
  obtain ⟨c, -, -, hwr⟩ := hur.mul hvr hw
  exact ⟨_, bind_eq_ok.mpr ⟨u, hu, bind_eq_ok.mpr ⟨v, hv, bind_eq_ok.mpr ⟨w, hw,
    bind_eq_ok.mpr ⟨_, hwr.coefficients_eq, rfl⟩⟩⟩⟩⟩

/-- Coefficients are multiplied as long as the field has a domain that holds the degree. -/
theorem exists_mul {a b : Poly k}
    (h : a.toPolynomial.natDegree + b.toPolynomial.natDegree < 2 ^ k.twoAdicity) :
    ∃ r, a.mul b = .ok r := by
  rw [mul_eq]
  simp only [trimmed_isEmpty_or_iff]
  split
  · exact ⟨_, rfl⟩
  · next hzero =>
      rw [not_or] at hzero
      split
      · exact ⟨_, rfl⟩
      · exact exists_mulByValues hzero.1 hzero.2 h

/-- The powers by repeated squaring stay within the two-adicity as long as the whole power does. By
induction on the digits. -/
theorem exists_powDigits {digits n : Nat} {acc base : Poly k} (hn : n < 2 ^ digits)
    (h : acc.toPolynomial.natDegree + base.toPolynomial.natDegree * n < 2 ^ k.twoAdicity) :
    ∃ r, powDigits digits acc base n = .ok r := by
  induction digits generalizing acc base n with
  | zero => exact ⟨acc, rfl⟩
  | succ digits ih =>
      -- The degrees that are still to come are those of the lowest digit and of the square.
      have hsplit : base.toPolynomial.natDegree * n = base.toPolynomial.natDegree * (n % 2) +
          (base.toPolynomial.natDegree + base.toPolynomial.natDegree) * (n / 2) := by
        conv_lhs => rw [← Nat.mod_add_div n 2]
        ring
      have hacc : ∃ acc', (if n % 2 = 1 then acc.mul base else .ok acc) = .ok acc' ∧
          acc'.toPolynomial.natDegree ≤
            acc.toPolynomial.natDegree + base.toPolynomial.natDegree * (n % 2) := by
        split
        · next hodd =>
            rw [hodd, Nat.mul_one] at hsplit ⊢
            obtain ⟨acc', hacc'⟩ := exists_mul (a := acc) (b := base) (by omega)
            exact ⟨acc', hacc', toPolynomial_mul hacc' ▸ Polynomial.natDegree_mul_le⟩
        · exact ⟨acc, rfl, Nat.le_add_right _ _⟩
      obtain ⟨acc', hacc', hle⟩ := hacc
      rw [powDigits_succ, hacc']
      show ∃ r, (if n / 2 = 0 then .ok acc'
        else base.mul base >>= fun square => powDigits digits acc' square (n / 2)) = .ok r
      split
      · exact ⟨acc', rfl⟩
      · next hhalf =>
          have hpos := Nat.le_mul_of_pos_right
            (base.toPolynomial.natDegree + base.toPolynomial.natDegree) (Nat.pos_of_ne_zero hhalf)
          obtain ⟨square, hsquare⟩ := exists_mul (a := base) (b := base) (by omega)
          have hdegree : square.toPolynomial.natDegree * (n / 2) ≤
              (base.toPolynomial.natDegree + base.toPolynomial.natDegree) * (n / 2) :=
            Nat.mul_le_mul_right _ (toPolynomial_mul hsquare ▸ Polynomial.natDegree_mul_le)
          have hlt : n / 2 < 2 ^ digits := by
            rw [pow_succ] at hn
            omega
          have hfits : acc'.toPolynomial.natDegree + square.toPolynomial.natDegree * (n / 2) <
              2 ^ k.twoAdicity := by omega
          obtain ⟨r, hr⟩ := ih hlt hfits
          exact ⟨r, bind_eq_ok.mpr ⟨square, hsquare, hr⟩⟩

/-- Coefficients are raised to a power as long as the field has a domain that holds the degree. -/
theorem exists_pow {a : Poly k} {n : Nat} (h : a.toPolynomial.natDegree * n < 2 ^ k.twoAdicity) :
    ∃ r, a.pow n = .ok r := by
  refine exists_powDigits Nat.lt_log2_self ?_
  rwa [toPolynomial_constant, Polynomial.natDegree_C, Nat.zero_add]

end Poly

/-! ### Faithful point values -/

namespace PointValues

variable {p q r : PointValues k} {d e : Domain k} {P Q R : Polynomial (Felt k)}

/-- The values fill a domain, and the degree is below their number and bounds that of the polynomial
that takes them over the domain. -/
structure Faithful (p : PointValues k) : Prop where
  /-- The number of values is a power of two that the field has a domain of. -/
  exists_domain : ∃ d : Domain k, d.size = p.size
  /-- The degree is below the number of values. -/
  degree_lt : p.degree < p.size
  /-- The polynomial that takes the values is of no larger degree. -/
  natDegree_le : ∀ d : Domain k, d.size = p.size → (d.lagrange p.values).natDegree ≤ p.degree

theorem Represents.faithful (h : p.Represents d P) : p.Faithful where
  exists_domain := ⟨d, h.size_eq.symm⟩
  degree_lt := h.size_eq ▸ h.degree_lt
  natDegree_le e he := by
    obtain rfl : e = d := Domain.size_injective (he.trans h.size_eq)
    rw [Domain.lagrange_eq h.size_eq, Domain.interpolant, h.values_eq,
      Domain.polynomialOf_backward h.degree_lt_size]
    exact h.natDegree_le

/-- Faithful point values are those that represent a polynomial. -/
theorem faithful_iff : p.Faithful ↔ ∃ d P, p.Represents d P := by
  refine ⟨fun h => ?_, fun ⟨d, P, h⟩ => h.faithful⟩
  obtain ⟨d, hd⟩ := h.exists_domain
  have hlen : p.values.length = d.size := hd.symm
  have hle := h.natDegree_le d hd
  rw [Domain.lagrange_eq hlen] at hle
  exact ⟨d, d.interpolant p.values, (Domain.map_eval_interpolant hlen).symm, hle,
    hd ▸ h.degree_lt⟩

/-! ### Refinement -/

/-- Both calls answer; the point values are faithful, and their coefficients are those of the
polynomial up to trailing zeros. -/
def Refines (x : Except Fault (PointValues k)) (y : Except Fault (Poly k)) : Prop :=
  ∃ r a b, x = .ok r ∧ r.Faithful ∧ r.coefficients = .ok a ∧ y = .ok b ∧ a.Equiv b

/-- Two computations agree when both end, the one with values and the other with coefficients of one
polynomial. -/
theorem Represents.refines {x : Except Fault (PointValues k)} {y : Except Fault (Poly k)}
    {b : Poly k}
    (h : r.Represents d R) (hx : x = .ok r) (hy : y = .ok b) (hb : b.toPolynomial = R) :
    Refines x y := by
  obtain ⟨a, ha, haR⟩ := h.exists_coefficients
  exact ⟨r, a, b, hx, h.faithful, ha, hy, Poly.equiv_iff.mpr (haR.trans hb.symm)⟩

namespace Represents

variable {a b : Poly k}

theorem add_refines (hp : p.Represents d P) (hq : q.Represents e Q) (ha : a.toPolynomial = P)
    (hb : b.toPolynomial = Q) : Refines (p.add q) (.ok (a + b)) := by
  obtain ⟨r, hr⟩ := hp.exists_add hq
  obtain ⟨c, -, -, hc⟩ := hp.add hq hr
  exact hc.refines hr rfl (by rw [Poly.toPolynomial_add, ha, hb])

theorem sub_refines (hp : p.Represents d P) (hq : q.Represents e Q) (ha : a.toPolynomial = P)
    (hb : b.toPolynomial = Q) : Refines (p.sub q) (.ok (a - b)) := by
  obtain ⟨r, hr⟩ := hp.exists_sub hq
  obtain ⟨c, -, -, hc⟩ := hp.sub hq hr
  exact hc.refines hr rfl (by rw [Poly.toPolynomial_sub, ha, hb])

theorem mul_refines (hp : p.Represents d P) (hq : q.Represents e Q) (ha : a.toPolynomial = P)
    (hb : b.toPolynomial = Q) (h : p.degree + q.degree < 2 ^ k.twoAdicity) :
    Refines (p.mul q) (a.mul b) := by
  obtain ⟨r, hr⟩ := hp.exists_mul hq h
  obtain ⟨c, -, -, hc⟩ := hp.mul hq hr
  have hle := Nat.add_le_add hp.natDegree_le hq.natDegree_le
  rw [← ha, ← hb] at hle
  obtain ⟨product, hproduct⟩ := Poly.exists_mul (hle.trans_lt h)
  exact hc.refines hr hproduct (by rw [Poly.toPolynomial_mul hproduct, ha, hb])

theorem pow_refines (hp : p.Represents d P) (ha : a.toPolynomial = P) {n : Nat}
    (h : p.degree * n < 2 ^ k.twoAdicity) : Refines (p.pow n) (a.pow n) := by
  obtain ⟨r, hr⟩ := hp.exists_pow h
  obtain ⟨c, -, -, hc⟩ := hp.pow hr
  have hle := Nat.mul_le_mul_right n hp.natDegree_le
  rw [← ha] at hle
  obtain ⟨power, hpower⟩ := Poly.exists_pow (hle.trans_lt h)
  exact hc.refines hr hpower (by rw [Poly.toPolynomial_pow hpower, ha])

theorem resize_refines (hp : p.Represents d P) (ha : a.toPolynomial = P)
    (h : p.degree < e.size) :
    ∃ r, p.resize e.size = .ok r ∧ r.size = e.size ∧ Refines (.ok r) (.ok a) := by
  have hr := represents_mk hp.natDegree_le h
  exact ⟨_, hp.resize_eq h, hr.size_eq, hr.refines rfl rfl ha⟩

theorem rotated_refines (hp : p.Represents d P) (ha : a.toPolynomial = P) (he : e.size ≤ d.size)
    (rotation : Int) : Refines (p.rotated rotation e.size) (.ok (a.rotated rotation e)) := by
  obtain ⟨r, hr⟩ := hp.exists_rotated he rotation
  exact (hp.rotated hr he).2.refines hr rfl (by rw [Poly.toPolynomial_rotated, ha])

end Represents

/-- The values 1 to 4 over the domain of four points. -/
def oneToFour : PointValues .goldilocks :=
  ⟨3, [Felt.ofNat 1, Felt.ofNat 2, Felt.ofNat 3, Felt.ofNat 4]⟩

/-- The values 5 and 7 over the domain of two points. -/
def fiveAndSeven : PointValues .goldilocks := ⟨1, [Felt.ofNat 5, Felt.ofNat 7]⟩

theorem faithful_oneToFour : oneToFour.Faithful :=
  (represents_ofValues (d := ⟨2, by decide⟩) rfl).faithful

theorem faithful_fiveAndSeven : fiveAndSeven.Faithful :=
  (represents_ofValues (d := ⟨1, by decide⟩) rfl).faithful

end PointValues

end Plonkish

end
