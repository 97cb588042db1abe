import Plonkish.Proofs.Fault
import Plonkish.Proofs.Fourier

/-!
# Proofs — polynomials in point-value form

`p.Represents d P` says that `p` is the polynomial `P` in point-value form: its values are those of
`P` over the domain `d`, and its degree bounds that of `P` and is below the number of points.  That
bound is what makes a change of the domain lossless, and every operation keeps it.

* `Represents.coefficients_eq` and `Represents.toPolynomial`: the coefficients up to the degree are
  those of `P`.
* `Represents.resize_eq`: over any domain that holds the degree, `P` has its values there.
* `Represents.combine`, `Represents.pow`, `Represents.rotated` and `Represents.restrictedTo`: sums,
  products, powers and shifts represent those of the polynomials, and the values at the points of a
  domain inside `d` are those of `P` there.  For the last two, the generator of the smaller domain
  is a power of that of the larger one (`Domain.omega_pow_div`).
-/

noncomputable section

namespace Plonkish

open Polynomial (C X)

variable {k : BaseField}

/-! ### Domains that hold a degree -/

namespace Domain

theorem log_le_thirtyTwo (d : Domain k) : d.log ≤ 32 :=
  d.log_le.trans (by cases k <;> decide)

theorem size_le (d : Domain k) : d.size ≤ 2 ^ 32 := by
  rw [size_eq]
  exact Nat.pow_le_pow_right Nat.zero_lt_two d.log_le_thirtyTwo

/-- A list over a domain can be allocated. -/
theorem held_size (d : Domain k) : Count.held k d.size = .ok d.size := by
  have hsize := d.size_le
  have hbytes : k.wordBytes ≤ 8 := by cases k <;> decide
  refine Count.entries_eq_ok.mpr ⟨?_, rfl⟩
  calc d.size * k.wordBytes ≤ 2 ^ 32 * 8 := Nat.mul_le_mul hsize hbytes
    _ < 2 ^ 63 := by decide

theorem isPowerOfTwo_size (d : Domain k) : Count.IsPowerOfTwo d.size := by
  rw [Count.IsPowerOfTwo, size_eq, Nat.log2_two_pow, Nat.one_shiftLeft]

/-- A smaller domain's size divides a larger one's. -/
theorem dvd_of_size_le {d e : Domain k} (h : d.size ≤ e.size) : d.size ∣ e.size := by
  rw [size_eq, size_eq] at h ⊢
  exact pow_dvd_pow 2 ((Nat.pow_le_pow_iff_right Nat.one_lt_two).mp h)

/-- The generator of a domain as a power of that of a larger one. -/
theorem omega_pow_div {d e : Domain k} (h : d.size ≤ e.size) :
    e.omega ^ (e.size / d.size) = d.omega := by
  rw [size_eq, size_eq] at h ⊢
  have hlog : d.log ≤ e.log := (Nat.pow_le_pow_iff_right Nat.one_lt_two).mp h
  rw [Nat.pow_div hlog Nat.zero_lt_two]
  exact BaseField.generator_pow hlog e.log_le

/-- The points of a domain are every so many points of a larger one. -/
theorem element_mul_div {d e : Domain k} (h : d.size ≤ e.size) (i : Nat) :
    e.element (e.size / d.size * i) = d.element i := by
  rw [element_eq, element_eq, pow_mul, omega_pow_div h]

theorem getElem?_elements (d : Domain k) (i : Nat) :
    d.elements[i]? = if i < d.size then some (d.element i) else none := by
  rw [elements_eq_map, List.getElem?_map]
  split
  · next hi => rw [List.getElem?_range hi]; rfl
  · next hi => rw [List.getElem?_eq_none (by rwa [List.length_range, ← not_lt])]; rfl

end Domain

namespace PointValues

/-- `p` is the polynomial `P` in point-value form over the domain `d`. -/
structure Represents (p : PointValues k) (d : Domain k) (P : Polynomial (Felt k)) : Prop where
  /-- The values are those of the polynomial. -/
  values_eq : p.values = d.elements.map fun x => P.eval x
  /-- The degree is a bound. -/
  natDegree_le : P.natDegree ≤ p.degree
  /-- The domain holds the degree. -/
  degree_lt : p.degree < d.size

variable {p q r : PointValues k} {d e : Domain k} {P Q : Polynomial (Felt k)}

namespace Represents

theorem size_eq (h : p.Represents d P) : p.size = d.size := by
  rw [size, h.values_eq, List.length_map, Domain.length_elements]

theorem degree_lt_degree (h : p.Represents d P) {n : Nat} (hn : p.degree < n) : P.degree < n :=
  P.degree_le_natDegree.trans_lt (by exact_mod_cast h.natDegree_le.trans_lt hn)

/-- A polynomial on a domain has a degree below the domain's size, so that its values determine it.
-/
theorem degree_lt_size (h : p.Represents d P) : P.degree < d.size := h.degree_lt_degree h.degree_lt

/-- Values that stand for a polynomial are its values on the domain, in order. -/
theorem eq_mk (h : p.Represents d P) : p = ⟨p.degree, d.elements.map fun x => P.eval x⟩ := by
  rw [← h.values_eq]

/-- A domain and a polynomial are determined by the values. -/
theorem unique (h : p.Represents d P) (h' : p.Represents e Q) : d = e ∧ P = Q := by
  obtain rfl : d = e := Domain.size_injective (h.size_eq.symm.trans h'.size_eq)
  refine ⟨rfl, ?_⟩
  rw [← Domain.polynomialOf_backward h.degree_lt_size, ← h.values_eq, h'.values_eq,
    Domain.polynomialOf_backward h'.degree_lt_size]

/-! ### Coefficients -/

/-- The coefficients come from the backward transform, cut at the degree. -/
theorem coefficients_eq (h : p.Represents d P) :
    p.coefficients = .ok ⟨(d.backward p.values).take (p.degree + 1)⟩ := by
  have hadd : Count.add p.degree 1 = .ok (p.degree + 1) :=
    Count.check_of_lt (by have := h.degree_lt.trans_le d.size_le; omega)
  rw [coefficients, h.size_eq, Domain.ofLength_size, hadd]
  rfl

/-- **The coefficients up to the degree** are those of the polynomial. -/
theorem toPolynomial (h : p.Represents d P) {c : Poly k} (hc : p.coefficients = .ok c) :
    c.toPolynomial = P := by
  rw [h.coefficients_eq] at hc
  obtain rfl := Except.ok.inj hc
  have hback : polynomialOf (d.backward p.values) = P := by
    rw [h.values_eq, Domain.polynomialOf_backward h.degree_lt_size]
  rw [Poly.toPolynomial, polynomialOf_take, hback]
  rw [hback]
  exact h.degree_lt_degree (Nat.lt_succ_self p.degree)

/-- There is one coefficient more than the degree. -/
theorem length_coefficients (h : p.Represents d P) {c : Poly k} (hc : p.coefficients = .ok c) :
    c.coeffs.length = p.degree + 1 := by
  rw [h.coefficients_eq] at hc
  obtain rfl := Except.ok.inj hc
  rw [List.length_take, Domain.length_backward h.size_eq]
  exact min_eq_left h.degree_lt

/-- The coefficients are those of the polynomial that the values stand for. -/
theorem exists_coefficients (h : p.Represents d P) :
    ∃ c, p.coefficients = .ok c ∧ c.toPolynomial = P :=
  ⟨_, h.coefficients_eq, h.toPolynomial h.coefficients_eq⟩

/-- Evaluation agrees with the polynomial at every point, on the domain and off it. -/
theorem evaluate_eq (h : p.Represents d P) (x : Felt k) : p.evaluate x = .ok (P.eval x) := by
  obtain ⟨c, hc, hP⟩ := h.exists_coefficients
  rw [evaluate, hc, ← hP, ← Poly.evaluate_eq]
  rfl

end Represents

/-! ### Making point values -/

theorem checkSize_eq_ok {degree n : Nat} :
    checkSize degree n = .ok () ↔ Count.IsPowerOfTwo n ∧ degree < n := by
  unfold checkSize
  split
  · next h => exact ⟨fun _ => h, fun _ => rfl⟩
  · next h => exact ⟨nofun, fun hn => absurd hn h⟩

/-- Any values over a domain, with the largest degree it holds. -/
theorem ofValues_eq {values : List (Felt k)} (h : values.length = d.size) :
    ofValues (d.size - 1) values = .ok ⟨d.size - 1, values⟩ := by
  have hpos := d.size_pos
  have hsize : checkSize (d.size - 1) values.length = .ok () :=
    checkSize_eq_ok.mpr ⟨h ▸ d.isPowerOfTwo_size, by omega⟩
  rw [ofValues, hsize]
  rfl

/-- Any values over a domain stand for the polynomial that interpolates them. -/
theorem represents_ofValues {values : List (Felt k)} (h : values.length = d.size) :
    (⟨d.size - 1, values⟩ : PointValues k).Represents d (d.interpolant values) where
  values_eq := (Domain.map_eval_interpolant h).symm
  natDegree_le := Nat.le_sub_one_of_lt (by
    rw [Domain.interpolant, ← Domain.length_backward h]
    exact natDegree_polynomialOf_lt
      (List.ne_nil_of_length_pos (Domain.length_backward h ▸ d.size_pos)))
  degree_lt := Nat.sub_lt d.size_pos Nat.one_pos

/-- The domain of a single point. -/
def point (k : BaseField) : Domain k := ⟨0, Nat.zero_le _⟩

theorem elements_point : (point k).elements = [1] := rfl

theorem constant_one_eq (c : Felt k) : constant c 1 = .ok ⟨0, [c]⟩ := by cases k <;> rfl

/-- A constant is the one value on the one-point domain. -/
theorem represents_constant (c : Felt k) :
    (⟨0, [c]⟩ : PointValues k).Represents (point k) (C c) where
  values_eq := by rw [elements_point]; simp
  natDegree_le := (Polynomial.natDegree_C c).le
  degree_lt := Nat.one_pos

/-! ### Changing the domain -/

/-- The values of a polynomial, with any bound of its degree below the size, stand for it. -/
theorem represents_mk {degree : Nat} (hP : P.natDegree ≤ degree) (hd : degree < d.size) :
    (⟨degree, d.elements.map fun x => P.eval x⟩ : PointValues k).Represents d P :=
  ⟨rfl, hP, hd⟩

/-- The values over a domain of a polynomial of degree below its size. -/
theorem forward_fit {l : List (Felt k)} (h : (polynomialOf l).degree < d.size) :
    d.forward (fit d.size l) = d.elements.map fun x => (polynomialOf l).eval x := by
  rw [Domain.forward_eq (length_fit _ _), polynomialOf_fit h]

/-- **Over any domain that holds its degree**, a polynomial is given by its values there. -/
theorem Represents.resize_eq (h : p.Represents d P) (he : p.degree < e.size) :
    p.resize e.size = .ok ⟨p.degree, e.elements.map fun x => P.eval x⟩ := by
  unfold resize
  split
  · next hsame =>
      obtain rfl : d = e := Domain.size_injective (h.size_eq.symm.trans hsame.symm)
      rw [← h.eq_mk]
  · obtain ⟨c, hc, rfl⟩ := h.exists_coefficients
    rw [if_pos ⟨e.isPowerOfTwo_size, he⟩, hc, Domain.held_size]
    show (do let d ← Domain.ofLength k e.size; return _) = _
    rw [Domain.ofLength_size]
    exact congrArg (fun values => Except.ok (PointValues.mk p.degree values))
      (forward_fit (h.degree_lt_degree he))

/-- A change of the number of points that answers is one of the domain. -/
theorem Represents.exists_domain (h : p.Represents d P) {n : Nat} (hr : p.resize n = .ok r) :
    ∃ e : Domain k, e.size = n ∧ p.degree < e.size := by
  unfold resize at hr
  split at hr
  · next hsame => exact ⟨d, h.size_eq.symm.trans hsame.symm, h.degree_lt⟩
  · split at hr
    · next hn =>
        obtain ⟨c, -, hr⟩ := bind_eq_ok.mp hr
        obtain ⟨m, hm, hr⟩ := bind_eq_ok.mp hr
        obtain ⟨e, he, -⟩ := bind_eq_ok.mp hr
        obtain ⟨-, rfl⟩ := Count.entries_eq_ok.mp hm
        have hsize := Domain.size_of_ofLength he
        exact ⟨e, hsize, hsize ▸ hn.2⟩
    · cases hr

/-- A larger domain stands for the same polynomial. -/
theorem Represents.resize (h : p.Represents d P) {n : Nat} (hr : p.resize n = .ok r) :
    ∃ e : Domain k, e.size = n ∧ r.degree = p.degree ∧ r.Represents e P := by
  obtain ⟨e, rfl, hlt⟩ := h.exists_domain hr
  rw [h.resize_eq hlt] at hr
  obtain rfl := Except.ok.inj hr
  exact ⟨e, rfl, rfl, represents_mk h.natDegree_le hlt⟩

theorem ofCoefficients_eq {l : List (Felt k)} (hd : Count.domainFor l.length = .ok d.size) :
    ofCoefficients l = .ok ⟨lastNonzero l, d.elements.map fun x => (polynomialOf l).eval x⟩ := by
  have hlt : (polynomialOf l).degree < d.size := by
    refine (degree_polynomialOf_lt l).trans_le ?_
    have hle := Count.le_leastPower (max l.length 1)
    rw [← (Count.check_eq_ok.mp hd).2]
    exact_mod_cast (le_max_left l.length 1).trans hle
  rw [ofCoefficients, hd]
  show (do let d ← Domain.ofLength k d.size; return _) = _
  rw [Domain.ofLength_size]
  exact congrArg (fun values => Except.ok (PointValues.mk (lastNonzero l) values)) (forward_fit hlt)

/-- The polynomial with given coefficients, in point-value form. -/
theorem represents_ofCoefficients {l : List (Felt k)} (h : ofCoefficients l = .ok p) :
    ∃ d, Count.domainFor l.length = .ok d.size ∧ p.degree = (polynomialOf l).natDegree ∧
      p.Represents d (polynomialOf l) := by
  obtain ⟨n, hn, hp⟩ := bind_eq_ok.mp h
  obtain ⟨d, hd, -⟩ := bind_eq_ok.mp hp
  obtain rfl := Domain.size_of_ofLength hd
  rw [ofCoefficients_eq hn] at h
  obtain rfl := Except.ok.inj h
  have hle : l.length ≤ d.size := by
    have hle := Count.le_leastPower (max l.length 1)
    rw [(Count.check_eq_ok.mp hn).2] at hle
    exact (le_max_left _ _).trans hle
  refine ⟨d, hn, lastNonzero_eq l, represents_mk (lastNonzero_eq l).ge ?_⟩
  by_cases hl : l = []
  · subst hl; exact d.size_pos
  · rw [lastNonzero_eq]; exact (natDegree_polynomialOf_lt hl).trans_le hle

/-! ### Operations point by point -/

/-- Scaling the values scales the polynomial. -/
theorem Represents.scale (h : p.Represents d P) (c : Felt k) :
    (p.scale c).Represents d (P * C c) where
  values_eq := by simp [PointValues.scale, h.values_eq, Function.comp_def]
  natDegree_le := (Polynomial.natDegree_mul_C_le P c).trans h.natDegree_le
  degree_lt := h.degree_lt

/-- Negating the values negates the polynomial. -/
theorem Represents.neg (h : p.Represents d P) : (-p).Represents d (-P) where
  values_eq := by
    show p.values.map (- ·) = _
    simp [h.values_eq, Function.comp_def]
  natDegree_le := (Polynomial.natDegree_neg P).le.trans h.natDegree_le
  degree_lt := h.degree_lt

theorem add_one_eq_ok {n m : Nat} : Count.add n 1 = .ok m ↔ n + 1 < 2 ^ 64 ∧ n + 1 = m :=
  Count.check_eq_ok

/-- The domain that two polynomials are combined over: the least that holds the degree and both of
them. -/
def commonSize (degree : Nat) (d e : Domain k) : Nat :=
  max (max (Count.leastPower (degree + 1)) d.size) e.size

theorem degree_lt_commonSize (degree : Nat) (d e : Domain k) : degree < commonSize degree d e :=
  ((Count.le_leastPower (degree + 1)).trans (le_max_left _ _)).trans (le_max_left _ _)

/-- **Combining values** gives the values of the combined polynomial, if the degree bounds it. -/
theorem Represents.combine {f : Felt k → Felt k → Felt k} {degree : Nat} {R : Polynomial (Felt k)}
    (hp : p.Represents d P) (hq : q.Represents e Q) (hr : combine f degree p q = .ok r)
    (hf : ∀ x, R.eval x = f (P.eval x) (Q.eval x)) (hR : R.natDegree ≤ degree) :
    ∃ c : Domain k, c.size = commonSize degree d e ∧ r.degree = degree ∧ r.Represents c R := by
  obtain ⟨n, hn, hr⟩ := bind_eq_ok.mp hr
  obtain ⟨-, rfl⟩ := add_one_eq_ok.mp hn
  obtain ⟨s, hs, hr⟩ := bind_eq_ok.mp hr
  obtain ⟨-, rfl⟩ := (Count.domainFor_eq_ok (Nat.succ_pos degree)).mp hs
  -- Both are brought to the size that holds the degree, and so to the same domain.
  obtain ⟨p', hp', hr⟩ := bind_eq_ok.mp hr
  obtain ⟨q', hq', hr⟩ := bind_eq_ok.mp hr
  rw [hp.size_eq, hq.size_eq] at hp' hq'
  obtain ⟨c, hc, -, hp'⟩ := hp.resize hp'
  obtain ⟨c', hc', -, hq'⟩ := hq.resize hq'
  obtain rfl : c = c' := Domain.size_injective (hc.trans hc'.symm)
  obtain rfl := Except.ok.inj hr
  refine ⟨c, hc, rfl, ?_, hR, ?_⟩
  · simp only [hp'.values_eq, hq'.values_eq, List.zipWith_map_left, List.zipWith_map_right,
      List.zipWith_self, hf]
  · rw [hc]
    exact degree_lt_commonSize degree d e

/-- A sum stands for the sum, on a domain large enough for both operands. -/
theorem Represents.add (hp : p.Represents d P) (hq : q.Represents e Q) (hr : p.add q = .ok r) :
    ∃ c : Domain k, c.size = commonSize (max p.degree q.degree) d e ∧
      r.degree = max p.degree q.degree ∧ r.Represents c (P + Q) :=
  hp.combine hq hr (fun _ => Polynomial.eval_add) <|
    (Polynomial.natDegree_add_le P Q).trans (max_le_max hp.natDegree_le hq.natDegree_le)

/-- A difference stands for the difference, on a domain large enough for both operands. -/
theorem Represents.sub (hp : p.Represents d P) (hq : q.Represents e Q) (hr : p.sub q = .ok r) :
    ∃ c : Domain k, c.size = commonSize (max p.degree q.degree) d e ∧
      r.degree = max p.degree q.degree ∧ r.Represents c (P - Q) :=
  hp.combine hq hr (fun _ => Polynomial.eval_sub _ _ _) <|
    (Polynomial.natDegree_sub_le P Q).trans (max_le_max hp.natDegree_le hq.natDegree_le)

/-- A product stands for the product, on a domain that holds the degrees' sum. -/
theorem Represents.mul (hp : p.Represents d P) (hq : q.Represents e Q) (hr : p.mul q = .ok r) :
    ∃ c : Domain k, c.size = commonSize (p.degree + q.degree) d e ∧
      r.degree = p.degree + q.degree ∧ r.Represents c (P * Q) := by
  obtain ⟨degree, hdegree, hr⟩ := bind_eq_ok.mp hr
  obtain ⟨-, rfl⟩ := Count.check_eq_ok.mp hdegree
  exact hp.combine hq hr (fun _ => Polynomial.eval_mul) <|
    Polynomial.natDegree_mul_le.trans (Nat.add_le_add hp.natDegree_le hq.natDegree_le)

/-- A power stands for the power, on a domain that holds its degree. -/
theorem Represents.pow (h : p.Represents d P) {n : Nat} (hr : p.pow n = .ok r) :
    ∃ c : Domain k, c.size = max (Count.leastPower (p.degree * n + 1)) d.size ∧
      r.degree = p.degree * n ∧ r.Represents c (P ^ n) := by
  obtain ⟨degree, hdegree, hr⟩ := bind_eq_ok.mp hr
  obtain ⟨-, rfl⟩ := Count.check_eq_ok.mp hdegree
  obtain ⟨m, hm, hr⟩ := bind_eq_ok.mp hr
  obtain ⟨-, rfl⟩ := add_one_eq_ok.mp hm
  obtain ⟨s, hs, hr⟩ := bind_eq_ok.mp hr
  obtain ⟨-, rfl⟩ := (Count.domainFor_eq_ok (Nat.succ_pos _)).mp hs
  obtain ⟨base, hbase, hr⟩ := bind_eq_ok.mp hr
  rw [h.size_eq] at hbase
  obtain ⟨c, hc, -, hbase⟩ := h.resize hbase
  obtain rfl := Except.ok.inj hr
  refine ⟨c, hc, rfl, ?_, ?_, ?_⟩
  · simp [hbase.values_eq, Function.comp_def]
  · calc (P ^ n).natDegree ≤ n * P.natDegree := Polynomial.natDegree_pow_le
      _ ≤ n * p.degree := Nat.mul_le_mul_left n h.natDegree_le
      _ = p.degree * n := Nat.mul_comm _ _
  · rw [hc]
    exact (Count.le_leastPower (p.degree * n + 1)).trans (le_max_left _ _)

/-! ### Shifts and restrictions -/

/-- **Shifting the values** around substitutes a multiple of the variable. -/
theorem Represents.rotated (h : p.Represents d P) {rotation : Int}
    (hr : p.rotated rotation e.size = .ok r) (he : e.size ≤ d.size) :
    r.degree = p.degree ∧ r.Represents d (P.comp (C (e.rotationFactor rotation) * X)) := by
  have hdvd := Domain.dvd_of_size_le he
  unfold PointValues.rotated at hr
  rw [h.size_eq, if_pos ⟨e.size_pos, Nat.mod_eq_zero_of_dvd hdvd⟩, if_neg d.size_pos.ne'] at hr
  obtain rfl := Except.ok.inj hr
  set places := (rotation * (d.size / e.size : Nat) % d.size).toNat with hplaces
  have hpos : (0 : Int) < d.size := by exact_mod_cast d.size_pos
  have hlt : places < d.size := by
    have := Int.emod_lt_of_pos (rotation * (d.size / e.size : Nat)) hpos
    have := Int.emod_nonneg (rotation * (d.size / e.size : Nat)) hpos.ne'
    omega
  -- A step in the smaller domain is as long as `d.size / e.size` steps in the larger one.
  have hfactor : d.omega ^ places = e.rotationFactor rotation := by
    have hturn : d.rotationFactor (rotation * (d.size / e.size : Nat)) = d.omega ^ places :=
      d.element_eq places
    rw [← hturn, Domain.rotationFactor_eq, Domain.rotationFactor_eq, mul_comm, zpow_mul,
      zpow_natCast, Domain.omega_pow_div he]
  have hlen : p.values.length = d.size := h.size_eq
  refine ⟨rfl, ?_, ?_, h.degree_lt⟩
  · show p.values.drop places ++ p.values.take places = _
    rw [← List.rotate_eq_drop_append_take (hlt.le.trans hlen.ge)]
    refine List.ext_getElem (by simp [hlen, Domain.length_elements]) ?_
    intro i hi hi'
    rw [List.getElem_rotate]
    simp only [h.values_eq, List.getElem_map, Domain.elements_eq_map, List.getElem_range,
      List.length_map, List.length_range, Polynomial.eval_comp, Polynomial.eval_mul,
      Polynomial.eval_C, Polynomial.eval_X]
    rw [← hfactor, Domain.element_eq, Domain.element_eq, ← pow_add, add_comm places,
      ← pow_eq_pow_mod _ d.omega_pow_size]
  · have hlinear : (C (e.rotationFactor rotation) * X).natDegree ≤ 1 :=
      (Polynomial.natDegree_C_mul_le _ _).trans Polynomial.natDegree_X.le
    have hcomp : (P.comp (C (e.rotationFactor rotation) * X)).natDegree ≤ P.natDegree * 1 :=
      Polynomial.natDegree_comp_le.trans (Nat.mul_le_mul_left _ hlinear)
    exact (hcomp.trans (mul_one _).le).trans h.natDegree_le

/-- **The values at the points of a smaller domain** are those of the polynomial there. -/
theorem Represents.restrictedTo (h : p.Represents d P) (he : e.size ≤ d.size) :
    p.restrictedTo e = e.elements.map fun x => P.eval x := by
  have hstep : 0 < d.size / e.size := Nat.div_pos he e.size_pos
  have hsize : d.size / e.size * e.size = d.size :=
    Nat.div_mul_cancel (Domain.dvd_of_size_le he)
  refine List.ext_getElem? ?_
  intro i
  rw [PointValues.restrictedTo, h.size_eq, max_eq_left hstep, getElem?_everyNth hstep, h.values_eq,
    List.getElem?_map, List.getElem?_map, Domain.getElem?_elements, Domain.getElem?_elements,
    Domain.element_mul_div he]
  have hiff : d.size / e.size * i < d.size ↔ i < e.size := by
    rw [← Nat.mul_lt_mul_left hstep (c := e.size), hsize]
  simp only [hiff]

end PointValues

/-- Interpolating is reading the coefficients off the values, with the largest degree they leave
open. -/
theorem Poly.interpolate_eq_coefficients {d : Domain k} {values : List (Felt k)}
    (h : values.length = d.size) :
    Poly.interpolate values = (⟨d.size - 1, values⟩ : PointValues k).coefficients := by
  have hne : values.isEmpty = false := by
    rw [List.isEmpty_eq_false_iff]
    exact List.ne_nil_of_length_pos (h ▸ d.size_pos)
  rw [Poly.interpolate, hne, if_neg Bool.false_ne_true, h, PointValues.ofValues_eq h]
  rfl

/-- The polynomial that takes given values over a domain, in coefficient form. -/
theorem Poly.interpolate_eq {d : Domain k} {values : List (Felt k)} (h : values.length = d.size) :
    ∃ p, Poly.interpolate values = .ok p ∧ p.toPolynomial = d.interpolant values := by
  rw [interpolate_eq_coefficients h]
  exact (PointValues.represents_ofValues h).exists_coefficients

end Plonkish

end
