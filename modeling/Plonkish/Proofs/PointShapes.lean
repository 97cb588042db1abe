import Plonkish.Proofs.Decoders
import Plonkish.Proofs.Degrees
import Plonkish.Proofs.Faithful
import Plonkish.Proofs.JsonRoundTrip

/-!
# Proofs — the shape of point values

The operations on point values rely on a shape, `PointValues.Shaped`: the number of values is a
power of two, and the degree is below it.  `PointValues.Made Read` are the point values that can be
had from those that are read from outside, if these satisfy `Read`.

* `Made.shaped`: whatever is made has the shape, if what is read has it.
* `made_of_degree_lt`: the readers of texts and of bytes give any values with any degree, so the
  shape is not theirs to rely on.  Values without it fault where those with it answer
  (`coefficients_of_not_isPowerOfTwo`, `rotated_of_size_eq_zero`).
* `Shaped.resize_iff` and its companions: on values with the shape an operation answers exactly for
  the sizes that its documentation names, as far as the field has domains of them.
-/

namespace Plonkish

variable {k : BaseField}

/-- Domains of a number of points are there for the powers of two that the field has room for. -/
theorem Domain.exists_size_iff {n : Nat} :
    (∃ d : Domain k, d.size = n) ↔ Count.IsPowerOfTwo n ∧ n ≤ 2 ^ k.twoAdicity := by
  constructor
  · rintro ⟨d, rfl⟩
    exact ⟨d.isPowerOfTwo_size, d.size_le_twoAdicity⟩
  · rintro ⟨hn, hle⟩
    exact exists_of_isPowerOfTwo hn hle

theorem Count.isPowerOfTwo_leastPower (n : Nat) : IsPowerOfTwo (leastPower n) :=
  (isLeast_leastPower n).1.1

/-- The larger of two powers of two is a power of two. -/
theorem Count.isPowerOfTwo_max {m n : Nat} (hm : IsPowerOfTwo m) (hn : IsPowerOfTwo n) :
    IsPowerOfTwo (max m n) := by
  rcases max_choice m n with h | h
  · rwa [h]
  · rwa [h]

namespace PointValues

/-- The number of values is a power of two, and the degree is below it. -/
structure Shaped (p : PointValues k) : Prop where
  /-- The number of values is a power of two. -/
  isPowerOfTwo : Count.IsPowerOfTwo p.size
  /-- The degree is below the number of values. -/
  degree_lt : p.degree < p.size

/-- The point values that can be had, where those that are read from outside satisfy `Read`. -/
inductive Made (Read : PointValues k → Prop) : PointValues k → Prop where
  | read {p : PointValues k} (h : Read p) : Made Read p
  | ofValues {degree : Nat} {values : List (Felt k)} {r : PointValues k}
      (h : ofValues degree values = .ok r) : Made Read r
  | ofCoefficients {coeffs : List (Felt k)} {r : PointValues k}
      (h : ofCoefficients coeffs = .ok r) : Made Read r
  | constant {c : Felt k} {size : Nat} {r : PointValues k} (h : constant c size = .ok r) :
    Made Read r
  | resize {p r : PointValues k} {points : Nat} (hp : Made Read p) (h : p.resize points = .ok r) :
      Made Read r
  | scale {p : PointValues k} (hp : Made Read p) (c : Felt k) : Made Read (p.scale c)
  | neg {p : PointValues k} (hp : Made Read p) : Made Read (-p)
  | add {p q r : PointValues k} (hp : Made Read p) (hq : Made Read q) (h : p.add q = .ok r) :
    Made Read r
  | sub {p q r : PointValues k} (hp : Made Read p) (hq : Made Read q) (h : p.sub q = .ok r) :
    Made Read r
  | mul {p q r : PointValues k} (hp : Made Read p) (hq : Made Read q) (h : p.mul q = .ok r) :
    Made Read r
  | pow {p r : PointValues k} {n : Nat} (hp : Made Read p) (h : p.pow n = .ok r) : Made Read r
  | rotated {p r : PointValues k} {rotation : Int} {domain : Nat} (hp : Made Read p)
      (h : p.rotated rotation domain = .ok r) : Made Read r

/-- What a text gives. -/
def InText (p : PointValues k) : Prop :=
  ∃ text stored, Stored.PointValues.ofJson text = .ok stored ∧ stored.toPointValues = p

/-- What bytes give. -/
def InBytes (p : PointValues k) : Prop :=
  ∃ bytes stored, Stored.PointValues.decode bytes = .ok stored ∧ stored.toPointValues = p

variable {p q r : PointValues k} {Read : PointValues k → Prop}

/-! ### Operations keep the shape -/

/-- The check of a size is what the shape asks for. -/
theorem shaped_of_checkSize {degree : Nat} {values : List (Felt k)}
    (h : checkSize degree values.length = .ok ()) : (⟨degree, values⟩ : PointValues k).Shaped :=
  ⟨(checkSize_eq_ok.mp h).1, (checkSize_eq_ok.mp h).2⟩

/-- Values that are taken have the shape. -/
theorem shaped_of_ofValues {degree : Nat} {values : List (Felt k)}
    (h : ofValues degree values = .ok r) :
    r.Shaped := by
  obtain ⟨_, hsize, hr⟩ := bind_eq_ok.mp h
  obtain rfl := Except.ok.inj hr
  exact shaped_of_checkSize hsize

theorem shaped_of_constant {c : Felt k} {size : Nat} (h : constant c size = .ok r) : r.Shaped := by
  obtain ⟨n, hn, hr⟩ := bind_eq_ok.mp h
  obtain ⟨-, rfl⟩ := Count.entries_eq_ok.mp hn
  obtain ⟨_, hsize, hr⟩ := bind_eq_ok.mp hr
  obtain rfl := Except.ok.inj hr
  exact shaped_of_checkSize (by rwa [List.length_replicate])

theorem Represents.shaped {d : Domain k} {P : Polynomial (Felt k)} (h : p.Represents d P) :
    p.Shaped where
  isPowerOfTwo := h.size_eq ▸ d.isPowerOfTwo_size
  degree_lt := h.size_eq ▸ h.degree_lt

/-- A new number of points is a power of two above the degree. -/
theorem Shaped.of_resize {points : Nat} (hp : p.Shaped) (h : p.resize points = .ok r) :
    r.Shaped := by
  obtain ⟨hdegree, hsize⟩ := shape_of_resize h
  suffices hpoints : Count.IsPowerOfTwo points ∧ p.degree < points from
    ⟨hsize ▸ hpoints.1, hdegree ▸ hsize ▸ hpoints.2⟩
  unfold PointValues.resize at h
  split at h
  · next hsame => exact hsame ▸ ⟨hp.isPowerOfTwo, hp.degree_lt⟩
  · split at h
    · next hpoints => exact hpoints
    · cases h

/-- The least power of two that holds a degree, or a larger one. -/
theorem shaped_of_size {n : Nat} (hn : Count.IsPowerOfTwo n)
    (hsize : r.size = max (Count.leastPower (r.degree + 1)) n) : r.Shaped where
  isPowerOfTwo := hsize ▸ Count.isPowerOfTwo_max (Count.isPowerOfTwo_leastPower _) hn
  degree_lt := hsize ▸ (Count.le_leastPower (r.degree + 1)).trans (le_max_left _ _)

/-- Sums and differences keep the shape. -/
theorem Shaped.of_combine {f : Felt k → Felt k → Felt k} {degree : Nat} (hp : p.Shaped)
    (hq : q.Shaped) (h : combine f degree p q = .ok r) : r.Shaped := by
  obtain ⟨rfl, hsize⟩ := shape_of_combine h
  rw [max_assoc] at hsize
  exact shaped_of_size (Count.isPowerOfTwo_max hp.isPowerOfTwo hq.isPowerOfTwo) hsize

/-- Products keep the shape. -/
theorem Shaped.of_mul (hp : p.Shaped) (hq : q.Shaped) (h : p.mul q = .ok r) : r.Shaped := by
  obtain ⟨_, -, h⟩ := bind_eq_ok.mp h
  exact hp.of_combine hq h

/-- Powers keep the shape. -/
theorem Shaped.of_pow {n : Nat} (hp : p.Shaped) (h : p.pow n = .ok r) : r.Shaped := by
  obtain ⟨hdegree, hsize⟩ := shape_of_pow h
  exact shaped_of_size hp.isPowerOfTwo (hdegree ▸ hsize)

/-- Rotations keep the shape. -/
theorem Shaped.of_rotated {rotation : Int} {domain : Nat} (hp : p.Shaped)
    (h : p.rotated rotation domain = .ok r) : r.Shaped := by
  obtain ⟨hdegree, hsize⟩ := shape_of_rotated h
  exact ⟨hsize ▸ hp.isPowerOfTwo, hdegree ▸ hsize ▸ hp.degree_lt⟩

theorem Shaped.map (hp : p.Shaped) (f : Felt k → Felt k) :
    (⟨p.degree, p.values.map f⟩ : PointValues k).Shaped := by
  have hsize : (⟨p.degree, p.values.map f⟩ : PointValues k).size = p.size := List.length_map _
  exact ⟨hsize ▸ hp.isPowerOfTwo, hsize ▸ hp.degree_lt⟩

/-- **The shape is kept**, from what is read on. -/
theorem Made.shaped (hread : ∀ p, Read p → p.Shaped) (h : Made Read p) : p.Shaped := by
  induction h with
  | read h => exact hread _ h
  | ofValues h => exact shaped_of_ofValues h
  | ofCoefficients h =>
      obtain ⟨d, -, -, h⟩ := represents_ofCoefficients h
      exact h.shaped
  | constant h => exact shaped_of_constant h
  | resize _ h ih => exact ih.of_resize h
  | scale _ c ih => exact ih.map (· * c)
  | neg _ ih => exact ih.map (- ·)
  | add _ _ h ihp ihq => exact ihp.of_combine ihq h
  | sub _ _ h ihp ihq => exact ihp.of_combine ihq h
  | mul _ _ h ihp ihq => exact ihp.of_mul ihq h
  | pow _ h ih => exact ih.of_pow h
  | rotated _ h ih => exact ih.of_rotated h

/-! ### What is read -/

/-- **Texts and bytes** give any values, with any degree. -/
theorem inText_of_degree_lt (h : p.degree < 2 ^ 64) : InText p :=
  ⟨p.stored.toJson, p.stored, Stored.PointValues.ofJson_toJson h,
    Stored.PointValues.toPointValues_stored p⟩

theorem inBytes_of_lt (hdegree : p.degree < 2 ^ 64) (hsize : p.size < 2 ^ 64) : InBytes p := by
  have hfits : p.stored.Fits := ⟨hdegree, by rwa [stored, List.length_map]⟩
  have hdecode : Stored.PointValues.decode (p.stored.encode ++ []) = .ok p.stored :=
    Wire.Exact.run'_append (fun n => Wire.exact_readPointValues) ⟨hfits, rfl⟩
  exact ⟨_, p.stored, hdecode, Stored.PointValues.toPointValues_stored p⟩

/-- Values that have not the shape stop the computation of the coefficients. -/
theorem coefficients_of_not_isPowerOfTwo (h : ¬ Count.IsPowerOfTwo p.size) :
    p.coefficients = .error .assertion := by
  have hlength : Domain.ofLength k p.size = .error .assertion := by
    rw [Domain.ofLength, Domain.ofSize, if_pos h]
    rfl
  rw [coefficients, hlength, error_bind]

theorem rotated_of_size_eq_zero (h : p.size = 0) (rotation : Int) {domain : Nat}
    (hdomain : 0 < domain) :
    p.rotated rotation domain = .error .overflow := by
  rw [PointValues.rotated, if_pos ⟨hdomain, by rw [h, Nat.zero_mod]⟩, if_pos h]

/-! ### Where operations answer -/

/-- A domain that the values live on. -/
theorem Shaped.exists_domain (hp : p.Shaped) (h : p.size ≤ 2 ^ k.twoAdicity) :
    ∃ d : Domain k, d.size = p.size :=
  Domain.exists_size_iff.mpr ⟨hp.isPowerOfTwo, h⟩

/-- Values of the shape have coefficients when their size is within the two-adicity. -/
theorem Shaped.coefficients_iff (hp : p.Shaped) :
    (∃ c, p.coefficients = .ok c) ↔ p.size ≤ 2 ^ k.twoAdicity := by
  constructor
  · rintro ⟨c, hc⟩
    obtain ⟨d, hd, -⟩ := bind_eq_ok.mp hc
    rw [← Domain.size_of_ofLength hd]
    exact d.size_le_twoAdicity
  · intro h
    obtain ⟨d, hd⟩ := hp.exists_domain h
    have hroom := k.twoAdicity_lt
    have hdegree := hp.degree_lt
    have hadd : Count.add p.degree 1 = .ok (p.degree + 1) := Count.check_of_lt (by omega)
    rw [coefficients, ← hd, Domain.ofLength_size, ok_bind, hadd, ok_bind]
    exact ⟨_, rfl⟩

/-- Points are changed to a power of two above the degree that the field has room for. -/
theorem Shaped.resize_iff (hp : p.Shaped) (n : Nat) :
    (∃ r, p.resize n = .ok r) ↔
      n = p.size ∨ Count.IsPowerOfTwo n ∧ p.degree < n ∧ max p.size n ≤ 2 ^ k.twoAdicity := by
  unfold PointValues.resize
  split
  · next hsame => exact iff_of_true ⟨p, rfl⟩ (.inl hsame)
  · next hsame =>
      rw [or_iff_right hsame]
      split
      · next hn =>
          constructor
          · rintro ⟨r, hr⟩
            obtain ⟨c, hc, hr⟩ := bind_eq_ok.mp hr
            obtain ⟨m, hm, hr⟩ := bind_eq_ok.mp hr
            obtain ⟨d, hd, -⟩ := bind_eq_ok.mp hr
            obtain ⟨-, rfl⟩ := Count.entries_eq_ok.mp hm
            have hsize := Domain.size_of_ofLength hd
            exact ⟨hn.1, hn.2, max_le (hp.coefficients_iff.mp ⟨c, hc⟩)
              (hsize ▸ d.size_le_twoAdicity)⟩
          · rintro ⟨-, -, hle⟩
            obtain ⟨c, hc⟩ := hp.coefficients_iff.mpr ((le_max_left _ _).trans hle)
            obtain ⟨d, rfl⟩ := Domain.exists_size_iff.mpr ⟨hn.1, (le_max_right _ _).trans hle⟩
            rw [hc, ok_bind, Domain.held_size, ok_bind, Domain.ofLength_size, ok_bind]
            exact ⟨_, rfl⟩
      · next hn => exact iff_of_false (by simp) fun h => hn ⟨h.1, h.2.1⟩

/-- Values are shifted in the steps of any number of points that divides theirs. -/
theorem Shaped.rotated_iff (hp : p.Shaped) (rotation : Int) (n : Nat) :
    (∃ r, p.rotated rotation n = .ok r) ↔ 0 < n ∧ n ∣ p.size := by
  rw [Nat.dvd_iff_mod_eq_zero]
  unfold PointValues.rotated
  split
  · next h =>
      rw [if_neg (Count.pos_of_isPowerOfTwo hp.isPowerOfTwo).ne']
      exact iff_of_true ⟨_, rfl⟩ h
  · next h => exact iff_of_false (by simp) h

/-- A number of points from that of the values on. -/
theorem Shaped.resize_of_le (hp : p.Shaped) {n : Nat} (hn : Count.IsPowerOfTwo n)
    (hle : p.size ≤ n) :
    (∃ r, p.resize n = .ok r) ↔ n ≤ 2 ^ k.twoAdicity ∨ p.size = n := by
  rw [hp.resize_iff, max_eq_right hle, eq_comm, or_comm]
  exact or_congr_left ⟨fun h => h.2.2, fun h => ⟨hn, hp.degree_lt.trans_le hle, h⟩⟩

/-- The number of points that hold a degree and the values of two polynomials. -/
def joinedSize (degree : Nat) (p q : PointValues k) : Nat :=
  max (max (Count.leastPower (degree + 1)) p.size) q.size

theorem leastPower_le_joinedSize (degree : Nat) (p q : PointValues k) :
    Count.leastPower (degree + 1) ≤ joinedSize degree p q :=
  (le_max_left _ _).trans (le_max_left _ _)

theorem size_le_joinedSize (degree : Nat) (p q : PointValues k) :
    p.size ≤ joinedSize degree p q ∧ q.size ≤ joinedSize degree p q :=
  ⟨(le_max_right _ _).trans (le_max_left _ _), le_max_right _ _⟩

theorem isPowerOfTwo_joinedSize (hp : p.Shaped) (hq : q.Shaped) (degree : Nat) :
    Count.IsPowerOfTwo (joinedSize degree p q) :=
  Count.isPowerOfTwo_max (Count.isPowerOfTwo_max (Count.isPowerOfTwo_leastPower _) hp.isPowerOfTwo)
    hq.isPowerOfTwo

/-- The points that hold a degree and two polynomials are those of a domain, or of both polynomials.
-/
def Joinable (degree : Nat) (p q : PointValues k) : Prop :=
  joinedSize degree p q ≤ 2 ^ k.twoAdicity ∨
    p.size = joinedSize degree p q ∧ q.size = joinedSize degree p q

/-- Two operands can be joined when both can be resized to the common size. -/
theorem joinable_iff (hp : p.Shaped) (hq : q.Shaped) (degree : Nat) :
    Joinable degree p q ↔ (∃ r, p.resize (joinedSize degree p q) = .ok r) ∧
      ∃ r, q.resize (joinedSize degree p q) = .ok r := by
  have hpower := isPowerOfTwo_joinedSize hp hq degree
  obtain ⟨hpsize, hqsize⟩ := size_le_joinedSize degree p q
  rw [Joinable, or_and_left, hp.resize_of_le hpower hpsize, hq.resize_of_le hpower hqsize]

/-- Points for a degree are counted where they are those of a domain, or of values that are there.
-/
theorem Joinable.leastPower_lt {degree : Nat} (h : Joinable degree p q) (hsize : p.size < 2 ^ 64) :
    Count.leastPower (degree + 1) < 2 ^ 64 := by
  have hroom := k.twoAdicity_lt
  have hle := leastPower_le_joinedSize degree p q
  rcases h with h | h <;> omega

theorem domainFor_of_lt {degree : Nat} (h : Count.leastPower (degree + 1) < 2 ^ 64) :
    Count.add degree 1 = .ok (degree + 1) ∧
      Count.domainFor (degree + 1) = .ok (Count.leastPower (degree + 1)) :=
  ⟨add_one_eq_ok.mpr ⟨(Count.le_leastPower (degree + 1)).trans_lt h, rfl⟩,
    (Count.domainFor_eq_ok (Nat.succ_pos degree)).mpr ⟨h, rfl⟩⟩

/-- A sum or a difference is computed exactly when the operands can be joined. -/
theorem Shaped.combine_iff (hp : p.Shaped) (hq : q.Shaped) (hsize : p.size < 2 ^ 64)
    (f : Felt k → Felt k → Felt k) (degree : Nat) :
    (∃ r, combine f degree p q = .ok r) ↔ Joinable degree p q := by
  constructor
  · rintro ⟨r, hr⟩
    obtain ⟨n, hn, hr⟩ := bind_eq_ok.mp hr
    obtain ⟨-, rfl⟩ := add_one_eq_ok.mp hn
    obtain ⟨s, hs, hr⟩ := bind_eq_ok.mp hr
    obtain ⟨-, rfl⟩ := (Count.domainFor_eq_ok (Nat.succ_pos degree)).mp hs
    obtain ⟨p', hp', hr⟩ := bind_eq_ok.mp hr
    obtain ⟨q', hq', -⟩ := bind_eq_ok.mp hr
    exact (joinable_iff hp hq degree).mpr ⟨⟨p', hp'⟩, q', hq'⟩
  · intro h
    obtain ⟨hadd, hdomain⟩ := domainFor_of_lt (h.leastPower_lt hsize)
    obtain ⟨⟨p', hp'⟩, q', hq'⟩ := (joinable_iff hp hq degree).mp h
    rw [combine, hadd, ok_bind, hdomain, ok_bind]
    exact ⟨_, bind_eq_ok.mpr ⟨p', hp', bind_eq_ok.mpr ⟨q', hq', rfl⟩⟩⟩

/-- A product is computed exactly when the operands can be joined at the sum of the degrees. -/
theorem Shaped.mul_iff (hp : p.Shaped) (hq : q.Shaped) (hsize : p.size < 2 ^ 64) :
    (∃ r, p.mul q = .ok r) ↔ Joinable (p.degree + q.degree) p q := by
  rw [← hp.combine_iff hq hsize (· * ·)]
  constructor
  · rintro ⟨r, hr⟩
    obtain ⟨n, hn, hr⟩ := bind_eq_ok.mp hr
    obtain ⟨-, rfl⟩ := Count.check_eq_ok.mp hn
    exact ⟨r, hr⟩
  · rintro ⟨r, hr⟩
    obtain ⟨n, hn, -⟩ := bind_eq_ok.mp hr
    obtain ⟨hlt, -⟩ := add_one_eq_ok.mp hn
    have hadd : Count.add p.degree q.degree = .ok (p.degree + q.degree) :=
      Count.check_of_lt (Nat.lt_of_succ_lt hlt)
    exact ⟨r, bind_eq_ok.mpr ⟨_, hadd, hr⟩⟩

/-- A power is computed exactly when its base can be resized for the multiplied degree. -/
theorem Shaped.pow_iff (hp : p.Shaped) (hsize : p.size < 2 ^ 64) (n : Nat) :
    (∃ r, p.pow n = .ok r) ↔ Joinable (p.degree * n) p p := by
  have hjoined : joinedSize (p.degree * n) p p =
      max (Count.leastPower (p.degree * n + 1)) p.size := by
    rw [joinedSize, max_assoc, max_self]
  constructor
  · rintro ⟨r, hr⟩
    obtain ⟨degree, hdegree, hr⟩ := bind_eq_ok.mp hr
    obtain ⟨-, rfl⟩ := Count.check_eq_ok.mp hdegree
    obtain ⟨m, hm, hr⟩ := bind_eq_ok.mp hr
    obtain ⟨-, rfl⟩ := add_one_eq_ok.mp hm
    obtain ⟨s, hs, hr⟩ := bind_eq_ok.mp hr
    obtain ⟨-, rfl⟩ := (Count.domainFor_eq_ok (Nat.succ_pos _)).mp hs
    obtain ⟨base, hbase, -⟩ := bind_eq_ok.mp hr
    rw [← hjoined] at hbase
    exact (joinable_iff hp hp _).mpr ⟨⟨base, hbase⟩, base, hbase⟩
  · intro h
    obtain ⟨hadd, hdomain⟩ := domainFor_of_lt (h.leastPower_lt hsize)
    obtain ⟨⟨base, hbase⟩, -⟩ := (joinable_iff hp hp _).mp h
    have hmul : Count.mul p.degree n = .ok (p.degree * n) :=
      Count.check_of_lt (Nat.lt_of_succ_lt (add_one_eq_ok.mp hadd).1)
    rw [hjoined] at hbase
    rw [pow, hmul, ok_bind, hadd, ok_bind, hdomain, ok_bind]
    exact ⟨_, bind_eq_ok.mpr ⟨base, hbase, rfl⟩⟩

/-- The larger degree asks for no more points than there are. -/
theorem joinable_max_iff (hp : p.Shaped) (hq : q.Shaped) :
    Joinable (max p.degree q.degree) p q ↔ max p.size q.size ≤ 2 ^ k.twoAdicity ∨
      p.size = q.size := by
  have hleast : Count.leastPower (max p.degree q.degree + 1) ≤ max p.size q.size :=
    (Count.isLeast_leastPower _).2 ⟨Count.isPowerOfTwo_max hp.isPowerOfTwo hq.isPowerOfTwo,
      max_lt_max hp.degree_lt hq.degree_lt⟩
  have hjoined : joinedSize (max p.degree q.degree) p q = max p.size q.size := by
    rw [joinedSize, max_assoc, max_eq_right hleast]
  rw [Joinable, hjoined]
  refine or_congr_right ⟨fun h => h.1.trans h.2.symm, fun h => ?_⟩
  rw [h, max_self]
  exact ⟨rfl, rfl⟩

/-! ### Constraints over the columns of a table -/

/-- The operations make point values from those that are made. -/
theorem made_algebra :
    (PointValues.algebra k).Related (fun x _ => ∀ r, x = .ok r → Made Read r)
      (PointValues.algebra k) where
  constant c r hr := .constant hr
  sum hx hy r hr := by
    obtain ⟨p, hp, hr⟩ := bind_eq_ok.mp hr
    obtain ⟨q, hq, hr⟩ := bind_eq_ok.mp hr
    exact .add (hx p hp) (hy q hq) hr
  difference hx hy r hr := by
    obtain ⟨p, hp, hr⟩ := bind_eq_ok.mp hr
    obtain ⟨q, hq, hr⟩ := bind_eq_ok.mp hr
    exact .sub (hx p hp) (hy q hq) hr
  product hx hy r hr := by
    obtain ⟨p, hp, hr⟩ := bind_eq_ok.mp hr
    obtain ⟨q, hq, hr⟩ := bind_eq_ok.mp hr
    exact .mul (hx p hp) (hy q hq) hr
  scaled c hx r hr := by
    obtain ⟨p, hp, rfl⟩ := bind_pure_eq_ok.mp hr
    exact .scale (hx p hp) c.felt
  power n hx r hr := by
    obtain ⟨p, hp, hr⟩ := bind_eq_ok.mp hr
    exact .pow (hx p hp) hr

end PointValues

open PointValues (Made)

variable {Read : PointValues k → Prop} {t : Table k} {cols : PolyColumns (PointValues k)}

theorem Table.made_value (h : t.pointValues = .ok cols) (v : Variable) {r : PointValues k}
    (hr : cols.value v = .ok r) : Made Read r := by
  obtain ⟨regions, hregions, rfl⟩ := bind_pure_eq_ok.mp h
  obtain ⟨p, hp, hr⟩ := bind_eq_ok.mp hr
  have hcolumn : Made Read p := by
    obtain ⟨-, hpoly⟩ :=
      Matrix.getElem?_columns (Regions.mapM_eq_ok hregions _) (PolyColumns.column_eq_ok.mp hp)
    split at hpoly
    · cases hpoly
    · exact .ofValues hpoly
  split at hr
  · obtain rfl := Except.ok.inj hr
    exact hcolumn
  · exact .rotated hcolumn hr

/-- A constraint over the columns of a table is made without reading anything. -/
theorem Expr.made_pointValues {e : Expr k} {q : PointValues k}
    (h : (do e.pointValues (← t.pointValues)) = .ok q) : Made Read q := by
  obtain ⟨cols, hcols, hq⟩ := bind_eq_ok.mp h
  exact @valueOf_related k _ _ _ _ _ PointValues.made_algebra cols.value cols.value e
    (fun v _ _ hr => Table.made_value hcols v hr) q (valueOf_of_overColumns hq)

namespace PointValues

/-- **The shape of point values.**  What is made by the operations has the shape, if what is read
has it; so have constraints over the columns of a table.  But a text or bytes give any values with
any degree, and values without the shape fault.  On values with the shape every operation answers
exactly for the sizes that it is there for, up to those that the field has domains of. -/
theorem shape_of_made (k : BaseField) :
    (∀ Read : PointValues k → Prop, (∀ p, Read p → p.Shaped) → ∀ p, Made Read p → p.Shaped) ∧
    (∀ (e : Expr k) (t : Table k) p, (do e.pointValues (← t.pointValues)) = .ok p → p.Shaped) ∧
    (∀ p : PointValues k, p.degree < 2 ^ 64 → p.size < 2 ^ 64 → InText p ∧ InBytes p) ∧
    (∀ p : PointValues k, ¬ Count.IsPowerOfTwo p.size → p.coefficients = .error .assertion ∧
      (p.size = 0 → ∀ rotation n, 0 < n → p.rotated rotation n = .error .overflow)) ∧
    ∀ p : PointValues k, p.Shaped → p.size < 2 ^ 64 →
      ((∃ c, p.coefficients = .ok c) ↔ p.size ≤ 2 ^ k.twoAdicity) ∧
      (∀ n, (∃ r, p.resize n = .ok r) ↔
        n = p.size ∨ Count.IsPowerOfTwo n ∧ p.degree < n ∧ max p.size n ≤ 2 ^ k.twoAdicity) ∧
      (∀ rotation n, (∃ r, p.rotated rotation n = .ok r) ↔ 0 < n ∧ n ∣ p.size) ∧
      (∀ n, (∃ r, p.pow n = .ok r) ↔ Joinable (p.degree * n) p p) ∧
      ∀ q : PointValues k, q.Shaped →
        ((∃ r, p.add q = .ok r) ↔ max p.size q.size ≤ 2 ^ k.twoAdicity ∨ p.size = q.size) ∧
        ((∃ r, p.sub q = .ok r) ↔ max p.size q.size ≤ 2 ^ k.twoAdicity ∨ p.size = q.size) ∧
        ((∃ r, p.mul q = .ok r) ↔ Joinable (p.degree + q.degree) p q) := by
  refine ⟨fun Read hread p h => h.shaped hread, fun e t p h => ?_,
    fun p hdegree hsize => ⟨inText_of_degree_lt hdegree, inBytes_of_lt hdegree hsize⟩,
    fun p h => ⟨coefficients_of_not_isPowerOfTwo h, fun hsize rotation n => ?_⟩,
    fun p hp hsize => ⟨hp.coefficients_iff, hp.resize_iff, hp.rotated_iff, hp.pow_iff hsize,
      fun q hq => ⟨?_, ?_, hp.mul_iff hq hsize⟩⟩⟩
  · have hmade : Made (fun _ => False) p := Expr.made_pointValues h
    exact hmade.shaped fun _ => False.elim
  · exact rotated_of_size_eq_zero hsize rotation
  · exact (hp.combine_iff hq hsize _ _).trans (joinable_max_iff hp hq)
  · exact (hp.combine_iff hq hsize _ _).trans (joinable_max_iff hp hq)

/-- Three values, with a degree that they are too few for. -/
def threeOfNine : PointValues .goldilocks := ⟨9, [Felt.ofNat 1, Felt.ofNat 2, Felt.ofNat 3]⟩

/-- Two polynomials with the shape, and one without it that texts and bytes give. -/
theorem shape_of_made_four :
    (oneToFour.Shaped ∧ fiveAndSeven.Shaped) ∧
    ((∃ c, oneToFour.coefficients = .ok c) ∧ (∃ r, oneToFour.resize 16 = .ok r) ∧
      (∃ r, oneToFour.rotated (-1) 2 = .ok r) ∧ (∃ r, oneToFour.pow 5 = .ok r) ∧
      (∃ r, oneToFour.sub fiveAndSeven = .ok r) ∧ ∃ r, oneToFour.mul fiveAndSeven = .ok r) ∧
    (InText threeOfNine ∧ InBytes threeOfNine) ∧ ¬ threeOfNine.Shaped ∧
    threeOfNine.coefficients = .error .assertion := by
  obtain ⟨-, -, hread, hfaults, hanswers⟩ := shape_of_made .goldilocks
  have hp : oneToFour.Shaped := ⟨by decide, by decide⟩
  have hq : fiveAndSeven.Shaped := ⟨by decide, by decide⟩
  have hthree : ¬ Count.IsPowerOfTwo threeOfNine.size := by decide
  obtain ⟨hcoefficients, hresize, hrotated, hpow, hbinary⟩ := hanswers oneToFour hp (by decide)
  obtain ⟨-, hsub, hmul⟩ := hbinary fiveAndSeven hq
  refine ⟨⟨hp, hq⟩, ⟨hcoefficients.mpr (by decide), (hresize 16).mpr (.inr (by decide)),
    (hrotated (-1) 2).mpr (by decide), (hpow 5).mpr (.inl (by decide)), hsub.mpr (.inl (by decide)),
    hmul.mpr (.inl (by decide))⟩, hread threeOfNine (by decide) (by decide),
    fun h => hthree h.isPowerOfTwo, (hfaults threeOfNine hthree).1⟩

end PointValues

end Plonkish
