import Plonkish.Proofs.Homomorphism

/-!
# Proofs — domains as groups

The points of a domain are the solutions of `x ^ size = 1`, each listed once, and the exponents of
`omega` add up, so the points are a cyclic group; a rotation is a point that is named by a signed
exponent.

* `Domain.mem_elements_iff` and `Domain.nodup_elements`: which points are listed.
* `Domain.element_mul` and `Domain.rotationFactor_add`: products are sums of exponents.
* `Domain.nested_groups` is for every power of two that the field has a domain of, with the points
  of the smaller domains found in it.
-/

namespace Plonkish

namespace Domain

variable {k : BaseField}

theorem element_mul (d : Domain k) (i j : Nat) : d.element i * d.element j = d.element (i + j) := by
  rw [element_eq, element_eq, element_eq, pow_add]

/-- No point is listed twice. -/
theorem nodup_elements (d : Domain k) : d.elements.Nodup := by
  rw [elements_eq_map]
  refine List.Nodup.map_on (fun i hi j hj hij => ?_) List.nodup_range
  exact d.element_injOn (by simpa using hi) (by simpa using hj) hij

/-- The points are all the roots of unity of the order. -/
theorem mem_elements_iff (d : Domain k) (x : Felt k) : x ∈ d.elements ↔ x ^ d.size = 1 := by
  rw [elements_eq_map, List.mem_map]
  constructor
  · rintro ⟨i, -, rfl⟩
    rw [element_eq, ← pow_mul, mul_comm, pow_mul, d.omega_pow_size, one_pow]
  · intro hx
    have : NeZero d.size := ⟨d.size_pos.ne'⟩
    obtain ⟨i, hi, rfl⟩ := d.isPrimitiveRoot_omega.eq_pow_of_pow_eq_one hx
    exact ⟨i, List.mem_range.mpr hi, d.element_eq i⟩

/-- The points of a smaller domain, by the logarithms of the sizes. -/
theorem element_mul_two_pow {d e : Domain k} (h : d.log ≤ e.log) (i : Nat) :
    e.element (i * 2 ^ (e.log - d.log)) = d.element i := by
  have hle : d.size ≤ e.size := by
    rw [size_eq, size_eq]
    exact Nat.pow_le_pow_right Nat.two_pos h
  rw [mul_comm, ← Nat.pow_div h Nat.two_pos, ← size_eq, ← size_eq, element_mul_div hle]

/-- **Domains are nested cyclic groups.**  For every power of two that the field has roots of unity
for there is a domain; its points are listed in the order of their exponents, are pairwise different
and are all the roots of unity of its size; the exponents of a product add up, for points and for
rotations; and the points of each smaller domain are points of it, a fixed number of exponents
apart. -/
theorem nested_groups {n : Nat} (hn : n ≤ k.twoAdicity) :
    ∃ d, ofSize k (2 ^ n) = .ok d ∧
      d.elements = (List.range (2 ^ n)).map d.element ∧ d.elements.Nodup ∧
      (∀ x, x ∈ d.elements ↔ x ^ 2 ^ n = 1) ∧
      (∀ i j, d.element i * d.element j = d.element (i + j)) ∧
      (∀ r s, d.rotationFactor r * d.rotationFactor s = d.rotationFactor (r + s)) ∧
      ∀ m ≤ n, ∃ e, ofSize k (2 ^ m) = .ok e ∧ ∀ i, e.element i = d.element (i * 2 ^ (n - m)) := by
  set d : Domain k := ⟨n, hn⟩
  have hsize : d.size = 2 ^ n := d.size_eq
  refine ⟨d, hsize ▸ d.ofSize_size, hsize ▸ d.elements_eq_map, d.nodup_elements,
    hsize ▸ d.mem_elements_iff, d.element_mul, fun r s => (d.rotationFactor_add r s).symm,
    fun m hm => ?_⟩
  let e : Domain k := ⟨m, hm.trans hn⟩
  exact ⟨e, e.size_eq ▸ e.ofSize_size, fun i => (element_mul_two_pow (d := e) (e := d) hm i).symm⟩

/-- The largest domain of BabyBear, whose points are `2 ^ 27` roots of unity, and the four points of
a small one in it. -/
theorem nested_groups_largest :
    27 ≤ BaseField.babyBear.twoAdicity ∧
    ∃ d e, ofSize .babyBear (2 ^ 27) = .ok d ∧ ofSize .babyBear 4 = .ok e ∧ d.elements.Nodup ∧
      d.rotationFactor (-1) * d.rotationFactor 3 = d.rotationFactor 2 ∧
      e.element 3 = d.element (3 * 2 ^ 25) := by
  refine ⟨by decide, ?_⟩
  obtain ⟨d, hd, -, hnodup, -, -, hrotation, hsmaller⟩ :=
    nested_groups (k := .babyBear) (n := 27) (by decide)
  obtain ⟨e, he, hpoints⟩ := hsmaller 2 (by decide)
  exact ⟨d, e, hd, he, hnodup, hrotation (-1) 3, hpoints 3⟩

end Domain

end Plonkish
