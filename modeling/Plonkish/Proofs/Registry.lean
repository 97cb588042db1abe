import Mathlib.Data.List.Forall2
import Plonkish.Circuit.Basic
import Plonkish.Proofs.Operators

/-!
# Proofs — registering gates

A circuit is `Registered` if each gate stands at the place its selector names and the table of
selectors leads from constraints to a gate with the same constraints.  The constraints of the gate
that is found may differ from those looked for in the words of their coefficients, but have the same
variables and values (`Gate.value_eq_zero_of_beq`, `Gate.occurrences_of_beq`).

`Circuit.addGates` registers the gates of a gadget one after the other.  The gates that were there
stay, and each of the new ones has its constraints from the gadget (`Circuit.Grows`), and the
selectors lead to them (`Circuit.Registered.addGates`).
-/

namespace Plonkish

variable {k : BaseField}

/-! ### Lists of expressions -/

section Lists

variable {α : Type} [BEq α]

/-- Lists are equal if their entries are, one by one. -/
theorem beq_iff_forall₂ {l m : List α} : l == m ↔ List.Forall₂ (fun a b => a == b) l m := by
  induction l generalizing m with
  | nil =>
      cases m with
      | nil => exact iff_of_true rfl .nil
      | cons b m => exact iff_of_false Bool.false_ne_true nofun
  | cons a l ih =>
      cases m with
      | nil => exact iff_of_false Bool.false_ne_true nofun
      | cons b m => rw [List.cons_beq_cons, Bool.and_eq_true, ih, List.forall₂_cons]

/-- Lists with equal entries form classes, as the entries do. -/
theorem forall₂_trans [EquivBEq α] {l m n : List α} (h : List.Forall₂ (fun a b => a == b) l m)
    (h' : List.Forall₂ (fun a b => a == b) m n) : List.Forall₂ (fun a b => a == b) l n := by
  induction h generalizing n with
  | nil => exact h'
  | cons hab _ ih =>
      cases h' with
      | cons hbc h' => exact .cons (BEq.trans hab hbc) (ih h')

instance equivBEqList [EquivBEq α] : EquivBEq (List α) where
  rfl := beq_iff_forall₂.mpr (List.forall₂_same.mpr fun _ _ => BEq.rfl)
  symm h := beq_iff_forall₂.mpr ((beq_iff_forall₂.mp h).flip.imp fun _ _ => BEq.symm)
  trans h h' := beq_iff_forall₂.mpr (forall₂_trans (beq_iff_forall₂.mp h) (beq_iff_forall₂.mp h'))

/-- Equal lists have equal hashes, whatever the hash starts from. -/
theorem foldl_hash_eq [Hashable α] [LawfulHashable α] {l m : List α}
    (h : List.Forall₂ (fun a b => a == b) l m) (seed : UInt64) :
    l.foldl (fun r a => mixHash r (hash a)) seed =
      m.foldl (fun r a => mixHash r (hash a)) seed := by
  induction h generalizing seed with
  | nil => rfl
  | cons hab _ ih => rw [List.foldl_cons, List.foldl_cons, hash_eq hab, ih]

instance lawfulHashableList [Hashable α] [LawfulHashable α] : LawfulHashable (List α) where
  hash_eq _ _ h := foldl_hash_eq (beq_iff_forall₂.mp h) 7

end Lists

namespace Gate

variable {g : Gate k} {constraints : List (Expr k)}

/-- A gate that was found by equal constraints has the same ones, up to equality. -/
theorem exists_same_of_beq (h : g.constraints == constraints) {e : Expr k}
    (he : e ∈ g.constraints) :
    ∃ e' ∈ constraints, e.same e' := by
  obtain ⟨i, hi, rfl⟩ := List.getElem_of_mem he
  have hall := beq_iff_forall₂.mp h
  have hi' : i < constraints.length := hall.length_eq ▸ hi
  exact ⟨constraints.get ⟨i, hi'⟩, List.get_mem _ _, hall.get hi hi'⟩

/-- Each constraint that was asked for is, up to equality, one of the gate that was found. -/
theorem exists_same_of_mem (h : g.constraints == constraints) {e : Expr k} (he : e ∈ constraints) :
    ∃ e' ∈ g.constraints, e'.same e := by
  obtain ⟨i, hi, rfl⟩ := List.getElem_of_mem he
  have hall := beq_iff_forall₂.mp h
  have hi' : i < g.constraints.length := hall.length_eq ▸ hi
  exact ⟨g.constraints.get ⟨i, hi'⟩, List.get_mem _ _, hall.get hi' hi⟩

/-- A gate that was found by constraints that vanish has ones that do. -/
theorem value_eq_zero_of_beq (h : g.constraints == constraints) {valuation : Variable → Felt k}
    (hzero : ∀ e ∈ constraints, e.value valuation = 0) :
    ∀ e ∈ g.constraints, e.value valuation = 0 := by
  intro e he
  obtain ⟨e', he', hsame⟩ := exists_same_of_beq h he
  rw [Expr.value_eq_of_same hsame, hzero e' he']

/-- It names no other variables than they do. -/
theorem occurrences_of_beq (h : g.constraints == constraints) {e : Expr k} (he : e ∈ g.constraints)
    {v : Variable} (hv : v ∈ e.occurrences) : ∃ e' ∈ constraints, v ∈ e'.occurrences := by
  obtain ⟨e', he', hsame⟩ := exists_same_of_beq h he
  exact ⟨e', he', Expr.occurrences_eq_of_same hsame ▸ hv⟩

end Gate

namespace Circuit

/-! ### Circuits in order -/

/-- The gates stand in the order of their selectors and are found by their constraints. -/
structure Registered (c : Circuit k) : Prop where
  /-- Each gate stands at the place its selector names. -/
  selector_eq {i : Nat} {g : Gate k} : c.gates[i]? = some g → g.selector = i
  /-- The selector of registered constraints is that of a gate with the same ones. -/
  found {constraints : List (Expr k)} {s : Nat} : c.selectors[constraints]? = some s →
    ∃ g, c.gates[s]? = some g ∧ g.constraints == constraints

/-- A circuit without gates is registered. -/
theorem registered_empty : (empty : Circuit k).Registered where
  selector_eq h := by simp [empty] at h
  found h := by simp [empty] at h

/-- No two gates share a selector. -/
theorem Registered.eq_of_selector_eq {c : Circuit k} (h : c.Registered) {g g' : Gate k}
    (hg : g ∈ c.gates) (hg' : g' ∈ c.gates) (hs : g.selector = g'.selector) : g = g' := by
  obtain ⟨i, hi⟩ := Array.mem_iff_getElem?.mp hg
  obtain ⟨j, hj⟩ := Array.mem_iff_getElem?.mp hg'
  rw [h.selector_eq hi, h.selector_eq hj] at hs
  subst hs
  exact Option.some.inj (hi.symm.trans hj)

/-- The gates of one circuit are among those of another, and the new ones have constraints from a
list. -/
structure Grows (c c' : Circuit k) (new : List (List (Expr k))) : Prop where
  /-- The gates stay where they are. -/
  kept {i : Nat} {g : Gate k} : c.gates[i]? = some g → c'.gates[i]? = some g
  /-- A new gate has constraints from the list. -/
  from_new {g : Gate k} : g ∈ c'.gates → g ∈ c.gates ∨ g.constraints ∈ new
  /-- The copy constraints stay. -/
  copies_eq : c'.copies = c.copies
  /-- There is at most one gate for each entry of the list. -/
  size_le : c'.gates.size ≤ c.gates.size + new.length

/-- A circuit that grows twice grows by all the constraints that were added. -/
theorem Grows.trans {c c' c'' : Circuit k} {new new' : List (List (Expr k))}
    (h : c.Grows c' new) (h' : c'.Grows c'' new') : c.Grows c'' (new ++ new') where
  kept hi := h'.kept (h.kept hi)
  from_new hg := by
    rcases h'.from_new hg with hg | hg
    · exact (h.from_new hg).imp_right fun hg => List.mem_append_left _ hg
    · exact .inr (List.mem_append_right _ hg)
  copies_eq := h'.copies_eq.trans h.copies_eq
  size_le := by
    have hle := h.size_le
    have hle' := h'.size_le
    rw [List.length_append]
    omega

/-- Gates are not taken away. -/
theorem Grows.size_mono {c c' : Circuit k} {new : List (List (Expr k))} (h : c.Grows c' new) :
    c.gates.size ≤ c'.gates.size := by
  by_contra hlt
  have hlast := h.kept (Array.getElem?_eq_getElem (not_le.mp hlt))
  exact absurd (Array.getElem?_eq_some_iff.mp hlast).1 (lt_irrefl _)

/-- A gate whose selector was there before is not new. -/
theorem Registered.mem_of_selector_lt {c c' : Circuit k} {new : List (List (Expr k))}
    (h : c'.Registered) (hgrows : c.Grows c' new) {g : Gate k} (hg : g ∈ c'.gates)
    (hlt : g.selector < c.gates.size) : g ∈ c.gates := by
  have hold := Array.getElem?_eq_getElem hlt
  have hsame : g = c.gates[g.selector] :=
    h.eq_of_selector_eq hg (Array.mem_of_getElem? (hgrows.kept hold))
      (h.selector_eq (hgrows.kept hold)).symm
  exact hsame ▸ Array.getElem_mem hlt

/-! ### One gate -/

/-- The gate that a selector leads to has given constraints. -/
def Leads (c : Circuit k) (constraints : List (Expr k)) (s : Nat) : Prop :=
  ∃ g, c.gates[s]? = some g ∧ g.constraints == constraints

/-- A selector leads to the same gate in a larger circuit. -/
theorem Leads.mono {c c' : Circuit k} {new : List (List (Expr k))} (h : c.Grows c' new)
    {constraints : List (Expr k)} {s : Nat} (hs : c.Leads constraints s) : c'.Leads constraints s :=
  hs.imp fun _ hg => ⟨h.kept hg.1, hg.2⟩

/-- A selector that leads to a gate is one of the circuit. -/
theorem Leads.lt {c : Circuit k} {constraints : List (Expr k)} {s : Nat}
    (h : c.Leads constraints s) : s < c.gates.size := by
  obtain ⟨g, hg, -⟩ := h
  exact (Array.getElem?_eq_some_iff.mp hg).1

/-- Each selector that came back leads to the gate that was asked for in its place. -/
theorem exists_leads {c : Circuit k} {new : List (List (Expr k))} {selectors : List Nat}
    (h : List.Forall₂ c.Leads new selectors) {i s : Nat} (hs : selectors[i]? = some s) :
    ∃ constraints, new[i]? = some constraints ∧ c.Leads constraints s := by
  obtain ⟨hi, rfl⟩ := List.getElem?_eq_some_iff.mp hs
  have hi' : i < new.length := h.length_eq ▸ hi
  exact ⟨new[i], List.getElem?_eq_getElem hi', h.get hi' hi⟩

/-- **Registering a gate** that is new or not. -/
theorem Registered.addGate {c : Circuit k} (h : c.Registered) (constraints : List (Expr k)) :
    (c.addGate constraints).2.Registered ∧ c.Grows (c.addGate constraints).2 [constraints] ∧
      (c.addGate constraints).2.Leads constraints (c.addGate constraints).1 := by
  unfold Circuit.addGate
  split
  · next s hs => exact ⟨h, ⟨id, .inl, rfl, Nat.le_add_right _ _⟩, h.found hs⟩
  · next hnone =>
      have hlast : (c.gates.push ⟨c.gates.size, constraints⟩)[c.gates.size]? =
          some ⟨c.gates.size, constraints⟩ := Array.getElem?_push_size
      have hkept : ∀ {i : Nat} {g : Gate k}, c.gates[i]? = some g →
          (c.gates.push ⟨c.gates.size, constraints⟩)[i]? = some g := by
        intro i g hg
        rw [Array.getElem?_push_lt (Array.getElem?_eq_some_iff.mp hg).1]
        exact congrArg some (Array.getElem?_eq_some_iff.mp hg).2
      refine ⟨⟨?_, ?_⟩, ⟨hkept, ?_, rfl, ?_⟩, _, hlast, BEq.rfl⟩
      -- The new gate stands last, at the place that its selector names.
      · intro i g hg
        by_cases hi : i = c.gates.size
        · subst hi
          obtain rfl := Option.some.inj (hlast.symm.trans hg)
          rfl
        · have hlt : i < c.gates.size := by
            have hlt := (Array.getElem?_eq_some_iff.mp hg).1
            rw [Array.size_push] at hlt
            omega
          rw [Array.getElem?_push_lt hlt] at hg
          exact h.selector_eq (Array.getElem?_eq_some_iff.mpr ⟨hlt, Option.some.inj hg⟩)
      -- The table of selectors leads to it from the same constraints, and is as before otherwise.
      · intro other s hs
        rw [Std.HashMap.getElem?_insert] at hs
        split at hs
        · next hsame =>
            obtain rfl := Option.some.inj hs
            exact ⟨_, hlast, hsame⟩
        · obtain ⟨g, hg, hsame⟩ := h.found hs
          exact ⟨g, hkept hg, hsame⟩
      · intro g hg
        rcases Array.mem_push.mp hg with hg | rfl
        · exact .inl hg
        · exact .inr List.mem_cons_self
      · rw [Array.size_push]
        rfl

/-! ### The gates of a gadget -/

/-- The selectors of some gates, which are registered one after the other if they are new. -/
def addGates (c : Circuit k) : List (List (Expr k)) → List Nat × Circuit k
  | [] => ([], c)
  | constraints :: rest =>
    let (s, c) := c.addGate constraints
    let (selectors, c) := c.addGates rest
    (s :: selectors, c)

/-- Gates are added from the first one on, each to the circuit that the ones before it left. -/
theorem addGates_cons (c : Circuit k) (constraints : List (Expr k)) (rest : List (List (Expr k))) :
    c.addGates (constraints :: rest) =
      ((c.addGate constraints).1 :: ((c.addGate constraints).2.addGates rest).1,
        ((c.addGate constraints).2.addGates rest).2) := rfl

theorem size_le_addGate (c : Circuit k) (constraints : List (Expr k)) :
    c.gates.size ≤ (c.addGate constraints).2.gates.size := by
  unfold Circuit.addGate
  split
  · exact le_rfl
  · rw [Array.size_push]
    exact Nat.le_succ _

/-- Adding gates does not take gates away. -/
theorem size_le_addGates (c : Circuit k) (new : List (List (Expr k))) :
    c.gates.size ≤ (c.addGates new).2.gates.size := by
  induction new generalizing c with
  | nil => exact le_rfl
  | cons constraints rest ih => exact (c.size_le_addGate constraints).trans (ih _)

/-- **Registering the gates of a gadget.** -/
theorem Registered.addGates {c : Circuit k} (h : c.Registered) (new : List (List (Expr k))) :
    (c.addGates new).2.Registered ∧ c.Grows (c.addGates new).2 new ∧
      List.Forall₂ (c.addGates new).2.Leads new (c.addGates new).1 := by
  induction new generalizing c with
  | nil => exact ⟨h, ⟨id, .inl, rfl, le_rfl⟩, .nil⟩
  | cons constraints rest ih =>
      obtain ⟨hreg, hgrows, hleads⟩ := h.addGate constraints
      obtain ⟨hreg', hgrows', hleads'⟩ := ih hreg
      rw [addGates_cons]
      exact ⟨hreg', hgrows.trans hgrows', .cons (hleads.mono hgrows') hleads'⟩

end Circuit

end Plonkish
