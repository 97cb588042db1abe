import Mathlib.Algebra.Group.Nat.Defs
import Mathlib.Data.List.Forall2
import Mathlib.Order.Monotone.Basic
import Mathlib.Tactic.Common
import Plonkish.Fault

/-!
# Proofs — calls that answer

A sequence of calls answers exactly if each of them does: `bind_eq_ok` takes two calls apart,
`mapM_eq_ok` a call for each entry of a list.  Calls for the entries of a list fail exactly if there
is a first one that does (`mapM_eq_error`, with `FirstFailure` for the entry).  `Count.check_eq_ok`
and the lemmas after it say when a count fits, and what it is then.  `Count.le_leastPower` and
`Count.leastPower_le` say of `Count.leastPower` that it is the least power of two.
`Variable.absolute_eq_ok` is the variable at a fixed row.
-/

namespace Plonkish

/-! ### Sequences of calls -/

section Calls

variable {ε ε' α β : Type}

@[simp] theorem ok_bind (a : α) (f : α → Except ε β) : Except.ok a >>= f = f a := rfl

@[simp] theorem error_bind (e : ε) (f : α → Except ε β) : Except.error e >>= f = .error e := rfl

/-- A program with a state goes on from where its first part ended. -/
theorem run_bind_of_ok {σ : Type} {d : StateT σ (Except ε) α} {f : α → StateT σ (Except ε) β}
    {s s' : σ} {a : α} (h : d s = .ok (a, s')) : (d >>= f) s = f a s' :=
  congrArg (· >>= fun read : α × σ => f read.1 read.2) h

theorem run_bind_of_error {σ : Type} {d : StateT σ (Except ε) α}
    {f : α → StateT σ (Except ε) β} {s : σ} {e : ε} (h : d s = .error e) : (d >>= f) s = .error e :=
  congrArg (· >>= fun read : α × σ => f read.1 read.2) h

/-- Two steps succeed when the first does and the second does on its answer. -/
theorem bind_eq_ok {x : Except ε α} {f : α → Except ε β} {b : β} :
    (x >>= f) = .ok b ↔ ∃ a, x = .ok a ∧ f a = .ok b := by
  cases x with
  | error e => exact ⟨nofun, fun ⟨_, h, _⟩ => nomatch h⟩
  | ok a => exact ⟨fun h => ⟨a, rfl, h⟩, fun ⟨_, h, hb⟩ => Except.ok.inj h ▸ hb⟩

/-- Two steps fail at the first one that fails. -/
theorem bind_eq_error {x : Except ε α} {f : α → Except ε β} {e : ε} :
    (x >>= f) = .error e ↔ x = .error e ∨ ∃ a, x = .ok a ∧ f a = .error e := by
  cases x with
  | error e' => exact ⟨fun h => .inl (congrArg _ (Except.error.inj h)), fun h => h.elim
      (fun h => congrArg _ (Except.error.inj h)) nofun⟩
  | ok a => exact ⟨fun h => .inr ⟨a, rfl, h⟩, fun h => h.elim nofun
      fun ⟨_, ha, h⟩ => Except.ok.inj ha ▸ h⟩

theorem bind_pure_eq_ok {x : Except ε α} {f : α → β} {b : β} :
    (do return f (← x)) = .ok b ↔ ∃ a, x = .ok a ∧ f a = b := by
  rw [bind_eq_ok]
  exact exists_congr fun a => and_congr_right fun _ => ⟨Except.ok.inj, congrArg _⟩

theorem map_eq_ok {x : Except ε α} {f : α → β} {b : β} :
    f <$> x = .ok b ↔ ∃ a, x = .ok a ∧ f a = b := by
  rw [map_eq_pure_bind]
  exact bind_pure_eq_ok

/-- A call answers exactly if it does with its answer mapped. -/
@[simp] theorem exists_map_eq_ok {x : Except ε α} {f : α → β} :
    (∃ b, f <$> x = .ok b) ↔ ∃ a, x = .ok a := by
  simp only [map_eq_ok]
  exact ⟨fun ⟨_, a, h, _⟩ => ⟨a, h⟩, fun ⟨a, h⟩ => ⟨f a, a, h, rfl⟩⟩

/-- To map the answer of a call does not change what it fails with. -/
@[simp] theorem map_eq_error {x : Except ε α} {f : α → β} {e : ε} :
    f <$> x = .error e ↔ x = .error e := by
  cases x with
  | error e' => exact ⟨fun h => congrArg _ (Except.error.inj h),
      fun h => congrArg _ (Except.error.inj h)⟩
  | ok a => exact ⟨nofun, nofun⟩

theorem mapError_map (x : Except ε α) (f : α → β) (g : ε → ε') :
    (f <$> x).mapError g = f <$> x.mapError g := by
  cases x <;> rfl

theorem mapError_eq_ok {x : Except ε α} {f : ε → ε'} {a : α} :
    x.mapError f = .ok a ↔ x = .ok a := by
  cases x with
  | error e => exact ⟨nofun, nofun⟩
  | ok b => exact ⟨fun h => congrArg _ (Except.ok.inj h), fun h => congrArg _ (Except.ok.inj h)⟩

theorem mapError_eq_error {x : Except ε α} {f : ε → ε'} {e' : ε'} :
    x.mapError f = .error e' ↔ ∃ e, x = .error e ∧ f e = e' := by
  cases x with
  | error e => exact ⟨fun h => ⟨e, rfl, Except.error.inj h⟩, fun ⟨_, he, h⟩ =>
      congrArg _ (Except.error.inj he ▸ h)⟩
  | ok a => exact ⟨nofun, nofun⟩

/-- To change what the calls for the entries of a list fail with is to change what the first failure
is. -/
theorem mapM_mapError (f : α → Except ε β) (g : ε → ε') (l : List α) :
    l.mapM (fun a => (f a).mapError g) = (l.mapM f).mapError g := by
  induction l with
  | nil => rfl
  | cons a l ih =>
      rw [List.mapM_cons, List.mapM_cons, ih]
      cases f a with
      | error e => rfl
      | ok b => cases l.mapM f <;> rfl

/-- A call for each entry of a list answers exactly if each of them does. -/
theorem mapM_eq_ok {f : α → Except ε β} {l : List α} {r : List β} :
    l.mapM f = .ok r ↔ List.Forall₂ (fun a b => f a = .ok b) l r := by
  induction l generalizing r with
  | nil =>
      rw [List.forall₂_nil_left_iff]
      exact ⟨fun h => by cases h; rfl, fun h => by rw [h]; rfl⟩
  | cons a l ih =>
      rw [List.mapM_cons, List.forall₂_cons_left_iff, bind_eq_ok]
      constructor
      · rintro ⟨b, hb, h⟩
        obtain ⟨s, hs, rfl⟩ := bind_pure_eq_ok.mp h
        exact ⟨b, s, hb, ih.mp hs, rfl⟩
      · rintro ⟨b, s, hb, hs, rfl⟩
        exact ⟨b, hb, bind_pure_eq_ok.mpr ⟨s, ih.mpr hs, rfl⟩⟩

/-- Calls that all answer, with the answers known beforehand. -/
theorem mapM_eq_map {f : α → Except ε β} {g : α → β} {l : List α} (h : ∀ a ∈ l, f a = .ok (g a)) :
    l.mapM f = .ok (l.map g) := by
  rw [mapM_eq_ok, List.forall₂_map_right_iff]
  exact List.forall₂_same.mpr h

/-- A run over a list succeeds when every step does. -/
theorem exists_mapM_eq_ok {f : α → Except ε β} {l : List α} :
    (∃ r, l.mapM f = .ok r) ↔ ∀ a ∈ l, ∃ b, f a = .ok b := by
  constructor
  · rintro ⟨r, hr⟩ a ha
    rw [mapM_eq_ok] at hr
    obtain ⟨i, hi, rfl⟩ := List.getElem_of_mem ha
    exact ⟨_, hr.get hi (hr.length_eq ▸ hi)⟩
  · intro h
    induction l with
    | nil => exact ⟨[], rfl⟩
    | cons a l ih =>
        obtain ⟨b, hb⟩ := h a List.mem_cons_self
        obtain ⟨r, hr⟩ := ih fun a ha => h a (List.mem_cons_of_mem _ ha)
        exact ⟨b :: r, mapM_eq_ok.mpr (.cons hb (mapM_eq_ok.mp hr))⟩

/-- Of the calls for the entries of a list from the front on, those for `before` answer, and then
the one for `a` fails. -/
@[mk_iff] structure FirstFailure (f : α → Except ε β) (l before : List α) (a : α) (err : ε) :
    Prop where
  /-- The entries up to the one that fails start the list. -/
  starts : before ++ [a] <+: l
  /-- The calls for the entries before it answer. -/
  answers : ∀ b ∈ before, ∃ c, f b = .ok c
  /-- The call for it fails. -/
  fails : f a = .error err

theorem firstFailure_nil {f : α → Except ε β} {before : List α} {a : α} {err : ε} :
    ¬ FirstFailure f [] before a err := fun h => by simpa using h.starts

/-- A first failure is still the first behind a step that succeeds. -/
theorem FirstFailure.cons {f : α → Except ε β} {l before : List α} {a b : α} {c : β} {err : ε}
    (h : FirstFailure f l before a err) (hb : f b = .ok c) :
    FirstFailure f (b :: l) (b :: before) a err where
  starts := (List.prefix_cons_inj b).mpr h.starts
  answers := List.forall_mem_cons.mpr ⟨⟨c, hb⟩, h.answers⟩
  fails := h.fails

/-- The calls for the entries of a list fail exactly if there is a first one that does. -/
theorem mapM_eq_error {f : α → Except ε β} {l : List α} {err : ε} :
    l.mapM f = .error err ↔ ∃ before a, FirstFailure f l before a err := by
  induction l with
  | nil => exact ⟨nofun, fun ⟨_, _, h⟩ => absurd h firstFailure_nil⟩
  | cons b l ih =>
      rw [List.mapM_cons, bind_eq_error]
      constructor
      · rintro (hb | ⟨c, hb, h⟩)
        · exact ⟨[], b, ⟨⟨l, rfl⟩, nofun, hb⟩⟩
        · rcases bind_eq_error.mp h with h | ⟨_, _, h⟩
          · obtain ⟨before, a, hfirst⟩ := ih.mp h
            exact ⟨b :: before, a, hfirst.cons hb⟩
          · cases h
      · rintro ⟨before, a, hfirst⟩
        cases before with
        | nil =>
            obtain ⟨rfl, -⟩ := List.cons_prefix_cons.mp hfirst.starts
            exact .inl hfirst.fails
        | cons b' before =>
            obtain ⟨rfl, hstarts⟩ := List.cons_prefix_cons.mp hfirst.starts
            obtain ⟨⟨c, hc⟩, hanswers⟩ := List.forall_mem_cons.mp hfirst.answers
            have htail := ih.mpr ⟨before, a, ⟨hstarts, hanswers, hfirst.fails⟩⟩
            exact .inr ⟨c, hc, bind_eq_error.mpr (.inl htail)⟩

/-- What holds of the answers, entry by entry. -/
theorem forall_mem_mapM {f : α → Except ε β} {l : List α} {r : List β} {Q : α → Prop} {B : β → Prop}
    (h : l.mapM f = .ok r) (hf : ∀ a ∈ l, ∀ b, f a = .ok b → (B b ↔ Q a)) :
    (∀ b ∈ r, B b) ↔ ∀ a ∈ l, Q a := by
  rw [mapM_eq_ok] at h
  induction h with
  | nil => exact ⟨fun _ _ ha => (nomatch ha), fun _ _ hb => (nomatch hb)⟩
  | @cons a b l r hab _ ih =>
      rw [List.forall_mem_cons, List.forall_mem_cons, hf a List.mem_cons_self b hab,
        ih fun a ha => hf a (List.mem_cons_of_mem _ ha)]

/-- A run over a list that always succeeds has all of its answers good exactly when each member is.
-/
theorem exists_mapM_iff {f : α → Except ε β} {l : List α} {Q : α → Prop} {B : β → Prop}
    (h : ∀ a ∈ l, ∃ b, f a = .ok b ∧ (B b ↔ Q a)) :
    ∃ r, l.mapM f = .ok r ∧ ((∀ b ∈ r, B b) ↔ ∀ a ∈ l, Q a) := by
  obtain ⟨r, hr⟩ := exists_mapM_eq_ok.mpr fun a ha => (h a ha).imp fun _ hb => hb.1
  refine ⟨r, hr, forall_mem_mapM hr ?_⟩
  intro a ha b hb
  obtain ⟨b', hb', hiff⟩ := h a ha
  obtain rfl := Except.ok.inj (hb.symm.trans hb')
  exact hiff

/-- The answers to the calls for the entries of a list have a property exactly if each call answers
with it. -/
theorem exists_mapM_forall {f : α → Except ε β} {l : List α} {B : β → Prop} :
    (∃ r, l.mapM f = .ok r ∧ ∀ b ∈ r, B b) ↔ ∀ a ∈ l, ∃ b, f a = .ok b ∧ B b := by
  constructor
  · rintro ⟨r, hr, hB⟩ a ha
    rw [mapM_eq_ok] at hr
    obtain ⟨i, hi, rfl⟩ := List.getElem_of_mem ha
    have hi' : i < r.length := hr.length_eq ▸ hi
    exact ⟨r.get ⟨i, hi'⟩, hr.get hi hi', hB _ (List.get_mem _ _)⟩
  · intro h
    obtain ⟨r, hr, hiff⟩ := exists_mapM_iff (Q := fun _ => True) fun a ha =>
      (h a ha).imp fun b hb => ⟨hb.1, iff_true_intro hb.2⟩
    exact ⟨r, hr, hiff.mpr fun _ _ => trivial⟩

/-- Two lists whose entries have the same answers, one by one. -/
theorem mapM_eq_ok_of_forall₂ {f : α → Except ε β} {l m : List α} {r : List β}
    (h : List.Forall₂ (fun a b => ∃ x, f a = .ok x ∧ f b = .ok x) l m) (hl : l.mapM f = .ok r) :
    m.mapM f = .ok r := by
  rw [mapM_eq_ok] at hl ⊢
  induction h generalizing r with
  | nil => exact List.forall₂_nil_left_iff.mp hl ▸ .nil
  | cons hpair _ ih =>
      obtain ⟨x, hfirst, hsecond⟩ := hpair
      obtain ⟨y, rest, hy, hrest, rfl⟩ := List.forall₂_cons_left_iff.mp hl
      obtain rfl := Except.ok.inj (hfirst.symm.trans hy)
      exact .cons hsecond (ih hrest)

end Calls

/-! ### Counts -/

namespace Count

theorem check_eq_ok {n m : Nat} : check n = .ok m ↔ n < 2 ^ 64 ∧ n = m := by
  unfold check
  split
  · next h => exact ⟨fun hm => ⟨h, Except.ok.inj hm⟩, fun hm => congrArg _ hm.2⟩
  · next h => exact ⟨nofun, fun hm => absurd hm.1 h⟩

theorem check_of_lt {n : Nat} (h : n < 2 ^ 64) : check n = .ok n := check_eq_ok.mpr ⟨h, rfl⟩

/-- A list can be allocated when its bytes stay below `2^63`. -/
theorem entries_eq_ok {bytes n m : Nat} :
    entries bytes n = .ok m ↔ n * bytes < 2 ^ 63 ∧ n = m := by
  unfold entries
  split
  · next h => exact ⟨fun hm => ⟨h, Except.ok.inj hm⟩, fun hm => congrArg _ hm.2⟩
  · next h => exact ⟨nofun, fun hm => absurd hm.1 h⟩

/-- The size that is chosen is a power of two. -/
theorem exists_leastPower_eq (n : Nat) : ∃ m, leastPower n = 2 ^ m := by
  unfold leastPower
  split
  · exact ⟨0, rfl⟩
  · exact ⟨_, Nat.one_shiftLeft _⟩

/-- The size that is chosen is large enough. -/
theorem le_leastPower (n : Nat) : n ≤ leastPower n := by
  unfold leastPower
  split
  · assumption
  · have h : n - 1 < 2 ^ ((n - 1).log2 + 1) := Nat.lt_log2_self
    rw [Nat.one_shiftLeft]
    omega

/-- No smaller power of two is large enough. -/
theorem leastPower_le {n m : Nat} (h : n ≤ 2 ^ m) : leastPower n ≤ 2 ^ m := by
  unfold leastPower
  split
  · exact Nat.one_le_two_pow
  · next hn =>
      have hlog : 2 ^ (n - 1).log2 ≤ n - 1 := Nat.log2_self_le (by omega)
      have hlt : (n - 1).log2 < m := (Nat.pow_lt_pow_iff_right Nat.one_lt_two).mp (by omega)
      rw [Nat.one_shiftLeft]
      exact Nat.pow_le_pow_right Nat.zero_lt_two hlt

/-- The least domain that holds `n` values. -/
theorem domainFor_eq_ok {n s : Nat} (hn : 0 < n) :
    domainFor n = .ok s ↔ leastPower n < 2 ^ 64 ∧ leastPower n = s := by
  rw [domainFor, nextPowerOfTwo, max_eq_left hn, check_eq_ok]

end Count

/-! ### Absolute variables -/

/-- An absolute variable names a row below `2^31`. -/
theorem Variable.absolute_eq_ok {kind : ColumnKind} {index : UInt32} {row : Nat} {v : Variable} :
    absolute kind index row = .ok v ↔ row < 2 ^ 31 ∧ ⟨kind, index, Int32.ofNat row, false⟩ = v := by
  rw [absolute, absolute?]
  split
  · next hv =>
      split at hv
      · next hrow =>
          obtain rfl := Option.some.inj hv
          exact ⟨fun h => ⟨hrow, Except.ok.inj h⟩, fun h => congrArg _ h.2⟩
      · cases hv
  · next hv =>
      split at hv
      · cases hv
      · next hrow => exact iff_of_false (by simp) fun h => hrow h.1

end Plonkish
