import Plonkish.Proofs.Violations

/-!
# Proofs — snapshots of a row

A snapshot looks up the different variables of a constraint in order, and an evaluation its
occurrences from left to right.  They succeed for the same tables and rows, and then the snapshot
gives the constraint the value that it has in the row.

* `EvaluationMap.collect_eq_mapM` and `EvaluationMap.getElem?_of_collect`: when the look-ups of a
  list of variables can be collected, and what the map is then.
* `Expr.snapshot_agrees`: the map of a snapshot has one entry for each variable of the constraint
  and none besides, and the value that it gives the constraint does not change if more entries are
  added.
-/

namespace Plonkish

variable {k : BaseField}

/-! ### Collecting -/

namespace EvaluationMap

variable {ε : Type} {look : Variable → Except ε (Felt k)} {l : List Variable}
  {map map' : EvaluationMap k}

/-- To collect is to look up the variables of the list, and then to enter the values. -/
theorem collect_eq_mapM (l : List Variable) (map : EvaluationMap k) :
    l.foldlM (fun map v => return map.insert v (← look v)) map =
      (fun values => map.insertMany (l.zip values)) <$> l.mapM look := by
  induction l generalizing map with
  | nil => simp
  | cons v l ih =>
      simp only [List.foldlM_cons, List.mapM_cons, map_eq_pure_bind, bind_assoc, pure_bind] at ih ⊢
      refine bind_congr fun a => ?_
      rw [ih]
      simp only [List.zip_cons_cons, Std.HashMap.insertMany_cons]

/-- Look-ups can be collected exactly if each of them answers. -/
theorem exists_collect_iff :
    (∃ map', l.foldlM (fun map v => return map.insert v (← look v)) map = .ok map') ↔
      ∀ v ∈ l, ∃ a, look v = .ok a := by
  rw [← exists_mapM_eq_ok, collect_eq_mapM]
  cases l.mapM look with
  | ok values => exact iff_of_true ⟨_, rfl⟩ ⟨_, rfl⟩
  | error err => exact iff_of_false nofun nofun

/-- What ends the collecting is one of the look-ups. -/
theorem exists_of_collect_eq_error {err : ε}
    (h : l.foldlM (fun map v => return map.insert v (← look v)) map = .error err) :
    ∃ v ∈ l, look v = .error err := by
  rw [collect_eq_mapM] at h
  cases hvalues : l.mapM look with
  | ok values =>
      rw [hvalues] at h
      cases h
  | error err' =>
      rw [hvalues] at h
      obtain rfl : err' = err := Except.error.inj h
      obtain ⟨before, v, hfirst⟩ := mapM_eq_error.mp hvalues
      exact ⟨v, hfirst.starts.subset (by simp), hfirst.fails⟩

/-- The entries for the variables of the list are their look-ups, and the others are kept. -/
theorem getElem?_of_collect
    (h : l.foldlM (fun map v => return map.insert v (← look v)) map = .ok map') (v : Variable) :
    map'[v]? = if v ∈ l then (look v).toOption else map[v]? := by
  induction l generalizing map with
  | nil =>
      obtain rfl := Except.ok.inj h
      exact (if_neg List.not_mem_nil).symm
  | cons u l ih =>
      obtain ⟨_, hhead, hrest⟩ := bind_eq_ok.mp h
      obtain ⟨a, ha, rfl⟩ := bind_pure_eq_ok.mp hhead
      rw [ih hrest, Std.HashMap.getElem?_insert]
      by_cases hv : v ∈ l
      · rw [if_pos hv, if_pos (List.mem_cons_of_mem u hv)]
      · rcases eq_or_ne u v with rfl | hne
        · simp [hv, ha, Except.toOption]
        · simp [hv, hne, hne.symm]

/-- A map that has the members of a list without repetitions lists them as its keys. -/
theorem keys_perm (hmem : ∀ v, v ∈ map ↔ v ∈ l) (hnodup : l.Nodup) : map.keys.Perm l := by
  have hkeys : map.keys.Nodup := Std.HashMap.distinct_keys.imp fun h heq => by simp [heq] at h
  refine (List.perm_ext_iff_of_nodup hkeys hnodup).mpr fun v => ?_
  rw [Std.HashMap.mem_keys, hmem]

end EvaluationMap

/-! ### Snapshots -/

namespace Expr

variable {t : Table k} {e : Expr k} {row : Nat} {map : EvaluationMap k}

theorem exists_snapshot_iff :
    (∃ map, e.snapshot t row = .ok map) ↔ ∃ a, e.tryAtRow t row = .ok a := by
  refine EvaluationMap.exists_collect_iff.trans (Iff.trans ?_ exists_evaluate_iff.symm)
  simp only [mem_distinctVariables, exists_map_eq_ok]

theorem snapshot_ne_fault (hpos : 0 < t.rows) (hrow : row ≤ 2 ^ 62) (e : Expr k) (f : Fault) :
    e.snapshot t row ≠ .error (.fault f) := by
  intro h
  obtain ⟨v, -, hv⟩ := EvaluationMap.exists_of_collect_eq_error h
  exact Table.tryResolve_ne_fault hpos hrow v f hv

/-- A snapshot has an entry for each variable of the constraint, the value that is read for it. -/
theorem getElem?_snapshot (h : e.snapshot t row = .ok map) {v : Variable}
    (hv : v ∈ e.distinctVariables) : ∃ a, t.tryResolve v row = .ok a ∧ map[v]? = some a := by
  obtain ⟨a, ha⟩ := EvaluationMap.exists_collect_iff.mp ⟨map, h⟩ v hv
  refine ⟨a, ha, ?_⟩
  rw [EvaluationMap.getElem?_of_collect h, if_pos hv, ha]
  rfl

theorem mem_snapshot_iff (h : e.snapshot t row = .ok map) (v : Variable) :
    v ∈ map ↔ v ∈ e.distinctVariables := by
  rw [← Std.HashMap.isSome_getElem?_iff_mem]
  by_cases hv : v ∈ e.distinctVariables
  · obtain ⟨a, -, ha⟩ := getElem?_snapshot h hv
    exact iff_of_true (by rw [ha]; rfl) hv
  · rw [EvaluationMap.getElem?_of_collect h, if_neg hv, Std.HashMap.getElem?_empty]
    exact iff_of_false Bool.false_ne_true hv

/-- **A snapshot gives the value** that the constraint has in the row, and so does every map with
its entries. -/
theorem exists_valueIn_eq_tryAtRow (h : e.snapshot t row = .ok map) :
    ∃ a, e.tryAtRow t row = .ok a ∧ ∀ map' : EvaluationMap k,
      (∀ v : Variable, ∀ b, map[v]? = some b → map'[v]? = some b) → e.valueIn map' = .ok a := by
  have hentry : ∀ v ∈ e.occurrences,
      t.tryResolve v row = .ok (map[v]?.getD 0) ∧ map[v]? = some (map[v]?.getD 0) := by
    intro v hv
    obtain ⟨a, ha, hmap⟩ := getElem?_snapshot h (mem_distinctVariables.mpr hv)
    rw [hmap]
    exact ⟨ha, rfl⟩
  refine ⟨e.scalar fun v => map[v]?.getD 0, ?_, ?_⟩
  · exact evaluate_scalars_eq fun v hv => (hentry v hv).1
  · intro map' hmore
    rw [valueIn_eq]
    refine evaluate_scalars_eq fun v hv => ?_
    exact EvaluationMap.find_eq_ok.mpr (hmore v _ (hentry v hv).2)

/-- **A snapshot agrees with reading the table.**  One exists exactly if the constraint has a value
in the row, and neither call faults.  It has one entry for each variable of the constraint, its
cell, and no two entries for variables with the same attributes; and it gives the constraint the
same value, however many more entries are added. -/
theorem snapshot_agrees (hpos : 0 < t.rows) (hrow : row < 2 ^ 62) (e : Expr k) :
    ((∃ map, e.snapshot t row = .ok map) ↔ ∃ a, e.tryAtRow t row = .ok a) ∧
    (∀ f, e.snapshot t row ≠ .error (.fault f) ∧ e.tryAtRow t row ≠ .error (.fault f)) ∧
    ∀ map, e.snapshot t row = .ok map →
      (∃ a, e.tryAtRow t row = .ok a ∧ e.valueIn map = .ok a ∧ ∀ map' : EvaluationMap k,
        (∀ v : Variable, ∀ b, map[v]? = some b → map'[v]? = some b) → e.valueIn map' = .ok a) ∧
      map.size = e.distinctVariables.length ∧ map.keys.Perm e.distinctVariables ∧
      (map.keys.map Variable.key).Nodup ∧
      ∀ v ∈ e.distinctVariables, ∃ b, t.tryResolve v row = .ok b ∧ map[v]? = some b := by
  refine ⟨exists_snapshot_iff, fun f => ?_, fun map h => ?_⟩
  · exact ⟨snapshot_ne_fault hpos hrow.le e f, tryAtRow_ne_fault hpos hrow.le e f⟩
  · obtain ⟨a, ha, hmaps⟩ := exists_valueIn_eq_tryAtRow h
    have hkeys := EvaluationMap.keys_perm (mem_snapshot_iff h)
      (Variable.nodup_distinct e.occurrences)
    refine ⟨⟨a, ha, hmaps map fun _ _ => id, hmaps⟩, ?_, hkeys, ?_, fun v => getElem?_snapshot h⟩
    · rw [← Std.HashMap.length_keys]
      exact hkeys.length_eq
    · refine (hkeys.nodup_iff.mpr (Variable.nodup_distinct _)).map ?_
      exact fun _ _ => Variable.key_injective

end Expr

/-- A cell of the row times the cell of the first row in the same column. -/
def Expr.timesFirst : Expr .babyBear :=
  .binop (ofCell ⟨.witness, 0, 0, true⟩) (ofCell ⟨.witness, 0, 0, false⟩) .mult

/-- The two variables differ in nothing but being relative, and have an entry each. -/
theorem Expr.snapshot_agrees_timesFirst :
    ∃ map, timesFirst.snapshot .squares 1 = .ok map ∧ map.size = 2 ∧
      timesFirst.tryAtRow .squares 1 = .ok (27 : Felt .babyBear).scalar ∧
      timesFirst.valueIn map = .ok (27 : Felt .babyBear).scalar := by
  obtain ⟨hiff, -, hmaps⟩ := snapshot_agrees (t := .squares) Nat.two_pos
    (show 1 < 2 ^ 62 by decide) timesFirst
  have hvalue : timesFirst.tryAtRow .squares 1 = .ok (27 : Felt .babyBear).scalar := by rfl
  obtain ⟨map, hmap⟩ := hiff.mpr ⟨_, hvalue⟩
  obtain ⟨⟨a, ha, hin, -⟩, hsize, -⟩ := hmaps map hmap
  obtain rfl := Except.ok.inj (hvalue.symm.trans ha)
  exact ⟨map, hmap, hsize, hvalue, hin⟩

end Plonkish
