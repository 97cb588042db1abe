import Plonkish.Proofs.Degrees
import Plonkish.Proofs.Records
import Plonkish.Table.Description

/-!
# Proofs — descriptions in texts

`Gives` says that the members of an object give the numbers of a description, each once, in any
order and among other members; the number of rows may be missing.

* `ofJson_cases`: what is made of any text, whose description always has a shape that a table can
  have (`validate_of_ofJson`).  There is one fault, where the padded height does not fit
  (`ofJson_eq_fault`).
* `read_of_gives_some`, `read_of_gives_none`: an object that gives all numbers is read, and one
  without a number of rows is not.
* `ofJson_toJson`: a valid description is read back from its text.
-/

namespace Plonkish.Description

open Json (Reads Member)

/-! ### Padded heights -/

theorem paddedRows_of_le {usable : Nat} (h : usable ≤ 2 ^ 63) :
    paddedRows usable = .ok (max (Count.leastPower usable) 2) := by
  have hlt : Count.leastPower usable < 2 ^ 64 := (Count.leastPower_le h).trans_lt (by decide)
  rw [paddedRows, Count.nextPowerOfTwo, Count.check_of_lt hlt]
  rfl

theorem paddedRows_of_lt {usable : Nat} (h : 2 ^ 63 < usable) :
    paddedRows usable = .error .overflow := by
  obtain ⟨m, hm⟩ := Count.exists_leastPower_eq usable
  have hle := Count.le_leastPower usable
  -- A power of two above the half is at least the whole.
  have hpower : 63 < m := (Nat.pow_lt_pow_iff_right Nat.one_lt_two).mp (h.trans_le (hm ▸ hle))
  have hlarge : ¬ Count.leastPower usable < 1 <<< 64 :=
    Nat.not_lt.mpr (hm ▸ Nat.pow_le_pow_right Nat.zero_lt_two hpower)
  rw [paddedRows, Count.nextPowerOfTwo, Count.check, if_neg hlarge]
  rfl

/-- The padded height is one that a table can have. -/
theorem validate_padded (columns : Regions Nat) (usable : Nat) :
    validate ⟨columns, usable, max (Count.leastPower usable) 2⟩ = .ok () := by
  have hpower : Count.IsPowerOfTwo (max (Count.leastPower usable) 2) := by
    have htwo : Count.leastPower 2 = 2 := by decide
    rw [← htwo, ← Count.leastPower_max]
    exact (Count.isLeast_leastPower _).1.1
  have hle : usable ≤ max (Count.leastPower usable) 2 :=
    (Count.le_leastPower usable).trans (Nat.le_max_left _ _)
  rw [validate, if_neg (not_not.mpr hpower), if_neg (Nat.not_lt.mpr hle)]

theorem validate_eq_ok {d : Description} :
    d.validate = .ok () ↔ Count.IsPowerOfTwo d.rows ∧ d.usableRows ≤ d.rows := by
  unfold validate
  split
  · next h => exact iff_of_false nofun fun hd => h hd.1
  · next h =>
      split
      · next hlt => exact iff_of_false nofun fun hd => Nat.not_lt.mpr hd.2 hlt
      · next hlt => exact iff_of_true rfl ⟨not_not.mp h, Nat.not_lt.mp hlt⟩

/-! ### What is made of a text -/

variable {text : String} {d : Description} {f : Fault}

/-- The description as it is read, with its rows padded if there are none. -/
theorem ofJson_of_read (h : Json.read (readJson Json.depthLimit) text = .ok d) :
    ofJson text = (do
      let rows ← if d.rows = 0 then (paddedRows d.usableRows).mapError .fault else .ok d.rows
      (validate { d with rows }).mapError .refused
      return { d with rows }) := by
  rw [ofJson, h]
  rfl

theorem ofJson_of_error {p : Json.Problem}
    (h : Json.read (readJson Json.depthLimit) text = .error p) :
    ofJson text = .error (.unreadable p) := by
  rw [ofJson, h]
  rfl

theorem padded_of_le {columns : Regions Nat} {usable : Nat} (h : usable ≤ 2 ^ 63) :
    padded columns usable = .ok ⟨columns, usable, max (Count.leastPower usable) 2⟩ := by
  rw [padded, paddedRows_of_le h]
  rfl

theorem ofJson_of_zero (h : Json.read (readJson Json.depthLimit) text = .ok d) (hrows : d.rows = 0)
    (hfits : d.usableRows ≤ 2 ^ 63) :
    ofJson text = .ok ⟨d.columns, d.usableRows, max (Count.leastPower d.usableRows) 2⟩ := by
  have hvalid := validate_padded d.columns d.usableRows
  rw [ofJson_of_read h, if_pos hrows, paddedRows_of_le hfits]
  show (do (validate ⟨d.columns, d.usableRows, _⟩).mapError DescriptionError.refused; _) = _
  rw [hvalid]
  rfl

theorem ofJson_of_overflow (h : Json.read (readJson Json.depthLimit) text = .ok d)
    (hrows : d.rows = 0)
    (hlarge : 2 ^ 63 < d.usableRows) : ofJson text = .error (.fault .overflow) := by
  rw [ofJson_of_read h, if_pos hrows, paddedRows_of_lt hlarge]
  rfl

theorem ofJson_of_rows (h : Json.read (readJson Json.depthLimit) text = .ok d)
    (hrows : d.rows ≠ 0) :
    ofJson text = (do d.validate.mapError .refused; return d) := by
  rw [ofJson_of_read h, if_neg hrows]
  rfl

/-- What is made of a text: nothing where it is not read, and else what the number of rows asks for.
-/
theorem ofJson_cases (text : String) :
    (∃ p, ofJson text = .error (.unreadable p)) ∨
      ∃ d, Json.read (readJson Json.depthLimit) text = .ok d ∧
        (d.rows = 0 ∧ d.usableRows ≤ 2 ^ 63 ∧
            ofJson text = .ok ⟨d.columns, d.usableRows, max (Count.leastPower d.usableRows) 2⟩ ∨
          d.rows = 0 ∧ 2 ^ 63 < d.usableRows ∧ ofJson text = .error (.fault .overflow) ∨
          d.rows ≠ 0 ∧ ofJson text = (do d.validate.mapError .refused; return d)) := by
  rcases h : Json.read (readJson Json.depthLimit) text with p | d
  · exact .inl ⟨p, ofJson_of_error h⟩
  · refine .inr ⟨d, rfl, ?_⟩
    by_cases hrows : d.rows = 0
    · rcases Nat.lt_or_ge (2 ^ 63) d.usableRows with hlarge | hfits
      · exact .inr (.inl ⟨hrows, hlarge, ofJson_of_overflow h hrows hlarge⟩)
      · exact .inl ⟨hrows, hfits, ofJson_of_zero h hrows hfits⟩
    · exact .inr (.inr ⟨hrows, ofJson_of_rows h hrows⟩)

/-- Whatever is read has a shape that a table can have. -/
theorem validate_of_ofJson (h : ofJson text = .ok d) : d.validate = .ok () := by
  rcases ofJson_cases text with ⟨p, heq⟩ | ⟨d', -, ⟨-, -, heq⟩ | ⟨-, -, heq⟩ | ⟨-, heq⟩⟩
  · cases heq.symm.trans h
  · cases heq.symm.trans h
    exact validate_padded d'.columns d'.usableRows
  · cases heq.symm.trans h
  · obtain ⟨_, hvalid, hd⟩ := bind_eq_ok.mp (heq.symm.trans h)
    cases hd
    exact mapError_eq_ok.mp hvalid

/-- There is one fault, where the padded height does not fit. -/
theorem ofJson_eq_fault :
    ofJson text = .error (.fault f) ↔ f = .overflow ∧ ∃ d,
      Json.read (readJson Json.depthLimit) text = .ok d ∧ d.rows = 0 ∧ 2 ^ 63 < d.usableRows := by
  constructor
  · intro h
    rcases ofJson_cases text with ⟨p, heq⟩ | ⟨d, hd, ⟨-, -, heq⟩ | ⟨hrows, hlarge, heq⟩ | ⟨-, heq⟩⟩
    · cases heq.symm.trans h
    · cases heq.symm.trans h
    · cases heq.symm.trans h
      exact ⟨rfl, d, hd, hrows, hlarge⟩
    · rw [heq] at h
      cases hvalid : d.validate <;> rw [hvalid] at h <;> cases h
  · rintro ⟨rfl, d, hread, hrows, hlarge⟩
    exact ofJson_of_overflow hread hrows hlarge

/-! ### Objects that give the numbers of a description -/

/-- The names of the fields. -/
def jsonNames : List String := jsonFields.map JsonField.name

/-- The names of the members that are fields. -/
def fieldNames (members : List Member) : List String :=
  (members.map Member.name).filter (· ∈ jsonNames)

/-- The numbers that an object gives, with or without a number of rows. -/
def numbers (columns : Regions Nat) (usable : Nat) (rows : Option Nat) : List (String × Nat) :=
  (jsonNumbers ⟨columns, usable, rows.getD 0⟩).filter fun f => rows.isSome ∨ f.1 ≠ "rows_amount"

/-- The members of an object give each number once, in any order, and what else there is can be
passed over. -/
structure Gives (members : List Member) (columns : Regions Nat) (usable : Nat) (rows : Option Nat) :
    Prop where
  names_perm : (fieldNames members).Perm ((numbers columns usable rows).map Prod.fst)
  reads_number : ∀ m ∈ members, m.name ∈ jsonNames →
    ∃ n, (m.name, n) ∈ numbers columns usable rows ∧ Reads (Json.unsigned 64) m.value (.ok n)
  reads_other : ∀ m ∈ members, m.name ∉ jsonNames → Reads Json.skipValue m.value (.ok ())

/-- The description as far as the fields with the given names are known. -/
def upTo (d : Description) (seen : List String) : Description :=
  seen.foldr (fun name known => match jsonFields.find? (·.name = name) with
    | some f => f.set (f.get d) known
    | none => known) empty

/-! ### Fields -/

section Fields

variable {f g : JsonField}

/-- A field is found by its name. -/
theorem find?_jsonFields (hf : f ∈ jsonFields) : jsonFields.find? (·.name = f.name) = some f := by
  simp only [jsonFields, List.mem_cons, List.not_mem_nil, or_false] at hf
  rcases hf with rfl | rfl | rfl | rfl | rfl | rfl <;> rfl

theorem get_set (hf : f ∈ jsonFields) (hg : g ∈ jsonFields) (n : Nat) (d : Description) :
    f.get (g.set n d) = if f.name = g.name then n else f.get d := by
  simp only [jsonFields, List.mem_cons, List.not_mem_nil, or_false] at hf hg
  rcases hf with rfl | rfl | rfl | rfl | rfl | rfl <;>
    rcases hg with rfl | rfl | rfl | rfl | rfl | rfl <;> rfl

/-- The numbers make up the description. -/
theorem eq_of_get_eq {d e : Description} (h : ∀ f ∈ jsonFields, f.get d = f.get e) : d = e := by
  obtain ⟨⟨_, _, _, _⟩, _, _⟩ := d
  obtain ⟨⟨_, _, _, _⟩, _, _⟩ := e
  simpa [jsonFields, and_assoc] using h

theorem upTo_cons (hf : f ∈ jsonFields) (d : Description) (seen : List String) :
    upTo d (f.name :: seen) = f.set (f.get d) (upTo d seen) := by
  rw [upTo, List.foldr_cons, find?_jsonFields hf]
  rfl

theorem get_upTo (hf : f ∈ jsonFields) (d : Description) {seen : List String}
    (h : f.name ∈ seen) : f.get (upTo d seen) = f.get d := by
  induction seen with
  | nil => cases h
  | cons name seen ih =>
      by_cases hname : f.name = name
      · rw [← hname, upTo_cons hf, get_set hf hf, if_pos rfl]
      · have hrest := ih ((List.mem_cons.mp h).resolve_left hname)
        rw [upTo, List.foldr_cons]
        split
        · next g hg =>
            have hother : g.name = name := by simpa using List.find?_some hg
            rw [get_set hf (List.mem_of_find?_eq_some hg), if_neg (hother ▸ hname)]
            exact hrest
        · exact hrest

end Fields

section Gives

variable {members : List Member} {columns : Regions Nat} {usable : Nat} {rows : Option Nat}

theorem exists_field_of_mem {name : String} {n : Nat}
    (h : (name, n) ∈ numbers columns usable rows) :
    ∃ f ∈ jsonFields, f.name = name ∧ f.get ⟨columns, usable, rows.getD 0⟩ = n := by
  obtain ⟨f, hf, heq⟩ := List.mem_map.mp (List.mem_of_mem_filter h)
  exact ⟨f, hf, congrArg Prod.fst heq, congrArg Prod.snd heq⟩

/-- The field with a given name takes its number on. -/
theorem exists_field {name : String} {n : Nat} (h : (name, n) ∈ numbers columns usable rows) :
    ∃ set, (jsonFields.map JsonField.reader).find? (·.name = name) =
        some (Json.field name (Json.unsigned 64) set) ∧
      ∀ seen, set n (upTo ⟨columns, usable, rows.getD 0⟩ seen) =
        upTo ⟨columns, usable, rows.getD 0⟩ (name :: seen) := by
  obtain ⟨f, hf, rfl, rfl⟩ := exists_field_of_mem h
  refine ⟨f.set, ?_, fun seen => (upTo_cons hf _ seen).symm⟩
  rw [List.find?_map]
  exact congrArg (Option.map JsonField.reader) (find?_jsonFields hf)

theorem find?_eq_none {name : String} (h : name ∉ jsonNames) :
    (jsonFields.map JsonField.reader).find? (·.name = name) = none := by
  simp only [List.find?_eq_none, decide_eq_true_eq]
  rintro r hr rfl
  obtain ⟨f, hf, rfl⟩ := List.mem_map.mp hr
  exact h (List.mem_map_of_mem hf)

theorem fieldNames_cons_of_mem {m : Member} (h : m.name ∈ jsonNames) :
    fieldNames (m :: members) = m.name :: fieldNames members :=
  List.filter_cons_of_pos (by simpa using h)

theorem fieldNames_cons_of_not_mem {m : Member} (h : m.name ∉ jsonNames) :
    fieldNames (m :: members) = fieldNames members :=
  List.filter_cons_of_neg (by simpa using h)

/-- Member by member, each number is taken on. -/
theorem fills
    (hnumber : ∀ m ∈ members, m.name ∈ jsonNames →
      ∃ n, (m.name, n) ∈ numbers columns usable rows ∧ Reads (Json.unsigned 64) m.value (.ok n))
    (hother : ∀ m ∈ members, m.name ∉ jsonNames → Reads Json.skipValue m.value (.ok ()))
    {seen : List String} (hnodup : (fieldNames members ++ seen).Nodup) :
    Json.Fills (jsonFields.map JsonField.reader)
      (upTo ⟨columns, usable, rows.getD 0⟩ seen, seen) members
      (.ok (upTo ⟨columns, usable, rows.getD 0⟩ ((fieldNames members).reverse ++ seen),
        (fieldNames members).reverse ++ seen)) := by
  induction members generalizing seen with
  | nil => exact .nil _
  | cons m members ih =>
      have hmore {seen : List String} (h : (fieldNames members ++ seen).Nodup) :=
        ih (fun m hm => hnumber m (List.mem_cons_of_mem _ hm))
          (fun m hm => hother m (List.mem_cons_of_mem _ hm)) h
      by_cases hname : m.name ∈ jsonNames
      · rw [fieldNames_cons_of_mem hname] at hnodup ⊢
        obtain ⟨n, hn, hread⟩ := hnumber m List.mem_cons_self hname
        obtain ⟨set, hfind, hset⟩ := exists_field hn
        have hnew : m.name ∉ fieldNames members ++ seen := (List.nodup_cons.mp hnodup).1
        have hrest : (fieldNames members ++ m.name :: seen).Nodup :=
          List.perm_middle.nodup_iff.mpr hnodup
        rw [List.reverse_cons, List.append_assoc, List.singleton_append]
        refine .known (x := .ok (set n)) (y := fun _ => .ok _) hfind
          (fun h => hnew (List.mem_append_right _ h)) (hread.map set) ?_
        rintro _ ⟨⟩
        rw [hset]
        exact hmore hrest
      · rw [fieldNames_cons_of_not_mem hname] at hnodup ⊢
        exact .other (find?_eq_none hname) (hother m List.mem_cons_self hname) (hmore hnodup)

theorem upTo_eq_self {d : Description} {seen : List String} (h : ∀ name ∈ jsonNames, name ∈ seen) :
    upTo d seen = d :=
  eq_of_get_eq fun _ hf => get_upTo hf d (h _ (List.mem_map_of_mem hf))

theorem names_numbers_some (r : Nat) : (numbers columns usable (some r)).map Prod.fst = jsonNames :=
  rfl

theorem names_numbers_none :
    (numbers columns usable none).map Prod.fst = jsonNames.erase "rows_amount" := rfl

/-- The fields are filled as the numbers say. -/
theorem Gives.fills (h : Gives members columns usable rows) :
    ∃ seen, (∀ name, name ∈ seen ↔ name ∈ (numbers columns usable rows).map Prod.fst) ∧
      Json.Fills (jsonFields.map JsonField.reader) (empty, []) members
        (.ok (upTo ⟨columns, usable, rows.getD 0⟩ seen, seen)) := by
  have hnodup : ((numbers columns usable rows).map Prod.fst).Nodup := by
    cases rows with
    | none => exact names_numbers_none ▸ by decide
    | some r => exact names_numbers_some r ▸ by decide
  have hfields : (fieldNames members ++ []).Nodup := by
    rw [List.append_nil]
    exact h.names_perm.nodup_iff.mpr hnodup
  have hfills := Description.fills h.reads_number h.reads_other hfields
  refine ⟨_, fun name => ?_, hfills⟩
  rw [List.append_nil, List.mem_reverse]
  exact h.names_perm.mem_iff

theorem all_readers {p : String → Bool} :
    (jsonFields.map JsonField.reader).all (p ·.name) = jsonNames.all p := by
  rw [List.all_map, jsonNames, List.all_map]
  rfl

/-- **An object that gives all numbers** is read as the description they make. -/
theorem read_of_gives_some {r : Nat} (hobject : Json.HoldsObject text members)
    (h : Gives members columns usable (some r)) (depth : Nat) :
    Json.read (readJson (depth + 1)) text = .ok ⟨columns, usable, r⟩ := by
  obtain ⟨seen, hseen, hfills⟩ := h.fills
  have hall : ∀ name ∈ jsonNames, name ∈ seen := fun name => (hseen name).mpr
  rw [readJson, hobject.read_eq hfills depth, ok_bind, Json.filled,
    all_readers (p := (· ∈ seen)), if_pos (by simpa using hall), upTo_eq_self hall]
  rfl

/-- **An object without a number of rows** is not read. -/
theorem read_of_gives_none (hobject : Json.HoldsObject text members)
    (h : Gives members columns usable none) (depth : Nat) :
    Json.read (readJson (depth + 1)) text = .error .mismatch := by
  obtain ⟨seen, hseen, hfills⟩ := h.fills
  have hmissing : "rows_amount" ∉ seen := fun hmem =>
    absurd (names_numbers_none ▸ (hseen _).mp hmem) (by decide)
  have hnot : ¬ jsonNames.all (· ∈ seen) = true := fun hall =>
    hmissing (by simpa using List.all_eq_true.mp hall "rows_amount" (by decide))
  rw [readJson, hobject.read_eq hfills depth, ok_bind, Json.filled,
    all_readers (p := (· ∈ seen)), if_neg hnot]

theorem mem_jsonNames {f : String × Nat} (hf : f ∈ numbers columns usable rows) :
    f.1 ∈ jsonNames := by
  obtain ⟨field, hfield, hname, -⟩ := exists_field_of_mem hf
  exact hname ▸ List.mem_map_of_mem hfield

theorem plain_of_mem_numbers {f : String × Nat} (hf : f ∈ numbers columns usable rows) :
    Json.Plain f.1 :=
  (by decide : ∀ name ∈ jsonNames, Json.Plain name) f.1 (mem_jsonNames hf)

/-- The numbers as they are written in an object, with any blanks before the names, before the
numbers and at the end. -/
theorem exists_gives {pad gap stop : List Char} (hpad : Json.Blank pad) (hgap : Json.Blank gap)
    (hstop : Json.Blank stop) (hfits : ∀ f ∈ numbers columns usable rows, f.2 < 2 ^ 64)
    (htext : text.toList = '\x7b' :: Json.joined (stop ++ ['\x7d']) true
      ((numbers columns usable rows).map fun f =>
        pad ++ ((Json.quoted f.1).toList ++ ':' :: (gap ++ (toString f.2).toList)))) :
    ∃ members, Json.HoldsObject text members ∧ Gives members columns usable rows := by
  let written (f : String × Nat) (hf : f ∈ numbers columns usable rows) : Member :=
    .written hpad gap (plain_of_mem_numbers hf) (toString f.2)
  have hnames : ((numbers columns usable rows).pmap written fun _ hf => hf).map Member.name =
      (numbers columns usable rows).map Prod.fst := by
    simp [written, Member.written, List.map_pmap]
  refine ⟨(numbers columns usable rows).pmap written fun _ hf => hf, ?_, ?_, ?_, ?_⟩
  · refine ⟨[], stop, [], Json.blank_nil, hstop, Json.blank_nil, ?_⟩
    simpa [written, List.map_pmap] using htext
  · rw [fieldNames, hnames, List.filter_eq_self.mpr]
    intro name hname
    obtain ⟨f, hf, rfl⟩ := List.mem_map.mp hname
    exact decide_eq_true (mem_jsonNames hf)
  · intro m hm _
    obtain ⟨f, hf, rfl⟩ := List.mem_pmap.mp hm
    exact ⟨f.2, hf, (Json.reads_unsigned le_rfl (hfits f hf)).after hgap⟩
  · intro m hm hname
    obtain ⟨f, hf, rfl⟩ := List.mem_pmap.mp hm
    exact absurd (mem_jsonNames hf) hname

/-- The compact text of an object that gives the numbers. -/
def numbersText (columns : Regions Nat) (usable : Nat) (rows : Option Nat) : String :=
  Json.objectText ((numbers columns usable rows).map fun f => (f.1, toString f.2))

theorem exists_gives_compact (columns : Regions Nat) (usable : Nat) (rows : Option Nat)
    (hfits : ∀ f ∈ numbers columns usable rows, f.2 < 2 ^ 64) :
    ∃ members, Json.HoldsObject (numbersText columns usable rows) members ∧
      Gives members columns usable rows := by
  refine exists_gives Json.blank_nil Json.blank_nil Json.blank_nil hfits ?_
  rw [numbersText, Json.toList_objectText, List.map_map]
  rfl

end Gives

/-- The six numbers fit in 64 bits. -/
def Counted (d : Description) : Prop :=
  ∀ f ∈ numbers d.columns d.usableRows (some d.rows), f.2 < 2 ^ 64

instance (d : Description) : Decidable d.Counted := inferInstanceAs (Decidable (∀ f ∈ _, _))

theorem toList_toJson (d : Description) : d.toJson.toList =
    '\x7b' :: Json.joined (['\n'] ++ ['\x7d']) true
      ((numbers d.columns d.usableRows (some d.rows)).map fun f =>
        ['\n', ' ', ' '] ++ ((Json.quoted f.1).toList ++ ':' ::
          ([' '] ++ (toString f.2).toList))) := by
  set lines := (numbers d.columns d.usableRows (some d.rows)).map fun f =>
    [' ', ' '] ++ ((Json.quoted f.1).toList ++ ':' :: ([' '] ++ (toString f.2).toList)) with hlines
  have hjoined : Json.joined (['\n'] ++ ['\x7d']) true (lines.map (['\n'] ++ ·)) =
      ['\n'] ++ ([',', '\n'].intercalate lines ++ (['\n'] ++ ['\x7d'])) :=
    Json.joined_true ['\n'] (by simp [hlines, numbers, jsonNumbers, jsonFields])
  rw [hlines, List.map_map] at hjoined
  refine Eq.trans ?_ (congrArg ('\x7b' :: ·) hjoined.symm)
  have hfields : d.jsonMembers = (numbers d.columns d.usableRows (some d.rows)).map
      fun f => (f.1, toString f.2) := rfl
  simp [toJson, hfields, String.toList_append, String.toList_intercalate, Function.comp_def]

/-- **The text that is written** of a valid description is read as that description. -/
theorem ofJson_toJson {d : Description} (hcounted : d.Counted) (hvalid : d.validate = .ok ()) :
    ofJson d.toJson = .ok d := by
  have hblank : Json.Blank ['\n', ' ', ' '] ∧ Json.Blank [' '] ∧ Json.Blank ['\n'] := by
    simp [Json.Blank, Json.isBlank]
  obtain ⟨members, hobject, hgives⟩ :=
    exists_gives hblank.1 hblank.2.1 hblank.2.2 hcounted (toList_toJson d)
  have hrows : d.rows ≠ 0 := (Count.pos_of_isPowerOfTwo (validate_eq_ok.mp hvalid).1).ne'
  rw [ofJson_of_rows (read_of_gives_some hobject hgives 126) hrows]
  show (do d.validate.mapError DescriptionError.refused; return d) = _
  rw [hvalid]
  rfl

/-- **What is made of texts.**  Whatever text it is, a description that is read has a power of two
of rows that holds the usable ones, and there is no fault but the overflow of the padded height.  An
object with a height of zero is read as the description that is made of its other numbers, where the
padded height fits.  Without a height it is refused. -/
theorem ofJson_derives (text : String) :
    (∀ d, ofJson text = .ok d → Count.IsPowerOfTwo d.rows ∧ d.usableRows ≤ d.rows) ∧
    (∀ f, ofJson text = .error (.fault f) ↔ f = .overflow ∧ ∃ d,
      Json.read (readJson Json.depthLimit) text = .ok d ∧ d.rows = 0 ∧ 2 ^ 63 < d.usableRows) ∧
    ∀ members columns usable, Json.HoldsObject text members →
      (Gives members columns usable (some 0) → usable ≤ 2 ^ 63 →
        ∃ d, padded columns usable = .ok d ∧ ofJson text = .ok d) ∧
      (Gives members columns usable (some 0) → 2 ^ 63 < usable →
        padded columns usable = .error .overflow ∧ ofJson text = .error (.fault .overflow)) ∧
      (Gives members columns usable none → ofJson text = .error (.unreadable .mismatch)) := by
  refine ⟨fun d h => validate_eq_ok.mp (validate_of_ofJson h), fun f => ofJson_eq_fault,
    fun members columns usable hobject => ⟨fun h hfits => ?_, fun h hlarge => ?_, fun h => ?_⟩⟩
  · have hread := read_of_gives_some hobject h 126
    exact ⟨_, padded_of_le hfits, ofJson_of_zero hread rfl hfits⟩
  · have hread := read_of_gives_some hobject h 126
    refine ⟨?_, ofJson_of_overflow hread rfl hlarge⟩
    rw [padded, paddedRows_of_lt hlarge]
    rfl
  · exact ofJson_of_error (read_of_gives_none hobject h 126)

/-- Five usable rows are padded to eight if the height is zero, and refused if there is none; above
`2 ^ 63` the padded height does not fit. -/
theorem ofJson_derives_five :
    ofJson (numbersText ⟨11, 1, 2, 0⟩ 5 (some 0)) = .ok ⟨⟨11, 1, 2, 0⟩, 5, 8⟩ ∧
      ofJson (numbersText ⟨11, 1, 2, 0⟩ 5 none) = .error (.unreadable .mismatch) ∧
      ofJson (numbersText ⟨11, 1, 2, 0⟩ 0x8000000000000001 (some 0)) =
        .error (.fault .overflow) := by
  obtain ⟨zero, hzero, hgivesZero⟩ := exists_gives_compact ⟨11, 1, 2, 0⟩ 5 (some 0) (by decide)
  obtain ⟨missing, hmissing, hgivesMissing⟩ := exists_gives_compact ⟨11, 1, 2, 0⟩ 5 none (by decide)
  obtain ⟨large, hlarge, hgivesLarge⟩ :=
    exists_gives_compact ⟨11, 1, 2, 0⟩ 0x8000000000000001 (some 0) (by decide)
  obtain ⟨d, hd, hread⟩ := ((ofJson_derives _).2.2 zero _ _ hzero).1 hgivesZero (by decide)
  obtain rfl : ⟨⟨11, 1, 2, 0⟩, 5, 8⟩ = d := Except.ok.inj hd
  exact ⟨hread, ((ofJson_derives _).2.2 missing _ _ hmissing).2.2 hgivesMissing,
    (((ofJson_derives _).2.2 large _ _ hlarge).2.1 hgivesLarge (by decide)).2⟩

end Plonkish.Description
