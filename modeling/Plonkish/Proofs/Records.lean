import Plonkish.Proofs.Scanning

/-!
# Proofs — reading lists, records and variants

Lists and objects are written as their entries with commas between them (`joined`).  A `Member` is a
member of an object as it may be written, blanks and escapes in its name included.

`Fills` follows the members of an object through the fields of a record: what is known so far, and
the names seen so far, become what the reader comes to.  Members may stand in any order and between
members that are no fields.

* `reads_listOf`: a list is read entry by entry.
* `reads_record`: a record is read from its members, if none of its fields is missing.
* `reads_variant`, `reads_name`: a variant is read from its name, with or without contents.
* `…_zero`: where no list or object may be opened, none of these is read.
-/

namespace Plonkish.Json

variable {α β σ : Type}

/-! ### Entries -/

/-- Entries with commas between them, the first without one if it is the first of all, and what
follows the last. -/
def joined (stop : List Char) : Bool → List (List Char) → List Char
  | _, [] => stop
  | true, e :: es => e ++ joined stop false es
  | false, e :: es => ',' :: (e ++ joined stop false es)

theorem joined_append (stop rest : List Char) (first : Bool) (es : List (List Char)) :
    joined stop first es ++ rest = joined (stop ++ rest) first es := by
  induction es generalizing first with
  | nil => rfl
  | cons e es ih => cases first <;> simp [joined, ih]

/-- The text of a list is longer than the number of its entries, so that a reader bounded by the
text's length reads them all. -/
theorem length_lt_joined {stop : List Char} (hstop : stop ≠ []) (first : Bool)
    {es : List (List Char)} (h : ∀ e ∈ es, e ≠ []) : es.length < (joined stop first es).length := by
  induction es generalizing first with
  | nil => exact List.length_pos_iff.mpr hstop
  | cons e es ih =>
      have he := List.length_pos_iff.mpr (h e List.mem_cons_self)
      have hes := ih false fun e he => h e (List.mem_cons_of_mem _ he)
      cases first <;> simp only [joined, List.length_cons, List.length_append] <;> omega

theorem joined_true (pad : List Char) {stop : List Char} {es : List (List Char)} (h : es ≠ []) :
    joined stop true (es.map (pad ++ ·)) = pad ++ ((',' :: pad).intercalate es ++ stop) := by
  have hmore (es : List (List Char)) : joined stop false (es.map (pad ++ ·)) =
      (es.map (',' :: pad ++ ·)).flatten ++ stop := by
    induction es with
    | nil => rfl
    | cons e es ih => simp [joined, ih]
  obtain ⟨e, es, rfl⟩ := List.exists_cons_of_ne_nil h
  rw [List.map_cons, joined, hmore]
  induction es generalizing e with
  | nil => simp
  | cons e' es ih =>
      have hrest := ih e' (List.cons_ne_nil _ _)
      rw [List.intercalate_cons_cons]
      simp only [List.append_assoc, List.append_cancel_left_eq, List.map_cons, List.flatten_cons,
        List.cons_append, List.cons.injEq, true_and] at hrest ⊢
      exact hrest

/-- A number at the end of an entry ends where the list goes on. -/
theorem ends_joined {stop : List Char} (hstop : Ends stop) (es : List (List Char)) :
    Ends (joined stop false es) := by
  cases es with
  | nil => exact hstop
  | cons e es => exact ends_cons rfl _

theorem joined_compact (stop : List Char) (es : List (List Char)) :
    joined stop true es = [','].intercalate es ++ stop := by
  cases es with
  | nil => rfl
  | cons e es => simpa [Function.comp_def] using joined_true [] (List.cons_ne_nil e es)

/-- The text of a list is its entries between brackets. -/
theorem toList_listText (items : List String) :
    (listText items).toList = '[' :: joined [']'] true (items.map String.toList) := by
  simp [listText, joined_compact, String.toList_append, String.toList_intercalate]

/-- The text of an object is its members between braces. -/
theorem toList_objectText (fields : List (String × String)) :
    (objectText fields).toList = '\x7b' :: joined ['\x7d'] true
      (fields.map fun f => (quoted f.1).toList ++ ':' :: f.2.toList) := by
  simp [objectText, joined_compact, String.toList_append, String.toList_intercalate,
    Function.comp_def]

/-! ### Lists -/

/-- The text starts with a value, and not with the end of a list. -/
def Starts (text : List Char) : Prop :=
  ∃ c more, text = c :: more ∧ isBlank c = false ∧ c ≠ ']'

/-- The bracket that opens a list is passed over, if a list may be opened. -/
theorem opened_eq {before : List Char} (h : Blank before) (depth : Nat) (body : Reader α)
    (text : List Char) :
    (do
        if (← peekValue) ≠ '[' then wrongValue
        openMark depth
        body : Reader α) (before ++ '[' :: text) =
      if depth = 0 then .error .malformed else body text := by
  refine (run_bind_of_ok (peekValue_eq h rfl)).trans ?_
  rw [if_neg (not_not.mpr rfl)]
  cases depth with
  | zero => rfl
  | succ depth => exact run_bind_of_ok (rfl : openMark (depth + 1) ('[' :: text) = _)

section Lists

variable {item : Reader α} {text : β → List Char} {outcome : β → Except Problem α} {bs : List β}

/-- The entries of a list are read one by one, each as its own reader reads it. By induction on the
list. -/
theorem entries_eq (hstart : ∀ b ∈ bs, Starts (text b))
    (h : ∀ b ∈ bs, Reads item (text b) (outcome b))
    (first : Bool) {bound : List Char} (hbound : bs.length < bound.length) (rest : List Char) :
    entries item bound first (joined (']' :: rest) first (bs.map text)) =
      (·, rest) <$> bs.mapM outcome := by
  induction bs generalizing first bound with
  | nil =>
      obtain ⟨_, bound, rfl⟩ := List.exists_cons_of_length_pos hbound
      exact run_bind_of_ok (hasNext_close blank_nil rfl first)
  | cons b bs ih =>
      obtain ⟨_, bound, rfl⟩ := List.exists_cons_of_length_pos (Nat.zero_lt_of_lt hbound)
      obtain ⟨c, more, htext, hblank, hclose⟩ := hstart b List.mem_cons_self
      have hnext : hasNext first ']' (joined (']' :: rest) first ((b :: bs).map text)) =
          .ok (true, text b ++ joined (']' :: rest) false (bs.map text)) := by
        rw [List.map_cons, htext]
        cases first with
        | true => exact hasNext_first blank_nil hblank hclose
        | false => exact hasNext_comma blank_nil blank_nil hblank hclose (by decide)
      have hends : Ends (joined (']' :: rest) false (bs.map text)) :=
        ends_joined (ends_cons rfl rest) (bs.map text)
      have hitem := h b List.mem_cons_self [] _ blank_nil hends
      have hmore := ih (fun b hb => hstart b (List.mem_cons_of_mem _ hb))
        (fun b hb => h b (List.mem_cons_of_mem _ hb)) false (Nat.lt_of_succ_lt_succ hbound)
      refine (run_bind_of_ok hnext).trans ?_
      rw [if_pos rfl, List.mapM_cons]
      rcases hb : outcome b with p | a
      · rw [hb] at hitem
        exact run_bind_of_error hitem
      · rw [hb] at hitem
        refine (run_bind_of_ok hitem).trans ?_
        rcases hbs : bs.mapM outcome with p | as
        · rw [hbs] at hmore
          exact run_bind_of_error hmore
        · rw [hbs] at hmore
          exact run_bind_of_ok hmore

/-- **A list** is read entry by entry. -/
theorem reads_listOf (hstart : ∀ b ∈ bs, Starts (text b))
    (h : ∀ b ∈ bs, Reads item (text b) (outcome b)) (depth : Nat) :
    Reads (listOf (depth + 1) item) ('[' :: joined [']'] true (bs.map text)) (bs.mapM outcome) := by
  intro before rest hbefore _
  have hne : ∀ e ∈ bs.map text, e ≠ [] := fun e he => by
    obtain ⟨b, hb, rfl⟩ := List.mem_map.mp he
    obtain ⟨c, more, htext, -⟩ := hstart b hb
    exact htext ▸ List.cons_ne_nil c more
  have hlength := length_lt_joined (List.cons_ne_nil ']' rest) true hne
  rw [List.length_map] at hlength
  rw [List.cons_append, joined_append]
  refine (opened_eq hbefore (depth + 1) _ _).trans ?_
  refine (run_bind_of_ok (rfl : (get : Reader _) _ = _)).trans ?_
  exact entries_eq hstart h true hlength rest

/-- A list is refused where no more levels are allowed. -/
theorem reads_listOf_zero (text : List Char) :
    Reads (listOf 0 item) ('[' :: text) (.error .malformed) :=
  fun _ rest hbefore _ => opened_eq hbefore 0 _ (text ++ rest)

end Lists

/-! ### Lists of a fixed form -/

section Bracketed

variable {body : Reader α} {item : Reader α} {text : List Char} {x : Except Problem α}

/-- **A list with the given contents** is read as what they are. -/
theorem reads_bracketed (h : Reads body text x) (depth : Nat) :
    Reads (bracketed (depth + 1) body) ('[' :: (text ++ [']'])) x := by
  intro before rest hbefore _
  rw [List.cons_append, List.append_assoc]
  refine (opened_eq hbefore (depth + 1) _ _).trans ?_
  have hbody := h [] (']' :: rest) blank_nil (ends_cons rfl rest)
  cases x with
  | ok a =>
      refine (run_bind_of_ok hbody).trans ?_
      exact run_bind_of_ok (punctuation_cons rfl)
  | error p => exact run_bind_of_error hbody

/-- So is any text in brackets. -/
theorem reads_bracketed_zero (text : List Char) :
    Reads (bracketed 0 body) ('[' :: text) (.error .malformed) :=
  fun _ rest hbefore _ => opened_eq hbefore 0 _ (text ++ rest)

/-- The first entry of a tuple stands with no comma before it. -/
theorem reads_entry_first (hstart : Starts text) (h : Reads item text x) :
    Reads (entry true item) text x := by
  intro before rest hbefore hrest
  obtain ⟨c, more, rfl, hblank, hclose⟩ := hstart
  refine (run_bind_of_ok (hasNext_first hbefore hblank hclose)).trans ?_
  exact h [] rest blank_nil hrest

/-- Every other entry stands after one. -/
theorem reads_entry (hstart : Starts text) (h : Reads item text x) :
    Reads (entry false item) (',' :: text) x := by
  intro before rest hbefore hrest
  obtain ⟨c, more, rfl, hblank, hclose⟩ := hstart
  have hnext : hasNext false ']' (before ++ (',' :: (c :: more) ++ rest)) =
      .ok (true, c :: more ++ rest) :=
    hasNext_comma hbefore blank_nil hblank hclose (by decide)
  refine (run_bind_of_ok hnext).trans ?_
  exact h [] rest blank_nil hrest

end Bracketed

/-! ### Records -/

/-- A member of an object, as it is written. -/
structure Member where
  /-- The name. -/
  name : String
  /-- The blanks before the name. -/
  before : List Char
  /-- The name as it is written, without its opening quote. -/
  label : List Char
  /-- The blanks between the name and the colon. -/
  between : List Char
  /-- The value, with any blanks before it. -/
  value : List Char
  /-- The blanks after the value. -/
  after : List Char
  blank_before : Blank before
  blank_between : Blank between
  blank_after : Blank after
  /-- The label is read as the name. -/
  reads_label : ∀ rest, quotedText true ('"' :: label ++ rest) = .ok (name, rest)

namespace Member

/-- The text of a member. -/
def text (m : Member) : List Char :=
  m.before ++ '"' :: (m.label ++ (m.between ++ ':' :: (m.value ++ m.after)))

theorem text_ne_nil (m : Member) : m.text ≠ [] := by simp [text]

/-- The member with a name that needs no escapes, with the given blanks before its name and its
value. -/
def written {pad : List Char} (hpad : Blank pad) (gap : List Char) {name : String}
    (hname : Plain name) (value : String) : Member where
  name := name
  before := pad
  label := name.toList ++ ['"']
  between := []
  value := gap ++ value.toList
  after := []
  blank_before := hpad
  blank_between := blank_nil
  blank_after := blank_nil
  reads_label rest := by
    have h := quotedText_quoted hname true rest
    rwa [toList_quoted] at h

@[simp] theorem text_written {pad : List Char} (hpad : Blank pad) (gap : List Char) {name : String}
    (hname : Plain name) (value : String) : (written hpad gap hname value).text =
      pad ++ ((quoted name).toList ++ ':' :: (gap ++ value.toList)) := by
  simp [text, written, toList_quoted]

end Member

/-- What comes of a record when the members of an object are read: the fields known so far, with
their names, become what the reader comes to. -/
inductive Fills (fields : List (Field α)) :
    α × List String → List Member → Except Problem (α × List String) → Prop where
  /-- No member is left. -/
  | nil (s : α × List String) : Fills fields s [] (.ok s)
  /-- A field that was not there before. -/
  | known {s : α × List String} {m : Member} {ms : List Member} {f : Field α}
      {x : Except Problem (α → α)} {y : (α → α) → Except Problem (α × List String)}
      (hfind : fields.find? (·.name = m.name) = some f) (hnew : m.name ∉ s.2)
      (hvalue : Reads f.read m.value x)
      (hmore : ∀ set, x = .ok set → Fills fields (set s.1, m.name :: s.2) ms (y set)) :
      Fills fields s (m :: ms) (x >>= y)
  /-- A member that is no field. -/
  | other {s : α × List String} {m : Member} {ms : List Member}
      {y : Except Problem (α × List String)}
      (hfind : fields.find? (·.name = m.name) = none)
      (hvalue : Reads skipValue m.value (.ok ()))
      (hmore : Fills fields s ms y) : Fills fields s (m :: ms) y

/-- The record of which no field is missing. -/
def filled (fields : List (Field α)) (s : α × List String) : Except Problem α :=
  if fields.all (·.name ∈ s.2) then .ok s.1 else .error .mismatch

/-- Once every field has been met, a record asks for nothing more. -/
theorem map_bind_filled {fields : List (Field α)} {names : List String}
    (h : ∀ f ∈ fields, f.name ∈ names) (x : Except Problem α) :
    ((·, names) <$> x) >>= filled fields = x := by
  cases x with
  | error p => rfl
  | ok a => exact if_pos (by simpa using h)

section Records

variable {fields : List (Field α)} {s : α × List String} {ms : List Member}
  {y : Except Problem (α × List String)} {blank : α} {before pad stop rest : List Char}

theorem members_nil {value : σ → String → Reader σ} {s : σ} (c : Char) (bound : List Char)
    (first : Bool) (hbefore : Blank before) :
    members (quotedText true) value (c :: bound) first s (before ++ '\x7d' :: rest) =
      .ok (s, rest) :=
  run_bind_of_ok (hasNext_close hbefore rfl first)

/-- One member is read, and then the others. -/
theorem members_cons {value : σ → String → Reader σ} {s : σ} (c : Char) (bound : List Char)
    (first : Bool) (hbefore : Blank before) (m : Member) (more : List (List Char)) :
    members (quotedText true) value (c :: bound) first s
      (before ++ joined stop first (m.text :: more)) =
      (do
        let s ← value s m.name
        members (quotedText true) value bound false s : Reader σ)
      (m.between ++ ':' :: (m.value ++ (m.after ++ joined stop false more))) := by
  set tail := m.between ++ ':' :: (m.value ++ (m.after ++ joined stop false more)) with htail
  have hnext : hasNext first '\x7d' (before ++ joined stop first (m.text :: more)) =
      .ok (true, '"' :: (m.label ++ tail)) := by
    cases first with
    | true =>
        have h : hasNext true '\x7d' (before ++ m.before ++ '"' :: (m.label ++ tail)) = _ :=
          hasNext_first (hbefore.append m.blank_before) rfl (by decide)
        simpa [joined, Member.text, htail] using h
    | false =>
        have h : hasNext false '\x7d'
            (before ++ ',' :: (m.before ++ '"' :: (m.label ++ tail))) = _ :=
          hasNext_comma hbefore m.blank_before rfl (by decide) (by decide)
        simpa [joined, Member.text, htail] using h
  have hname : memberName (quotedText true) ('"' :: (m.label ++ tail)) = .ok (m.name, tail) := by
    refine (run_bind_of_ok (peekValue_cons rfl)).trans ?_
    rw [if_neg (not_not.mpr rfl)]
    exact m.reads_label tail
  refine (run_bind_of_ok hnext).trans ?_
  rw [if_pos rfl]
  exact run_bind_of_ok hname

/-- The value of a member in front of the other members. -/
theorem Member.reads_value {r : Reader β} {x : Except Problem β} {m : Member}
    (h : Reads r m.value x) (hstop : Ends stop) (more : List (List Char)) :
    (do punctuation ':'; r : Reader β)
        (m.between ++ ':' :: (m.value ++ (m.after ++ joined stop false more))) =
      (·, m.after ++ joined stop false more) <$> x := by
  refine (run_bind_of_ok (punctuation_eq m.blank_between rfl)).trans ?_
  exact h [] _ blank_nil ((ends_joined hstop more).blank_append m.blank_after)

/-- The members of an object are read one by one, each by the reader of its field. By induction on
the members. -/
theorem members_eq (h : Fills fields s ms y) (first : Bool) {bound : List Char}
    (hbound : ms.length < bound.length) (hbefore : Blank before) (hpad : Blank pad)
    (rest : List Char) :
    members (quotedText true) (member fields) bound first s
        (before ++ joined (pad ++ '\x7d' :: rest) first (ms.map Member.text)) =
      (·, rest) <$> y := by
  have hstop : Ends (pad ++ '\x7d' :: rest) := (ends_cons rfl rest).blank_append hpad
  induction h generalizing first bound before with
  | nil s =>
      obtain ⟨c, bound, rfl⟩ := List.exists_cons_of_length_pos hbound
      rw [List.map_nil, joined, ← List.append_assoc]
      exact members_nil c bound first (hbefore.append hpad)
  | @known s m ms f x y hfind hnew hvalue _ ih =>
      obtain ⟨c, bound, rfl⟩ := List.exists_cons_of_length_pos (Nat.zero_lt_of_lt hbound)
      rw [List.map_cons, members_cons c bound first hbefore]
      have hread := Member.reads_value hvalue hstop (ms.map Member.text)
      have hmember : member fields s m.name =
          (do punctuation ':'; f.read : Reader (α → α)) >>= fun set =>
            return (set s.1, m.name :: s.2) := by
        rw [member, hfind, bind_assoc]
        exact if_neg hnew
      rw [hmember, bind_assoc]
      cases x with
      | error p => exact run_bind_of_error hread
      | ok set =>
          refine (run_bind_of_ok hread).trans ?_
          exact ih set rfl false (Nat.lt_of_succ_lt_succ hbound) m.blank_after
  | @other s m ms y hfind hvalue _ ih =>
      obtain ⟨c, bound, rfl⟩ := List.exists_cons_of_length_pos (Nat.zero_lt_of_lt hbound)
      rw [List.map_cons, members_cons c bound first hbefore]
      have hread := Member.reads_value hvalue hstop (ms.map Member.text)
      have hmember : member fields s m.name =
          (do punctuation ':'; skipValue : Reader Unit) >>= fun _ => return s := by
        rw [member, hfind, bind_assoc]
      rw [hmember, bind_assoc]
      refine (run_bind_of_ok hread).trans ?_
      exact ih false (Nat.lt_of_succ_lt_succ hbound) m.blank_after

/-- **A record** is read from its members. -/
theorem reads_record (h : Fills fields (blank, []) ms y) (hpad : Blank pad) (depth : Nat) :
    Reads (record (depth + 1) fields blank)
      ('\x7b' :: joined (pad ++ ['\x7d']) true (ms.map Member.text)) (y >>= filled fields) := by
  intro before rest hbefore _
  have hne : ∀ e ∈ ms.map Member.text, e ≠ [] := by
    simp only [List.mem_map]
    rintro _ ⟨m, -, rfl⟩
    exact m.text_ne_nil
  have hstop : pad ++ '\x7d' :: rest ≠ [] := by simp
  have hlength := length_lt_joined hstop true hne
  rw [List.length_map] at hlength
  have hmembers := members_eq h true hlength blank_nil hpad rest
  rw [List.cons_append, joined_append, List.append_assoc, List.singleton_append]
  refine (run_bind_of_ok (peekValue_eq hbefore rfl)).trans ?_
  rw [if_pos rfl]
  refine (run_bind_of_ok (rfl : openMark (depth + 1) ('\x7b' :: _) = _)).trans ?_
  refine (run_bind_of_ok (rfl : (get : Reader _) _ = _)).trans ?_
  cases y with
  | error p => exact run_bind_of_error hmembers
  | ok s =>
      refine (run_bind_of_ok hmembers).trans ?_
      show (if fields.all (·.name ∈ s.2) then _ else _ : Reader α) rest = (·, rest) <$>
        filled fields s
      unfold filled
      split <;> rfl

/-- An object is refused where no more levels are allowed. -/
theorem reads_record_zero (members : List (String × String)) :
    Reads (record 0 fields blank) (objectText members).toList (.error .malformed) := by
  intro before rest hbefore _
  rw [toList_objectText, List.cons_append]
  refine (run_bind_of_ok (peekValue_eq hbefore rfl)).trans ?_
  rw [if_pos rfl]
  rfl

/-- The text holds an object with the given members, and blanks around it. -/
def HoldsObject (text : String) (ms : List Member) : Prop :=
  ∃ before pad after, Blank before ∧ Blank pad ∧ Blank after ∧
    text.toList = before ++
      (('\x7b' :: joined (pad ++ ['\x7d']) true (ms.map Member.text)) ++ after)

/-- **A text that holds a record** is read as that record. -/
theorem HoldsObject.read_eq {text : String} (hobject : HoldsObject text ms)
    (h : Fills fields (blank, []) ms y) (depth : Nat) :
    Json.read (record (depth + 1) fields blank) text = y >>= filled fields := by
  obtain ⟨before, pad, after, hbefore, hpad, hafter, htext⟩ := hobject
  exact Json.read_eq (reads_record h hpad depth) hbefore hafter htext

/-- A field is found by its name when the names are distinct. -/
theorem find?_name (hnodup : (fields.map Field.name).Nodup) {f : Field α} (hf : f ∈ fields) :
    fields.find? (·.name = f.name) = some f := by
  induction fields with
  | nil => exact absurd hf List.not_mem_nil
  | cons g fields ih =>
      obtain ⟨hg, hnodup⟩ := List.nodup_cons.mp hnodup
      rcases List.mem_cons.mp hf with rfl | hf
      · exact List.find?_cons_of_pos (by simp)
      · have hne : g.name ≠ f.name := fun heq => hg (heq ▸ List.mem_map_of_mem hf)
        rw [List.find?_cons_of_neg (by simpa using hne)]
        exact ih hnodup hf

end Records

/-! ### Records as they are written -/

@[simp] theorem name_field (name : String) (value : Reader β) (set : β → α → α) :
    (field name value set).name = name := rfl

/-- A field of a record that is written, with what is read from its text. -/
structure Part (α : Type) extends Field α where
  /-- The text of the value. -/
  text : String
  /-- What is read from the text. -/
  outcome : Except Problem (α → α)
  plain : Plain name
  reads : Reads read text.toList outcome

namespace Part

/-- The part with a given field, whose value is read back from its text. -/
def of {text : String} {value : Reader β} {x : Except Problem β} (name : String) (set : β → α → α)
    (h : Reads value text.toList x) (plain : Plain name := by decide) : Part α :=
  { field name value set with
    text := text
    outcome := set <$> x
    plain := plain
    reads := h.map set }

section Of

variable {name text : String} {value : Reader β} {x : Except Problem β} (set : β → α → α)
  (h : Reads value text.toList x) (plain : Plain name)

@[simp] theorem toField_of : (of name set h plain).toField = field name value set := rfl

@[simp] theorem text_of : (of name set h plain).text = text := rfl

@[simp] theorem outcome_of : (of name set h plain).outcome = set <$> x := rfl

end Of

/-- The record in which the given parts are set, one after the other. -/
def setAll : List (Part α) → α → Except Problem α
  | [], a => .ok a
  | p :: parts, a => p.outcome >>= fun set => setAll parts (set a)

@[simp] theorem setAll_nil (a : α) : setAll [] a = .ok a := rfl

@[simp] theorem setAll_cons (p : Part α) (parts : List (Part α)) (a : α) :
    setAll (p :: parts) a = p.outcome >>= fun set => setAll parts (set a) := rfl

section Spaced

variable {pad : List Char} (hpad : Blank pad) (gap : List Char)

/-- The member of an object that a part is, with the given blanks before its name and its value. -/
def member (p : Part α) : Member := .written hpad gap p.plain p.text

/-- The members of a record, in any order without repetition, set their fields in turn. -/
theorem fills {gap : List Char} (hgap : Blank gap) {fields : List (Field α)} {parts : List (Part α)}
    (hfind : ∀ p ∈ parts, fields.find? (·.name = p.name) = some p.toField)
    (hnodup : (parts.map fun p => p.name).Nodup) {a : α} {seen : List String}
    (hnew : ∀ p ∈ parts, p.name ∉ seen) :
    Fills fields (a, seen) (parts.map (member hpad gap))
      ((·, (parts.map fun p => p.name).reverse ++ seen) <$> setAll parts a) := by
  induction parts generalizing a seen with
  | nil => exact .nil _
  | cons p parts ih =>
      obtain ⟨hp, hnodup⟩ := List.nodup_cons.mp hnodup
      have hnew' : ∀ q ∈ parts, q.name ∉ p.name :: seen := fun q hq hmem => by
        rcases List.mem_cons.mp hmem with heq | hmem
        · exact hp (List.mem_map.mpr ⟨q, hq, heq⟩)
        · exact hnew q (List.mem_cons_of_mem _ hq) hmem
      have hmore (set : α → α) :=
        ih (fun q hq => hfind q (List.mem_cons_of_mem _ hq)) hnodup (a := set a) hnew'
      have houtcome : (·, ((p :: parts).map fun p => p.name).reverse ++ seen) <$> setAll
          (p :: parts) a =
          p.outcome >>= fun set =>
            (·, (parts.map fun p => p.name).reverse ++ p.name :: seen) <$> setAll parts
              (set a) := by
        simp
      rw [houtcome]
      exact .known (s := (a, seen)) (m := p.member hpad gap) (hfind p List.mem_cons_self)
        (hnew p List.mem_cons_self) (p.reads.after hgap) fun set _ => hmore set

end Spaced

end Part

/-- **A record** is read back from its text, if its fields are, with the given blanks before the
names, before the values and at the end. -/
theorem reads_spaced {pad gap stop : List Char} (hpad : Blank pad) (hgap : Blank gap)
    (hstop : Blank stop)
    (parts : List (Part α)) (hnodup : (parts.map fun p => p.name).Nodup) (depth : Nat) (blank : α) :
    Reads (record (depth + 1) (parts.map Part.toField) blank)
      ('\x7b' :: joined (stop ++ ['\x7d']) true (parts.map fun p =>
        pad ++ ((quoted p.name).toList ++ ':' :: (gap ++ p.text.toList))))
      (Part.setAll parts blank) := by
  have hfind : ∀ p ∈ parts, (parts.map Part.toField).find? (·.name = p.name) = some p.toField :=
    fun p hp => find?_name (by rwa [List.map_map]) (List.mem_map_of_mem hp)
  have h := reads_record (Part.fills hpad hgap (a := blank) hfind hnodup fun _ _ =>
    List.not_mem_nil)
    hstop depth
  rw [map_bind_filled] at h
  · simpa only [List.map_map, Function.comp_def, Part.member, Member.text_written] using h
  · simp only [List.mem_map, List.append_nil, List.mem_reverse]
    rintro _ ⟨p, hp, rfl⟩
    exact ⟨p, hp, rfl⟩

/-- **A record** is read back from its compact text, if its fields are. -/
theorem reads_parts (parts : List (Part α)) (hnodup : (parts.map fun p => p.name).Nodup)
    (depth : Nat) (blank : α) :
    Reads (record (depth + 1) (parts.map Part.toField) blank)
      (objectText (parts.map fun p => (p.name, p.text))).toList (Part.setAll parts blank) := by
  rw [toList_objectText, List.map_map]
  exact reads_spaced blank_nil blank_nil blank_nil parts hnodup depth blank

/-! ### Variants -/

section Variants

variable {τ : Type} {ofName? : String → Option τ} {byName content : τ → Reader α} {name : String}
  {t : τ} {text : List Char} {x : Except Problem α}

/-- A variant is known by its quoted name. -/
theorem variantName_eq (hname : Plain name) (ht : ofName? name = some t) (rest : List Char) :
    variantName ofName? ((quoted name).toList ++ rest) = .ok (t, rest) := by
  refine (run_bind_of_ok (quotedText_quoted hname true rest)).trans ?_
  rw [ht]
  rfl

/-- **A variant without contents** is read from its name. -/
theorem reads_name (hname : Plain name) (ht : ofName? name = some t) (depth : Nat) :
    Reads (choice depth ofName?) (quoted name).toList (.ok t) := by
  intro before rest hbefore _
  have hread := variantName_eq hname ht rest
  rw [toList_quoted, List.cons_append] at hread ⊢
  refine (run_bind_of_ok (peekValue_eq hbefore rfl)).trans ?_
  rw [if_pos rfl]
  exact run_bind_of_ok hread

/-- **A variant with contents** is read from its name and them. -/
theorem reads_variant (hname : Plain name) (ht : ofName? name = some t)
    (h : Reads (content t) text x) (depth : Nat) :
    Reads (variant (depth + 1) ofName? byName content)
      ('\x7b' :: ((quoted name).toList ++ ':' :: (text ++ ['\x7d']))) x := by
  intro before rest hbefore _
  have hread := variantName_eq hname ht (':' :: (text ++ '\x7d' :: rest))
  have htext := h [] ('\x7d' :: rest) blank_nil (ends_cons rfl rest)
  simp only [List.cons_append, List.append_assoc, List.nil_append] at htext ⊢
  refine (run_bind_of_ok (peekValue_eq hbefore rfl)).trans ?_
  rw [if_neg (by decide), if_pos rfl]
  refine (run_bind_of_ok (rfl : openMark (depth + 1) ('\x7b' :: _) = _)).trans ?_
  rw [toList_quoted, List.cons_append] at hread ⊢
  refine (run_bind_of_ok (peekValue_cons rfl)).trans ?_
  rw [if_neg (not_not.mpr rfl)]
  refine (run_bind_of_ok hread).trans ?_
  refine (run_bind_of_ok (punctuation_cons rfl)).trans ?_
  cases x with
  | error p => exact run_bind_of_error htext
  | ok a =>
      refine (run_bind_of_ok htext).trans ?_
      exact run_bind_of_ok (punctuation_cons rfl)

/-- A variant with a content is refused where no more levels are allowed. -/
theorem reads_variant_zero (text : List Char) :
    Reads (variant 0 ofName? byName content) ('\x7b' :: text) (.error .malformed) := by
  intro before rest hbefore _
  refine (run_bind_of_ok (peekValue_eq hbefore rfl)).trans ?_
  rw [if_neg (by decide), if_pos rfl]
  rfl

end Variants

end Plonkish.Json
