import Plonkish.Json.Scan

/-!
# JSON text — numbers, lists, records and variants

The readers of this module are told what to expect.  A `record` is read from an object, whose
members may come in any order and among others, or from the list of its fields in order; a missing
or repeated field is a mismatch, and so is a list that is too short, while one that is too long is
malformed.  A `variant` is read from its name, or from an object with its name as the only key;
anything but a string in place of the key is malformed.

A value opens at most `depthLimit` lists and objects inside each other.  Readers of values that may
contain others are given the number still allowed, and stop as at a defect where there is none.

`objectText`, `listText` and `quoted` write the compact form, without blanks.
-/

namespace Plonkish.Json

/-- The number of lists and objects that may be open at once. -/
def depthLimit : Nat := 127

/-- Reads a text that holds one value and blanks around it. -/
def read {α : Type} (value : Reader α) (text : String) : Except Problem α :=
  (do
    let a ← value
    match ← peekToken with
    | none => return a
    | some _ => throw .malformed : Reader α).run' text.toList

/-! ### Numbers, truth values and null -/

/-- Reads an integer from `low` on and below `high`. -/
def integer (low high : Int) : Reader Int := do
  if ¬ startsNumber (← peekValue) then wrongValue
  match ← numeral with
  | .integer value =>
    if low ≤ value ∧ value < high then return value else throw .mismatch
  | .scaled significand exponent =>
    throw (if tooLarge significand exponent then .malformed else .mismatch)

/-- Reads a number that fits in the given number of bits. -/
def unsigned (bits : Nat) : Reader Nat := do
  return (← integer 0 (1 <<< bits : Nat)).toNat

/-- Reads a truth value. -/
def boolean : Reader Bool := do
  let c ← peekValue
  if c = 't' then
    exactly ['t', 'r', 'u', 'e']
    return true
  else if c = 'f' then
    exactly ['f', 'a', 'l', 's', 'e']
    return false
  else wrongValue

/-- Reads the word for no value. -/
def null : Reader Unit := do
  if (← peekValue) = 'n' then exactly ['n', 'u', 'l', 'l'] else wrongValue

/-! ### Lists -/

/-- Passes over an opening mark, if a list or object may be opened. -/
def openMark (depth : Nat) : Reader Unit :=
  if depth = 0 then throw .malformed else advance

/-- Reads a list whose entries `body` reads, and its closing bracket. -/
def bracketed {α : Type} (depth : Nat) (body : Reader α) : Reader α := do
  if (← peekValue) ≠ '[' then wrongValue
  openMark depth
  let a ← body
  punctuation ']'
  return a

/-- Reads an entry of a list that must not end before it. -/
def entry {α : Type} (first : Bool) (item : Reader α) : Reader α := do
  if ← hasNext first ']' then item else throw .mismatch

/-- Reads a list of any length. -/
def listOf {α : Type} (depth : Nat) (item : Reader α) : Reader (List α) := do
  if (← peekValue) ≠ '[' then wrongValue
  openMark depth
  entries item (← get) true

/-! ### Records -/

/-- A field of a record: its name, and a reader of what it changes in the record. -/
structure Field (α : Type) where
  /-- The name. -/
  name : String
  /-- Reads the value and gives the record with the field set. -/
  read : Reader (α → α)

/-- The field with a given name, reader and setter. -/
def field {α β : Type} (name : String) (value : Reader β) (set : β → α → α) : Field α :=
  ⟨name, return set (← value)⟩

/-- Reads the fields of a record as the entries of a list. -/
def fieldsInOrder {α : Type} : List (Field α) → Bool → α → Reader α
  | [], _, a => return a
  | f :: fields, first, a => do
    let set ← entry first f.read
    fieldsInOrder fields false (set a)

/-- Reads what follows the name of a member of a record.  The names of the fields read so far are
kept in a list. -/
def member {α : Type} (fields : List (Field α)) (state : α × List String) (name : String) :
    Reader (α × List String) :=
  match fields.find? (·.name = name) with
  | some f =>
    if name ∈ state.2 then throw .mismatch
    else do
      punctuation ':'
      let set ← f.read
      return (set state.1, name :: state.2)
  | none => do
    punctuation ':'
    skipValue
    return state

/-- Reads a record with the given fields, from a record in which all of them will be set. -/
def record {α : Type} (depth : Nat) (fields : List (Field α)) (blank : α) : Reader α := do
  let c ← peekValue
  if c = '\x7b' then
    openMark depth
    let (a, seen) ←
      members (quotedText true) (member fields) (← get) true (blank, [])
    if fields.all (·.name ∈ seen) then return a else throw .mismatch
  else if c = '[' then bracketed depth (fieldsInOrder fields true blank)
  else wrongValue

/-! ### Variants -/

/-- Reads the name of a variant. -/
def variantName {τ : Type} (ofName? : String → Option τ) : Reader τ := do
  match ofName? (← quotedText true) with
  | some t => return t
  | none => throw .mismatch

/-- Reads a variant: what `byName` makes of its name alone, or the value that `content` reads after
its name in an object. -/
def variant {τ α : Type} (depth : Nat) (ofName? : String → Option τ)
    (byName content : τ → Reader α) : Reader α := do
  let c ← peekValue
  if c = '"' then byName (← variantName ofName?)
  else if c = '\x7b' then
    openMark depth
    if (← peekValue) ≠ '"' then throw .malformed
    let t ← variantName ofName?
    punctuation ':'
    let a ← content t
    punctuation '\x7d'
    return a
  else throw .malformed

/-- Reads one of several names, also from an object that gives the name no value. -/
def choice {τ : Type} (depth : Nat) (ofName? : String → Option τ) : Reader τ :=
  variant depth ofName? pure fun t => do
    null
    return t

/-! ### Writing -/

/-- The text of a string in which no character needs an escape. -/
def quoted (s : String) : String := "\"" ++ s ++ "\""

/-- The text of a list, from the texts of its entries. -/
def listText (items : List String) : String := "[" ++ ",".intercalate items ++ "]"

/-- The text of an object, from the names and texts of its members. -/
def objectText (fields : List (String × String)) : String :=
  "\x7b" ++ ",".intercalate (fields.map fun (name, value) => quoted name ++ ":" ++ value) ++ "\x7d"

end Plonkish.Json
