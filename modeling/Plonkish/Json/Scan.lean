import Plonkish.Expr.Text

/-!
# JSON text — scanning

A `Reader` takes a value off the front of a text and leaves the rest, or stops at the first
problem.  There are three: the text is malformed, the text ends early, or a well-formed piece is
not what is expected there.

* Blanks are the space, the tab, the line feed and the carriage return.
* `numeral` reads a number.  One that is written as an integer, fits in 64 bits and is not `-0` is
  an integer; any other is a significand and a power of ten, and malformed if it is too large for a
  double.
* `textBody` reads a string after its opening quote.  Escapes of code units above the first plane
  come in pairs, unless the string is only skipped.
* `hasNext` steps through the entries of a list or object, and `skipValue` passes over any value.

A step that loops is given the text ahead as a bound on its turns.  It drops a character of it at
each turn and takes at least one off the text, so where the bound runs out the text has ended.
-/

namespace Plonkish.Json

/-- Why a text is not read. -/
inductive Problem where
  /-- The text is not JSON. -/
  | malformed
  /-- The text ends inside a value. -/
  | truncated
  /-- A part of the text is JSON, but not of the form expected there. -/
  | mismatch
deriving DecidableEq, Repr

/-- A reader of a value from the front of a text. -/
abbrev Reader := StateT (List Char) (Except Problem)

/-- The character ahead. -/
def peek : Reader (Option Char) := do return (← get).head?

/-- Passes over the character ahead. -/
def advance : Reader Unit := modify List.tail

/-- The next character of a value that has not ended. -/
def next : Reader Char := fun
  | [] => .error .truncated
  | c :: rest => .ok (c, rest)

/-- Whether a character may stand between tokens. -/
def isBlank (c : Char) : Bool := c = ' ' || c = '\n' || c = '\t' || c = '\r'

/-- Passes over the blanks ahead. -/
def skipBlanks : Reader Unit := modify (·.dropWhile isBlank)

/-- The first character of the token ahead, which is not passed over. -/
def peekToken : Reader (Option Char) := do
  skipBlanks
  peek

/-- The first character of the value ahead, which is not passed over. -/
def peekValue : Reader Char := do
  match ← peekToken with
  | some c => return c
  | none => throw .truncated

/-- Passes over the given characters. -/
def exactly : List Char → Reader Unit
  | [] => return ()
  | c :: cs => do
    if (← next) = c then exactly cs else throw .malformed

/-- Passes over a punctuation mark, blanks before it included. -/
def punctuation (mark : Char) : Reader Unit := do
  match ← peekToken with
  | none => throw .truncated
  | some c => if c = mark then advance else throw .malformed

/-! ### Numbers -/

/-- The digits ahead. -/
def digits : Reader (List Nat) := fun text =>
  .ok ((text.takeWhile Char.isDigit).map (fun c => c.toNat - '0'.toNat),
    text.dropWhile Char.isDigit)

/-- Appends digits to a number while the result fits in 64 bits.  The second part counts the digits
that did. -/
def accumulate (n : Nat) : List Nat → Nat × Nat
  | [] => (n, 0)
  | d :: ds =>
    if 10 * n + d < 1 <<< 64 then
      let (m, taken) := accumulate (10 * n + d) ds
      (m, taken + 1)
    else (n, 0)

/-- The number with 53 significant binary digits nearest to `n`, and the even one of two. -/
def nearestDouble (n : Nat) : Nat :=
  let unit := 1 <<< (n.log2 - 52)
  let low := n / unit
  let rest := n % unit
  if unit < 2 * rest ∨ (2 * rest = unit ∧ low % 2 = 1) then (low + 1) * unit else low * unit

/-- Whether `significand * 10 ^ exponent` is too large for a double. -/
def tooLarge (significand : Nat) (exponent : Int) : Bool :=
  significand ≠ 0 && (308 < exponent || (0 ≤ exponent &&
    1 <<< 1024 - 1 <<< 970 ≤
      nearestDouble significand * nearestDouble (Nat.pow 10 exponent.toNat)))

/-- A number as it is written. -/
inductive Numeral where
  /-- An integer that fits in 64 bits. -/
  | integer (value : Int)
  /-- Any other number: `significand * 10 ^ exponent`, up to its sign. -/
  | scaled (significand : Nat) (exponent : Int)
deriving DecidableEq, Repr

/-- Reads the part of a number from its exponent mark on. -/
def exponentPart (significand : Nat) (exponent : Int) : Reader Numeral := do
  advance
  let sign ← peek
  if sign = some '+' ∨ sign = some '-' then advance
  let first ← next
  if ¬ first.isDigit then throw .malformed
  let more ← digits
  let shift := more.foldl (fun n d => 10 * n + d) (first.toNat - '0'.toNat)
  return .scaled significand (if sign = some '-' then exponent - shift else exponent + shift)

/-- Whether the character ahead marks an exponent. -/
def isExponentMark (c : Option Char) : Bool := c = some 'e' || c = some 'E'

/-- Reads the part of a number from its point on. -/
def fractionPart (significand : Nat) (exponent : Int) : Reader Numeral := do
  advance
  let ds ← digits
  if ds.isEmpty then
    discard next
    throw .malformed
  let (significand, taken) := accumulate significand ds
  let exponent := exponent - taken
  if isExponentMark (← peek) then exponentPart significand exponent
  else return .scaled significand exponent

/-- The number written as an integer with the given digits and sign. -/
def Numeral.ofDigits (negative : Bool) (significand : Nat) (dropped : Nat) : Numeral :=
  if dropped ≠ 0 then .scaled significand dropped
  else if ¬ negative then .integer significand
  else if 0 < significand ∧ significand ≤ 1 <<< 63 then .integer (-significand)
  else .scaled significand 0

/-- Reads a number. -/
def numeral : Reader Numeral := do
  let negative := (← peek) = some '-'
  if negative then advance
  let first ← next
  if ¬ first.isDigit then throw .malformed
  let more ← digits
  if first = '0' ∧ more ≠ [] then throw .malformed
  let (significand, taken) := accumulate 0 ((first.toNat - '0'.toNat) :: more)
  let dropped := more.length + 1 - taken
  let mark ← peek
  if mark = some '.' then fractionPart significand dropped
  else if isExponentMark mark then exponentPart significand dropped
  else return .ofDigits negative significand dropped

/-- Whether a number starts with the character. -/
def startsNumber (c : Char) : Bool := c = '-' || c.isDigit

/-- The word that starts with the character. -/
def word? : Char → Option (List Char)
  | 'n' => some ['n', 'u', 'l', 'l']
  | 't' => some ['t', 'r', 'u', 'e']
  | 'f' => some ['f', 'a', 'l', 's', 'e']
  | _ => none

/-! ### Strings -/

/-- The value of a hexadecimal digit. -/
def hexDigit? (c : Char) : Option Nat :=
  if c.isDigit then some (c.toNat - '0'.toNat)
  else if 'a' ≤ c ∧ c ≤ 'f' then some (c.toNat - 'a'.toNat + 10)
  else if 'A' ≤ c ∧ c ≤ 'F' then some (c.toNat - 'A'.toNat + 10)
  else none

/-- The value of a list of hexadecimal digits. -/
def hexValue? (cs : List Char) : Option Nat :=
  cs.foldlM (fun n c => return 16 * n + (← hexDigit? c)) 0

/-- Reads the four digits of a code unit, which take four bytes. -/
def codeUnit : Reader Nat := fun text =>
  let ahead := text.take 4
  if (String.ofList ahead).utf8ByteSize < 4 then .error .truncated
  else if ahead.length < 4 then .error .malformed
  else match hexValue? ahead with
    | some n => .ok (n, text.drop 4)
    | none => .error .malformed

/-- Whether a code unit is the first of a pair. -/
def isLeading (n : Nat) : Bool := 0xD800 ≤ n && n < 0xDC00

/-- Whether a code unit is the second of a pair. -/
def isTrailing (n : Nat) : Bool := 0xDC00 ≤ n && n < 0xE000

/-- Reads the character of a code unit, or of a pair of them. -/
def pairedUnits : Reader Char := do
  let n ← codeUnit
  if isTrailing n then throw .malformed
  if ¬ isLeading n then return Char.ofNat n
  exactly ['\\', 'u']
  let m ← codeUnit
  if ¬ isTrailing m then throw .malformed
  return Char.ofNat (0x10000 + 0x400 * (n - 0xD800) + (m - 0xDC00))

/-- The character a one-letter escape stands for. -/
def escaped? : Char → Option Char
  | '"' => some '"'
  | '\\' => some '\\'
  | '/' => some '/'
  | 'b' => some '\x08'
  | 'f' => some '\x0c'
  | 'n' => some '\n'
  | 'r' => some '\r'
  | 't' => some '\t'
  | _ => none

/-- Reads an escape after its backslash.  With `paired` off, the character of a code unit does
not matter. -/
def escape (paired : Bool) : Reader Char := do
  let c ← next
  if c = 'u' then
    if paired then pairedUnits else return Char.ofNat (← codeUnit)
  else match escaped? c with
    | some d => return d
    | none => throw .malformed

/-- Reads a string after its opening quote, in at most as many turns as the bound has characters. -/
def textBody (paired : Bool) : List Char → Reader (List Char)
  | [] => throw .truncated
  | _ :: bound => do
    let c ← next
    if c = '"' then return []
    else if c = '\\' then do
      let d ← escape paired
      return d :: (← textBody paired bound)
    else if c < ' ' then throw .malformed
    else return c :: (← textBody paired bound)

/-- Reads a string from its opening quote on. -/
def quotedText (paired : Bool) : Reader String := do
  advance
  return String.ofList (← textBody paired (← get))

/-! ### Lists, objects and values in between -/

/-- Whether another entry is ahead of the closing mark.  Entries but the first follow a comma. -/
def hasNext (first : Bool) (close : Char) : Reader Bool := do
  let c ← peekValue
  if c = close then return false
  else if first then return true
  else if c = ',' then do
    advance
    if (← peekValue) = close then throw .malformed
    return true
  else throw .malformed

/-- Reads the name of a member, which the colon follows. -/
def memberName {α : Type} (name : Reader α) : Reader α := do
  if (← peekValue) ≠ '"' then throw .malformed
  name

/-- Reads the entries of a list up to its closing bracket. -/
def entries {α : Type} (item : Reader α) : List Char → Bool → Reader (List α)
  | [], _ => throw .truncated
  | _ :: bound, first => do
    if ← hasNext first ']' then
      let a ← item
      return a :: (← entries item bound false)
    else
      advance
      return []

/-- Reads the members of an object up to its closing brace.  What follows a name, from the colon
on, is left to `value`. -/
def members {α σ : Type} (name : Reader α) (value : σ → α → Reader σ) :
    List Char → Bool → σ → Reader σ
  | [], _, _ => throw .truncated
  | _ :: bound, first, s => do
    if ← hasNext first '\x7d' then
      let s ← value s (← memberName name)
      members name value bound false s
    else
      advance
      return s

/-- Passes over a number of any size.  Even a text that ends inside it is malformed. -/
def skipNumber : Reader Unit := fun text =>
  match numeral text with
  | .ok (_, rest) => .ok ((), rest)
  | .error _ => .error .malformed

/-- Passes over a value that is nested at most as deep as the bound has characters. -/
def skipNested : List Char → Reader Unit
  | [] => throw .truncated
  | _ :: bound => do
    let c ← peekValue
    if c = '\x7b' then
      advance
      members (quotedText false) (fun _ _ => do punctuation ':'; skipNested bound) bound true ()
    else if c = '[' then
      advance
      discard (entries (skipNested bound) bound true)
    else if c = '"' then discard (quotedText false)
    else if startsNumber c then skipNumber
    else match word? c with
      | some w => exactly w
      | none => throw .malformed

/-- Passes over a value. -/
def skipValue : Reader Unit := do skipNested (← get)

/-- Stops at a value that is not of the expected form, and before that at a defect in it, unless it
is a list or an object. -/
def wrongValue {α : Type} : Reader α := do
  let c ← peekValue
  if c = '\x7b' ∨ c = '[' then throw .mismatch
  else if c = '"' then discard (quotedText true)
  else if startsNumber c then
    match ← numeral with
    | .integer _ => pure ()
    | .scaled significand exponent => if tooLarge significand exponent then throw .malformed
  else match word? c with
    | some w => exactly w
    | none => throw .malformed
  throw .mismatch

end Plonkish.Json
