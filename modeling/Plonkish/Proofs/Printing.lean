import Mathlib.Data.List.Forall2
import Plonkish.Expr.Text
import Plonkish.Proofs.VariableText

/-!
# Proofs — the words of a printed expression

A text is cut into `words`, at spaces and at parentheses, and an expression has `tokens`, one for
each word that it is written with.  The coefficient minus one is written as a node with nothing else
in it.

* `Token.word_injective`: different tokens are different words.
* `Spells`: a text is cut into the words of some tokens, whatever follows it.  Texts with a space
  between them do so one after the other, and a text in parentheses does so between them.
* `Expr.spells`: the words of the text of an expression are those of its tokens.

So the text of an expression tells its tokens (`Expr.tokens_eq`).  It does not tell the tree.
-/

namespace Plonkish

variable {k : BaseField}

/-! ### Words -/

/-- Spaces and parentheses end a word. -/
def endsWord (c : Char) : Bool := c = ' ' || c = '(' || c = ')'

/-- The words of a text that goes on with the rest of a word. -/
def wordsFrom (word : List Char) : List Char → List (List Char)
  | [] => if word = [] then [] else [word]
  | c :: text =>
    if endsWord c then
      (if word = [] then [] else [word]) ++ (if c = ' ' then [] else [[c]]) ++ wordsFrom [] text
    else wordsFrom (word ++ [c]) text

/-- The words of a text.  Each parenthesis is a word. -/
def words (text : List Char) : List (List Char) := wordsFrom [] text

theorem words_space (text : List Char) : words (' ' :: text) = words text := rfl

theorem words_opening (text : List Char) : words ('(' :: text) = ['('] :: words text := rfl

theorem words_closing (text : List Char) : words (')' :: text) = [')'] :: words text := rfl

/-- The text does not go on with the rest of a word. -/
def AtEnd (text : List Char) : Prop := ∀ c ∈ text.head?, endsWord c = true

theorem wordsFrom_append {letters : List Char} (h : ∀ c ∈ letters, endsWord c = false)
    (word text : List Char) :
    wordsFrom word (letters ++ text) = wordsFrom (word ++ letters) text := by
  induction letters generalizing word with
  | nil => rw [List.nil_append, List.append_nil]
  | cons c letters ih =>
      rw [List.cons_append, wordsFrom, h c List.mem_cons_self, if_neg Bool.false_ne_true,
        ih (fun c hc => h c (List.mem_cons_of_mem _ hc)), List.append_assoc, List.singleton_append]

/-- A word ends where the text has a space or a parenthesis, or ends itself. -/
theorem words_append {word text : List Char} (hword : ∀ c ∈ word, endsWord c = false)
    (hne : word ≠ []) (htext : AtEnd text) : words (word ++ text) = word :: words text := by
  rw [words, wordsFrom_append hword, List.nil_append]
  cases text with
  | nil => simp [words, wordsFrom, hne]
  | cons c text =>
      have hc : endsWord c = true := htext c rfl
      simp [words, wordsFrom, hne, hc]

/-! ### Tokens -/

/-- What is written of an expression at a time. -/
inductive Token where
  /-- The start of a node. -/
  | opening
  /-- The end of a node. -/
  | closing
  /-- The sign of an operator. -/
  | operator (op : Operator)
  /-- The sign of a power. -/
  | caret
  /-- The coefficient minus one, which stands in parentheses. -/
  | minusOne
  /-- A coefficient or an exponent. -/
  | number (n : Nat)
  /-- The text of a variable. -/
  | name (v : Variable)
deriving DecidableEq

namespace Token

/-- The word that is written. -/
def word : Token → List Char
  | opening => ['(']
  | closing => [')']
  | operator op => op.symbol.toList
  | caret => ['^']
  | minusOne => ['-', '1']
  | number n => Nat.toDigits 10 n
  | name v => v.toString.toList

/-- The variable that is written. -/
def named : Token → Option Variable
  | name v => some v
  | _ => none

/-- The tokens that are neither numbers nor names. -/
def signs : List Token :=
  [opening, closing, operator .add, operator .sub, operator .mult, caret, minusOne]

theorem mem_signs_or (t : Token) : t ∈ signs ∨ (∃ n, t = number n) ∨ ∃ v, t = name v := by
  cases t with
  | number n => exact .inr (.inl ⟨n, rfl⟩)
  | name v => exact .inr (.inr ⟨v, rfl⟩)
  | operator op => exact .inl (by cases op <;> decide)
  | _ => exact .inl (by decide)

/-- The characters that names start with. -/
def initials : List Char := ['w', 'p', 'c', 's']

theorem exists_initial (v : Variable) : ∃ c ∈ (name v).word, c ∈ initials := by
  have hkind : ∃ c ∈ v.kind.letters.toList, c ∈ initials := by
    cases v.kind with
    | witness => exact ⟨'w', by decide⟩
    | publicInput => exact ⟨'p', by decide⟩
    | constant => exact ⟨'c', by decide⟩
    | selector => exact ⟨'s', by decide⟩
  obtain ⟨c, hc, hinitial⟩ := hkind
  refine ⟨c, ?_, hinitial⟩
  rw [word, Variable.toList_toString]
  exact List.mem_append_left _ hc

theorem not_isDigit_of_initial {c : Char} (h : c ∈ initials) : ¬ c.isDigit = true := by
  simp only [initials, List.mem_cons, List.not_mem_nil, or_false] at h
  rcases h with rfl | rfl | rfl | rfl <;> decide

/-- Numbers are the words of digits. -/
theorem exists_number_iff (t : Token) : (∀ c ∈ t.word, c.isDigit = true) ↔ ∃ n, t = number n := by
  constructor
  · intro h
    rcases t.mem_signs_or with hsign | hnumber | ⟨v, rfl⟩
    · have hsigns : ∀ t ∈ signs, ¬ ∀ c ∈ t.word, c.isDigit = true := by
        simp [signs, word, Operator.symbol]
      exact absurd h (hsigns t hsign)
    · exact hnumber
    · obtain ⟨c, hc, hinitial⟩ := exists_initial v
      exact absurd (h c hc) (not_isDigit_of_initial hinitial)
  · rintro ⟨n, rfl⟩ c hc
    exact isDigit_of_mem_digits hc

/-- Names are the words with initials. -/
theorem exists_name_iff (t : Token) : (∃ c ∈ t.word, c ∈ initials) ↔ ∃ v, t = name v := by
  constructor
  · rintro ⟨c, hc, hinitial⟩
    rcases t.mem_signs_or with hsign | ⟨n, rfl⟩ | hname
    · have hsigns : ∀ t ∈ signs, ∀ c ∈ t.word, c ∉ initials := by
        simp [signs, word, Operator.symbol, initials]
      exact absurd hinitial (hsigns t hsign c hc)
    · exact absurd (isDigit_of_mem_digits hc) (not_isDigit_of_initial hinitial)
    · exact hname
  · rintro ⟨v, rfl⟩
    exact exists_initial v

/-- **Different tokens** are different words. -/
theorem word_injective : Function.Injective word := fun t u h => by
  have hnumber : (∃ n, t = number n) ↔ ∃ n, u = number n := by
    rw [← exists_number_iff, ← exists_number_iff, h]
  have hname : (∃ v, t = name v) ↔ ∃ v, u = name v := by
    rw [← exists_name_iff, ← exists_name_iff, h]
  rcases t.mem_signs_or with ht | ⟨m, rfl⟩ | ⟨v, rfl⟩
  · rcases u.mem_signs_or with hu | hu | hu
    · have hsigns : ∀ t ∈ signs, ∀ u ∈ signs, t.word = u.word → t = u := by
        simp [signs, word, Operator.symbol]
      exact hsigns t ht u hu h
    · obtain ⟨n, rfl⟩ := hnumber.mpr hu
      simp [signs] at ht
    · obtain ⟨v, rfl⟩ := hname.mpr hu
      simp [signs] at ht
  · obtain ⟨n, rfl⟩ := hnumber.mp ⟨m, rfl⟩
    exact congrArg number (digits_injective h)
  · obtain ⟨w, rfl⟩ := hname.mp ⟨v, rfl⟩
    exact congrArg name (Variable.toString_injective (String.toList_injective h))

theorem word_ne_nil (t : Token) : t.word ≠ [] := by
  rcases t.mem_signs_or with ht | ⟨n, rfl⟩ | ⟨v, rfl⟩
  · have hsigns : ∀ t ∈ signs, t.word ≠ [] := by simp [signs, word, Operator.symbol]
    exact hsigns t ht
  · exact Nat.toDigits_ne_nil
  · obtain ⟨c, hc, -⟩ := exists_initial v
    exact List.ne_nil_of_mem hc

/-- Only the parentheses have a character that ends a word. -/
theorem endsWord_of_mem_word {t : Token} (hopening : t ≠ opening) (hclosing : t ≠ closing)
    {c : Char} (hc : c ∈ t.word) : endsWord c = false := by
  have hdigit (h : c.isDigit = true) : endsWord c = false := by
    unfold endsWord
    by_contra hend
    simp only [Bool.not_eq_false, Bool.or_eq_true, decide_eq_true_eq] at hend
    rcases hend with (rfl | rfl) | rfl <;> cases h
  rcases t.mem_signs_or with ht | ⟨n, rfl⟩ | ⟨v, rfl⟩
  · have hsigns : ∀ t ∈ signs, t ≠ opening → t ≠ closing → ∀ c ∈ t.word, endsWord c = false := by
      simp [signs, word, Operator.symbol, endsWord]
    exact hsigns t ht hopening hclosing c hc
  · exact hdigit (isDigit_of_mem_digits hc)
  · rcases Variable.isDigit_or_mem_of_mem_toString hc with h | h
    · exact hdigit h
    · have hsigns : ∀ c ∈ Variable.nameSigns, endsWord c = false := by
        simp [Variable.nameSigns, endsWord]
      exact hsigns c h

end Token

/-! ### Texts -/

/-- The text is written with the tokens, whatever follows it. -/
def Spells (text : List Char) (tokens : List Token) : Prop :=
  ∀ rest, AtEnd rest → words (text ++ rest) = tokens.map Token.word ++ words rest

namespace Spells

variable {text text' : List Char} {tokens tokens' : List Token}

theorem nil : Spells [] [] := fun _ _ => rfl

theorem token {t : Token} (hopening : t ≠ .opening) (hclosing : t ≠ .closing) : Spells t.word [t] :=
  fun _ hrest =>
    words_append (fun _ => Token.endsWord_of_mem_word hopening hclosing) t.word_ne_nil hrest

/-- Texts with a space between them. -/
theorem append (h : Spells text tokens) (h' : Spells text' tokens') :
    Spells (text ++ ' ' :: text') (tokens ++ tokens') := fun rest hrest => by
  have hspace : AtEnd (' ' :: (text' ++ rest)) := by
    rintro _ ⟨⟩
    rfl
  rw [List.append_assoc, List.cons_append, h _ hspace, words_space, h' rest hrest, List.map_append,
    List.append_assoc]

/-- A text in parentheses. -/
theorem node (h : Spells text tokens) :
    Spells ('(' :: text ++ [')']) (.opening :: tokens ++ [.closing]) := fun rest _ => by
  have hclosing : AtEnd (')' :: rest) := by
    rintro _ ⟨⟩
    rfl
  rw [List.append_assoc, List.cons_append, words_opening, List.singleton_append, h _ hclosing,
    words_closing, List.cons_append, List.map_cons, List.map_append, List.cons_append,
    List.append_assoc]
  rfl

end Spells

/-! ### Expressions -/

/-- The tokens of a coefficient. -/
def coefficientTokens (c : Word k) : List Token :=
  if c == (-1 : Felt k).word then [.opening, .minusOne, .closing] else [.number c.felt.val]

/-- The tokens of a term. -/
def Term.tokens (t : Term k) : List Token :=
  let factors := t.vars.map fun v => [.name v]
  [.operator .mult].intercalate (if t.coeff == 1 ∧ t.vars ≠ [] then factors
    else coefficientTokens t.coeff :: factors)

/-- The tokens of an expression. -/
def Expr.tokens : Expr k → List Token
  | .term t => t.tokens
  | .pow base power => .opening :: (base.tokens ++ [.caret, .number power.toNat]) ++ [.closing]
  | .binop lhs rhs op => .opening :: (lhs.tokens ++ .operator op :: rhs.tokens) ++ [.closing]

theorem spells_coefficientText (c : Word k) :
    Spells (coefficientText c).toList (coefficientTokens c) := by
  unfold coefficientText coefficientTokens
  split
  · exact (Spells.token (t := .minusOne) (by decide) (by decide)).node
  · have hdigits : (toString c).toList = (Token.number c.felt.val).word := toList_toString_nat _
    rw [hdigits]
    exact .token nofun nofun

/-- Factors with the sign of multiplication between them. -/
theorem spells_intercalate {texts : List String} {tokens : List (List Token)}
    (h : List.Forall₂ (fun text tokens => Spells text.toList tokens) texts tokens) :
    Spells (" * ".intercalate texts).toList ([.operator .mult].intercalate tokens) := by
  rw [String.toList_intercalate]
  induction h with
  | nil => exact .nil
  | cons hfirst hrest ih =>
      cases hrest with
      | nil => simpa using hfirst
      | cons hsecond hothers =>
          rw [List.map_cons, List.map_cons, List.intercalate_cons_cons, List.intercalate_cons_cons,
            List.append_assoc, List.append_assoc]
          exact hfirst.append ((Spells.token (t := .operator .mult) nofun nofun).append ih)

theorem Term.spells (t : Term k) : Spells t.toString.toList t.tokens := by
  have hfactors : List.Forall₂ (fun text tokens => Spells (String.toList text) tokens)
      (t.vars.map toString) (t.vars.map fun v => [Token.name v]) := by
    rw [List.forall₂_map_left_iff, List.forall₂_map_right_iff, List.forall₂_same]
    exact fun v _ => .token (t := .name v) nofun nofun
  unfold Term.toString Term.tokens
  refine spells_intercalate ?_
  split
  · exact hfactors
  · exact .cons (spells_coefficientText _) hfactors

/-- **The words of the text** of an expression are its tokens. -/
theorem Expr.spells (e : Expr k) : Spells e.toString.toList e.tokens := by
  induction e with
  | term t => exact t.spells
  | pow base power ih =>
      have hnode := (ih.append
        ((Spells.token (t := .caret) nofun nofun).append
          (.token (t := .number power.toNat) nofun nofun))).node
      have htext : (pow base power).toString.toList = '(' :: (base.toString.toList ++ ' ' ::
          (Token.caret.word ++ ' ' :: (Token.number power.toNat).word)) ++ [')'] := by
        simp [Expr.toString, Token.word]
      rw [htext]
      exact hnode
  | binop lhs rhs op ihl ihr =>
      have hnode := (ihl.append ((Spells.token (t := .operator op) nofun nofun).append ihr)).node
      have htext : (binop lhs rhs op).toString.toList = '(' :: (lhs.toString.toList ++ ' ' ::
          ((Token.operator op).word ++ ' ' :: rhs.toString.toList)) ++ [')'] := by
        simp [Expr.toString, Token.word]
      rw [htext]
      exact hnode

/-- Expressions with the same text have the same tokens. -/
theorem Expr.tokens_eq {a b : Expr k} (h : a.toString = b.toString) : a.tokens = b.tokens := by
  have hwords (e : Expr k) : words e.toString.toList = e.tokens.map Token.word := by
    have htext := e.spells [] nofun
    rwa [List.append_nil, show words [] = [] from rfl, List.append_nil] at htext
  exact List.map_injective_iff.mpr Token.word_injective (by rw [← hwords, h, hwords])

end Plonkish
