/-
# Selectors as they are written

Selectors of types, classes, conditions on the class attribute, combinators,
negations and lists of alternatives. Every one carries how it is written, down to
the blanks, the escapes and the case of its words, so that it has exactly one text.

A name or a value has two sides: its text, with escapes, and what it stands for.
-/

import Deadwood.Stylesheet.Selector
import Mathlib.Data.Nat.Digits.Defs

namespace Deadwood.Css

open Deadwood.Text (isAsciiBlank isHexDigit)
open Deadwood.Selector (isPlain)

/-! ## Letters -/

/-- The line ends of a stylesheet. -/
def isLineEnd (c : Char) : Bool :=
  c == '\n' || c == '\r' || c.toNat == 0x0C

/-- The number that hexadecimal digits stand for. -/
def numberOf (digits : List Char) : Nat :=
  Nat.ofDigits 16 (digits.reverse.map fun c => "0123456789abcdef".toList.idxOf c.toLower)

/-- How one character of a name or of a string is written. -/
inductive Letter
  /-- As itself. -/
  | plain (c : Char)
  /-- Behind a backslash. A line end written so stands for nothing. -/
  | escaped (c : Char)
  /-- By its number, behind a backslash. One blank may end the number. -/
  | number (digits : List Char) (blank : Option Char)
deriving DecidableEq

namespace Letter

def text : Letter → List Char
  | plain c => [c]
  | escaped c => ['\\', c]
  | number digits blank => '\\' :: (digits ++ blank.toList)

/-- What a letter stands for. Numbers without a character stand for the replacement
character, and so does zero. -/
def value : Letter → List Char
  | plain c => [c]
  | escaped c => if isLineEnd c then [] else [c]
  | number digits _ =>
    let n := numberOf digits
    if n ≠ 0 ∧ n.isValidChar then [Char.ofNat n] else [Char.ofNat 0xFFFD]

/-- Whether a letter is well-formed where only some characters stand for themselves,
and only some can be escaped. -/
def isValid (asItself escapable : Char → Bool) : Letter → Bool
  | plain c => asItself c
  | escaped c => !isHexDigit c && escapable c
  | number digits blank =>
    0 < digits.length && digits.length ≤ 6 && digits.all isHexDigit && blank.all isAsciiBlank

/-- Whether a letter ends before the text behind it. A number goes on with every
further digit, up to six, and takes a blank along. -/
def endsBefore (behind : List Char) : Letter → Bool
  | number digits none =>
    !behind.head?.any isAsciiBlank && (digits.length == 6 || !behind.head?.any isHexDigit)
  | _ => true

end Letter

/-- The text of several letters. -/
def textOf (letters : List Letter) : List Char :=
  letters.flatMap Letter.text

/-- What several letters stand for. -/
def valueOf (letters : List Letter) : List Char :=
  letters.flatMap Letter.value

@[simp] theorem textOf_nil : textOf [] = [] := rfl

@[simp] theorem textOf_cons (letter : Letter) (letters : List Letter) :
    textOf (letter :: letters) = letter.text ++ textOf letters :=
  List.flatMap_cons

@[simp] theorem valueOf_nil : valueOf [] = [] := rfl

@[simp] theorem valueOf_cons (letter : Letter) (letters : List Letter) :
    valueOf (letter :: letters) = letter.value ++ valueOf letters :=
  List.flatMap_cons

theorem textOf_ne_nil {letters : List Letter} (hne : letters ≠ []) : textOf letters ≠ [] := by
  obtain ⟨letter, letters, rfl⟩ := List.exists_cons_of_ne_nil hne
  cases letter <;> simp [textOf, Letter.text]

/-- Whether letters are well-formed, and end before one another. -/
def areSpelled (asItself escapable : Char → Bool) : List Letter → Bool
  | [] => true
  | letter :: letters =>
    letter.isValid asItself escapable &&
      (letters.isEmpty || letter.endsBefore (textOf letters)) &&
        areSpelled asItself escapable letters

/-! ## Names, values and blanks -/

/-- A name. -/
structure Name where
  letters : List Letter
  nonempty : letters ≠ []
  spelled : areSpelled isPlain (!isLineEnd ·) letters = true

namespace Name

def text (name : Name) : List Char := textOf name.letters

def value (name : Name) : List Char := valueOf name.letters

end Name

/-- Characters of a string that need no escape, between the given quotes. -/
def isPlainIn (quote c : Char) : Bool :=
  c != quote && c != '\\' && !isLineEnd c

/-- The value of a condition on an attribute. -/
inductive Value
  | bare (name : Name)
  | quoted (quote : Char) (isQuote : quote = '"' ∨ quote = '\'') (letters : List Letter)
      (spelled : areSpelled (isPlainIn quote) (fun _ => true) letters = true)

namespace Value

def letters : Value → List Letter
  | bare name => name.letters
  | quoted _ _ letters _ => letters

def text : Value → List Char
  | bare name => name.text
  | quoted quote _ letters _ => quote :: (textOf letters ++ [quote])

def value (value : Value) : List Char := valueOf value.letters

def isBare : Value → Bool
  | bare _ => true
  | quoted .. => false

end Value

/-- Blanks between the parts of a selector. -/
structure Gap where
  text : List Char
  blank : text.all isAsciiBlank = true

/-- A word in any case, of the ones given. -/
structure Word (words : List String) where
  text : List Char
  known : words.any (·.toList == text.map Char.toLower) = true

/-! ## Selectors -/

/-- How the value of an attribute is compared. -/
inductive Operator
  | equals
  | includes
  | dashed
  | begins
  | ends
  | contains
deriving DecidableEq

def Operator.text : Operator → List Char
  | equals => ['=']
  | includes => ['~', '=']
  | dashed => ['|', '=']
  | begins => ['^', '=']
  | ends => ['$', '=']
  | contains => ['*', '=']

/-- A condition on the class attribute. -/
structure Attribute where
  beforeWord : Gap
  word : Word ["class"]
  behindWord : Gap
  operator : Operator
  beforeValue : Gap
  value : Value
  behindValue : Gap
  /-- Whether case counts, if that is said. -/
  flag : Option Char
  isFlag : flag.all (['i', 'I', 's', 'S'].contains ·) = true
  /-- A flag does not belong to the value. -/
  apart : value.isBare = true → flag.isSome = true → behindValue.text ≠ []
  behindFlag : Gap

namespace Attribute

/-- What stands behind the value. -/
def ending (a : Attribute) : List Char :=
  a.behindValue.text ++ (a.flag.toList ++ (a.behindFlag.text ++ [']']))

/-- What stands behind the word. -/
def comparison (a : Attribute) : List Char :=
  a.behindWord.text ++ (a.operator.text ++ (a.beforeValue.text ++ (a.value.text ++ a.ending)))

/-- What stands behind the bracket that opens the condition. -/
def body (a : Attribute) : List Char :=
  a.beforeWord.text ++ (a.word.text ++ a.comparison)

def text (a : Attribute) : List Char :=
  '[' :: a.body

end Attribute

/-- What a selector says about the type of an element. -/
inductive Tag
  /-- Nothing. -/
  | unsaid
  | star
  | named (name : Name)

def Tag.text : Tag → List Char
  | unsaid => []
  | star => ['*']
  | named name => name.text

/-- What stands between two compounds. -/
inductive Combinator
  | descendant (gap : Gap) (apart : gap.text ≠ [])
  | child (before behind : Gap)
  | nextSibling (before behind : Gap)
  | laterSibling (before behind : Gap)

def Combinator.text : Combinator → List Char
  | descendant gap _ => gap.text
  | child before behind => before.text ++ '>' :: behind.text
  | nextSibling before behind => before.text ++ '+' :: behind.text
  | laterSibling before behind => before.text ++ '~' :: behind.text

mutual

/-- A selector, from the right: each condition on the last compound stands behind
the rest of the selector. -/
inductive Selector
  | first (tag : Tag)
  | next (left : Selector) (combinator : Combinator) (tag : Tag)
  | withClass (head : Selector) (name : Name)
  | withAttribute (head : Selector) (condition : Attribute)
  | withNegation (head : Selector) (word : Word ["not"]) (list : Alternatives)
  | withAny (head : Selector) (word : Word ["is", "where"]) (list : Alternatives)

/-- A list of selectors. -/
inductive Alternatives
  | last (before : Gap) (selector : Selector) (behind : Gap)
  | more (before : Gap) (selector : Selector) (behind : Gap) (others : Alternatives)

end

mutual

def Selector.text : Selector → List Char
  | .first tag => tag.text
  | .next left combinator tag => left.text ++ (combinator.text ++ tag.text)
  | .withClass head name => head.text ++ '.' :: name.text
  | .withAttribute head condition => head.text ++ condition.text
  | .withNegation head word list => head.text ++ ':' :: (word.text ++ '(' :: (list.text ++ [')']))
  | .withAny head word list => head.text ++ ':' :: (word.text ++ '(' :: (list.text ++ [')']))

def Alternatives.text : Alternatives → List Char
  | .last before selector behind => before.text ++ (selector.text ++ behind.text)
  | .more before selector behind others =>
    before.text ++ (selector.text ++ (behind.text ++ ',' :: others.text))

end

/-- A selector of a list with the blanks around it. -/
structure Item where
  before : Gap
  selector : Selector
  behind : Gap

def Item.text (item : Item) : List Char :=
  item.before.text ++ (item.selector.text ++ item.behind.text)

/-- The selectors of a list. -/
def Alternatives.items : Alternatives → List Item
  | .last before selector behind => [⟨before, selector, behind⟩]
  | .more before selector behind others => ⟨before, selector, behind⟩ :: others.items

end Deadwood.Css
