/-
# What selectors match

A document is given by what selectors can ask of its elements: their types, their
class attributes, and how they stand to each other. A match names the elements that
it uses, which are the one it is about and those its combinators lead to.

A selector names classes outside of its negations. Where it is clear, a match finds
every one of them on some element that it uses.
-/

import Deadwood.Proofs.Stylesheet.Syntax
import Deadwood.Proofs.Text.Words
import Mathlib.Logic.Relation

namespace Deadwood.Css

open Deadwood.Text (isAsciiBlank isBlank)

/-! ## Documents -/

/-- The elements of a document as selectors see them. -/
structure Document (Element : Type) where
  /-- Whether an element has a type of the given name. -/
  isTag : Element → List Char → Prop
  classAttribute : Element → Option (List Char)
  parent : Element → Option Element
  /-- The element before it with the same parent. -/
  previous : Element → Option Element

/-- The parts of a class attribute between blanks. -/
def tokens (text : List Char) : List (List Char) :=
  (text.splitOnP isAsciiBlank).filter (· ≠ [])

/-- The classes of an element. -/
def Document.classes {Element : Type} (document : Document Element) (element : Element) :
    List (List Char) :=
  ((document.classAttribute element).map tokens).getD []

variable {Element : Type} (document : Document Element)

/-! ## Matches -/

/-- Whether an attribute compares with what a condition asks for. -/
def Operator.Compares (actual wanted : List Char) : Operator → Prop
  | equals => actual = wanted
  | includes => wanted ∈ tokens actual
  | dashed => actual = wanted ∨ wanted ++ ['-'] <+: actual
  | begins => wanted ≠ [] ∧ wanted <+: actual
  | ends => wanted ≠ [] ∧ wanted <:+ actual
  | contains => wanted ≠ [] ∧ wanted <:+: actual

/-- Whether a condition takes letters in either case for the same. -/
def Attribute.ignoresCase (a : Attribute) : Bool :=
  a.flag.any fun c => c == 'i' || c == 'I'

def Attribute.Holds (element : Element) (a : Attribute) : Prop :=
  ∃ actual, document.classAttribute element = some actual ∧
    if a.ignoresCase then
      a.operator.Compares (actual.map Char.toLower) (a.value.value.map Char.toLower)
    else a.operator.Compares actual a.value.value

def Tag.Holds (element : Element) : Tag → Prop
  | unsaid => True
  | star => True
  | named name => document.isTag element name.value

/-- Where a combinator leads from an element, to the left. -/
def Combinator.Leads (element other : Element) : Combinator → Prop
  | descendant _ _ => Relation.TransGen (fun a b => document.parent a = some b) element other
  | child _ _ => document.parent element = some other
  | nextSibling _ _ => document.previous element = some other
  | laterSibling _ _ =>
    Relation.TransGen (fun a b => document.previous a = some b) element other

mutual

/-- A selector matches an element, and the match uses some elements. -/
def Selector.Matches : Selector → Element → List Element → Prop
  | .first tag, element, used => tag.Holds document element ∧ used = [element]
  | .next left combinator tag, element, used =>
    tag.Holds document element ∧ ∃ other others, combinator.Leads document element other ∧
      left.Matches other others ∧ used = element :: others
  | .withClass head name, element, used =>
    head.Matches element used ∧ name.value ∈ document.classes element
  | .withAttribute head condition, element, used =>
    head.Matches element used ∧ condition.Holds document element
  | .withNegation head _ list, element, used =>
    head.Matches element used ∧ ∀ others, ¬ list.Matches element others
  | .withAny head _ list, element, used =>
    ∃ here others, head.Matches element here ∧ list.Matches element others ∧ used = here ++ others

/-- A list of selectors matches an element if one of them does. -/
def Alternatives.Matches : Alternatives → Element → List Element → Prop
  | .last _ selector _, element, used => selector.Matches element used
  | .more _ selector _ others, element, used =>
    selector.Matches element used ∨ others.Matches element used

end

/-- A match uses the element that it is about. -/
theorem Selector.Matches.mem {document : Document Element} {selector : Selector}
    {element : Element} {used : List Element} (hmatches : selector.Matches document element used) :
    element ∈ used := by
  match selector with
  | .first tag =>
    obtain ⟨-, rfl⟩ := hmatches
    exact List.mem_singleton_self element
  | .next left combinator tag =>
    obtain ⟨-, other, others, -, -, rfl⟩ := hmatches
    exact List.mem_cons_self
  | .withClass head name => exact hmatches.1.mem
  | .withAttribute head condition => exact hmatches.1.mem
  | .withNegation head word list => exact hmatches.1.mem
  | .withAny head word list =>
    obtain ⟨here, others, hhead, -, rfl⟩ := hmatches
    exact List.mem_append_left _ hhead.mem

/-! ## Classes that a selector names -/

mutual

/-- The classes that a selector names outside of negations. -/
def Selector.named : Selector → List (List Char)
  | .first _ => []
  | .next left _ _ => left.named
  | .withClass head name => head.named ++ [name.value]
  | .withAttribute head condition => head.named ++ tokens condition.value.value
  | .withNegation head _ _ => head.named
  | .withAny head _ list => head.named ++ list.named

def Alternatives.named : Alternatives → List (List Char)
  | .last _ selector _ => selector.named
  | .more _ selector _ others => selector.named ++ others.named

end

/-! ## Clear selectors -/

/-- Whether an escape before some text is clear: it does not have the number zero,
and if no blank ends it, none follows that belongs to the name. -/
def Letter.isClear (behind : List Char) : Letter → Bool
  | plain _ => true
  | escaped _ => true
  | number digits blank => numberOf digits != 0 && (blank.isSome || !behind.head?.any isBlank)

def areClear : List Letter → Bool
  | [] => true
  | letter :: letters => letter.isClear (textOf letters) && areClear letters

def Name.isClear (name : Name) : Bool :=
  areClear name.letters

/-- Whether letters end with a number that would take a blank along. -/
def endOpen (letters : List Letter) : Bool :=
  letters.getLast?.any fun letter =>
    match letter with
    | .number _ none => true
    | _ => false

/-- Whether a selector ends with a class whose name would take a blank along. -/
def Selector.endsOpen : Selector → Bool
  | .withClass _ name => endOpen name.letters
  | _ => false

/-- No dot is escaped in the name of a type. -/
def Tag.isClear : Tag → Bool
  | unsaid => true
  | star => true
  | named name => !name.text.contains '.'

/-- A clear value is written without escapes, and with no blanks but those that part
classes. -/
def Value.isClear (value : Value) : Bool :=
  value.letters.all fun letter =>
    match letter with
    | .plain c => !isBlank c || isAsciiBlank c
    | _ => false

/-- A clear condition asks for the whole attribute or for one of its classes. -/
def Attribute.isClear (a : Attribute) : Bool :=
  (a.operator == .equals || a.operator == .includes) && !a.ignoresCase && a.value.isClear

def Alternatives.isSingle : Alternatives → Bool
  | .last .. => true
  | .more .. => false

mutual

/-- A selector is clear if all of it is, outside of negations, no name of a class takes
along a blank that does not belong to it, and where there are several alternatives,
none of them names a class. -/
def Selector.isClear : Selector → Bool
  | .first tag => tag.isClear
  | .next left combinator tag =>
    left.isClear && tag.isClear && !(left.endsOpen && combinator.text.head?.any isAsciiBlank)
  | .withClass head name => head.isClear && name.isClear
  | .withAttribute head condition => head.isClear && condition.isClear
  | .withNegation head _ _ => head.isClear
  | .withAny head _ list =>
    head.isClear && list.isClear && (list.isSingle || list.named.isEmpty)

def Alternatives.isClear : Alternatives → Bool
  | .last _ selector behind => selector.isClear && !(selector.endsOpen && !behind.text.isEmpty)
  | .more _ selector behind others =>
    selector.isClear && !(selector.endsOpen && !behind.text.isEmpty) && others.isClear

end

/-! ## Classes that a match finds -/

variable {document}

theorem tokens_of_mem_tokens {text token : List Char} (htoken : token ∈ tokens text) :
    tokens token = [token] := by
  obtain ⟨hmem, hne⟩ := List.mem_filter.mp htoken
  have hsplit : token.splitOnP isAsciiBlank = [token] :=
    List.splitOnP_eq_singleton fun c hc =>
      (Text.exists_mem_splitOnP_iff.mp ⟨token, hmem, hc⟩).2
  simpa [tokens, hsplit] using hne

theorem Attribute.Holds.mem_classes {a : Attribute} {element : Element}
    (hholds : a.Holds document element) (hclear : a.isClear = true) {name : List Char}
    (hname : name ∈ tokens a.value.value) : name ∈ document.classes element := by
  obtain ⟨actual, hactual, hcompares⟩ := hholds
  simp only [Attribute.isClear, Bool.and_eq_true, Bool.or_eq_true, beq_iff_eq,
    Bool.not_eq_true_eq_eq_false] at hclear
  obtain ⟨⟨hoperator, hcase⟩, -⟩ := hclear
  rw [hcase, if_neg Bool.false_ne_true] at hcompares
  rw [Document.classes, hactual, Option.map_some, Option.getD_some]
  rcases hoperator with hequals | hincludes
  · rw [hequals] at hcompares
    rwa [show actual = a.value.value from hcompares]
  · rw [hincludes] at hcompares
    have hwhole : a.value.value ∈ tokens actual := hcompares
    rw [tokens_of_mem_tokens hwhole, List.mem_singleton] at hname
    rwa [hname]

mutual

/-- Where a clear selector matches, each class that it names is found on an element
of the match. -/
theorem Selector.Matches.exists_mem_classes {selector : Selector} {element : Element}
    {used : List Element} (hmatches : selector.Matches document element used)
    (hclear : selector.isClear = true) {name : List Char} (hname : name ∈ selector.named) :
    ∃ carrier ∈ used, name ∈ document.classes carrier := by
  match selector with
  | .first tag => simp [Selector.named] at hname
  | .next left combinator tag =>
    obtain ⟨-, other, others, -, hleft, rfl⟩ := hmatches
    simp only [Selector.isClear, Bool.and_eq_true] at hclear
    obtain ⟨carrier, hcarrier, hmem⟩ := hleft.exists_mem_classes hclear.1.1 hname
    exact ⟨carrier, List.mem_cons_of_mem _ hcarrier, hmem⟩
  | .withClass head own =>
    obtain ⟨hhead, hown⟩ := hmatches
    simp only [Selector.isClear, Bool.and_eq_true] at hclear
    rcases List.mem_append.mp hname with hname | hname
    · exact hhead.exists_mem_classes hclear.1 hname
    · obtain rfl := List.mem_singleton.mp hname
      exact ⟨element, hhead.mem, hown⟩
  | .withAttribute head condition =>
    obtain ⟨hhead, hholds⟩ := hmatches
    simp only [Selector.isClear, Bool.and_eq_true] at hclear
    rcases List.mem_append.mp hname with hname | hname
    · exact hhead.exists_mem_classes hclear.1 hname
    · exact ⟨element, hhead.mem, hholds.mem_classes hclear.2 hname⟩
  | .withNegation head word list => exact hmatches.1.exists_mem_classes hclear hname
  | .withAny head word list =>
    obtain ⟨here, others, hhead, hlist, rfl⟩ := hmatches
    simp only [Selector.isClear, Bool.and_eq_true, Bool.or_eq_true] at hclear
    obtain ⟨⟨hheadClear, hlistClear⟩, hsingle⟩ := hclear
    rcases List.mem_append.mp hname with hname | hname
    · obtain ⟨carrier, hcarrier, hmem⟩ := hhead.exists_mem_classes hheadClear hname
      exact ⟨carrier, List.mem_append_left _ hcarrier, hmem⟩
    · have hsingle : list.isSingle = true := by
        rcases hsingle with hsingle | hnone
        · exact hsingle
        · rw [List.isEmpty_iff.mp hnone] at hname
          simp at hname
      obtain ⟨carrier, hcarrier, hmem⟩ := hlist.exists_mem_classes hlistClear hsingle hname
      exact ⟨carrier, List.mem_append_right _ hcarrier, hmem⟩

theorem Alternatives.Matches.exists_mem_classes {list : Alternatives} {element : Element}
    {used : List Element} (hmatches : list.Matches document element used)
    (hclear : list.isClear = true) (hsingle : list.isSingle = true) {name : List Char}
    (hname : name ∈ list.named) : ∃ carrier ∈ used, name ∈ document.classes carrier := by
  match list with
  | .last before selector behind =>
    simp only [Alternatives.isClear, Bool.and_eq_true] at hclear
    exact Selector.Matches.exists_mem_classes hmatches hclear.1 hname

end

end Deadwood.Css
