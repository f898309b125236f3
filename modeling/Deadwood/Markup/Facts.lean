/-
# What a page uses

The classes and elements of a page, and the code that stands in it.
-/

import Deadwood.Markup.Grammar
import Deadwood.Text.Blank
import Deadwood.Text.Offset

namespace Deadwood.Markup

open Deadwood.Grammar Deadwood.Text

/-- What a page uses. Names may be listed more than once. -/
structure Facts where
  /-- The words of every class attribute. -/
  classes : List String := []
  /-- The names of the elements, in small letters. -/
  tags : List String := []
  /-- The code inside script elements. -/
  scripts : List String := []
  /-- The rules inside style elements. -/
  styles : List String := []
  /-- The code in the attributes for events. -/
  handlers : List String := []
deriving Repr, Inhabited

/-- A name in small letters. -/
def lowered (text : String) : String :=
  String.ofList (text.toList.map Char.toLower)

/-- The value of an attribute, between quotes or not. -/
def valueOf? (owner : Node) : Option Node :=
  owner.childOfKind? "attribute_value" <|>
    (owner.childOfKind? "quoted_attribute_value").bind (·.childOfKind? "attribute_value")

/-- Adds what one node shows of a page. `around` are the nodes around it. -/
def Facts.add (textOf : Node → String) (facts : Facts) (node : Node) (around : List Node) : Facts :=
  match node.kind with
  | "tag_name" =>
    if (around.head?).any fun parent => parent.kind == "start_tag" || parent.kind == "self_closing_tag" then
      { facts with tags := facts.tags ++ [lowered (textOf node)] }
    else facts
  | "attribute" =>
    match node.childOfKind? "attribute_name" with
    | none => facts
    | some name =>
      let name := lowered (textOf name)
      let value := ((valueOf? node).map textOf).getD ""
      if name == "class" then { facts with classes := facts.classes ++ wordsOf value }
      else if "on".toList.isPrefixOf name.toList && !value.isEmpty then
        { facts with handlers := facts.handlers ++ [value] }
      else facts
  | "script_element" =>
    match node.childOfKind? "raw_text" with
    | some body => { facts with scripts := facts.scripts ++ [textOf body] }
    | none => facts
  | "style_element" =>
    match node.childOfKind? "raw_text" with
    | some body => { facts with styles := facts.styles ++ [textOf body] }
    | none => facts
  | _ => facts

/-- Reads off its tree what a page uses. -/
def factsOf (tree : Node) (source : List Char) : Facts :=
  let textOf (node : Node) : String :=
    String.ofList ((slice? source ⟨node.start, node.stop⟩).getD [])
  (tree.placed []).foldl (fun facts (node, around) => facts.add textOf node around) {}

end Deadwood.Markup
