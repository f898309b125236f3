/-
# What a script declares and mentions

The functions that a script declares by name, the names that it mentions, and
the first fault of one that cannot be read. A faulty script is said to declare
and mention nothing.
-/

import Deadwood.Script.Grammar
import Deadwood.Symbol
import Deadwood.Text.Blank

namespace Deadwood.Script

open Deadwood.Grammar

/-- The text of a script, with a way to cut out stretches of it by byte. -/
structure Text where
  bytes : ByteArray

/-- Prepares a text for cutting. -/
def Text.ofString (source : String) : Text :=
  ⟨source.toUTF8⟩

/-- The text of a node. -/
def Text.of (text : Text) (node : Node) : String :=
  (String.fromUTF8? (text.bytes.extract node.start node.stop)).getD ""

/-- Nodes that hold free-standing statements. -/
def statementLists : List String :=
  ["program", "statement_block", "switch_case", "switch_default"]

/-- Nodes that mention a name. -/
def mentionKinds : List String :=
  ["identifier", "shorthand_property_identifier", "shorthand_property_identifier_pattern"]

/-- The name of a function that a node declares: of a declaration, or of a
variable whose value is a function. -/
def declaredName? (node : Node) : Option Node :=
  let name := (node.child? "name").filter (·.kind == "identifier")
  if node.kind == "function_declaration" || node.kind == "generator_function_declaration" then name
  else if node.kind == "variable_declarator" then
    match node.child? "value" with
    | some value =>
      if ["function_expression", "arrow_function", "generator_function"].contains value.kind then name
      else none
    | none => none
  else none

/-- The statement that goes when a function goes. A variable takes its whole
declaration along, unless others are declared in it; an exported one, the
export. Only a statement that stands free can go. -/
def removable? (node : Node) (around : List Node) : Option Node :=
  let declaration : Option (Node × List Node) :=
    if node.kind == "variable_declarator" then
      match around with
      | parent :: rest =>
        if (parent.kind == "lexical_declaration" || parent.kind == "variable_declaration") &&
            parent.namedChildren.length == 1 then some (parent, rest)
        else none
      | [] => none
    else some (node, around)
  match declaration with
  | none => none
  | some (own, around) =>
    let (own, around) :=
      match around with
      | parent :: rest =>
        if parent.kind == "export_statement" then (parent, rest) else (own, around)
      | [] => (own, around)
    match around with
    | owner :: _ => if statementLists.contains owner.kind then some own else none
    | [] => none

/-- The stretch of text of a node. -/
def spanOf (node : Node) : Span :=
  ⟨node.start, node.stop, node.startLine + 1, node.stopLine + 1⟩

/-- A fault that keeps a script from being read. -/
structure Fault where
  line : Nat
  message : String
deriving BEq, DecidableEq, Repr, Inhabited

/-- The first fault of a tree: a token that is missing, or text that fits
nowhere, told by its first word. -/
def firstFault? (tree : Node) (text : Text) : Option Fault :=
  (tree.preorder.find? fun node => node.isError || node.isMissing).map fun node =>
    let message :=
      if node.isMissing then
        "Parsing error: Unexpected token, expected \"" ++ node.kind ++ "\""
      else
        match Text.words (text.of node).toList with
        | word :: _ => "Parsing error: Unexpected token " ++ String.ofList (word.take 20)
        | [] => "Parsing error: Unexpected end of input"
    ⟨node.startLine + 1, message⟩

/-- What a script declares and mentions. Names may be listed more than once. -/
structure Facts where
  functions : List Symbol := []
  mentions : List String := []
  fault : Option Fault := none
deriving Repr, Inhabited

/-- Reads the facts of a script off its tree. The name in a declaration of a
function does not mention it. -/
def factsOf (tree : Node) (text : Text) (file : String) : Facts :=
  if tree.isBroken then { fault := firstFault? tree text }
  else
    let nodes := tree.placed []
    let declared := nodes.filterMap fun (node, around) =>
      (declaredName? node).map fun name => (name, removable? node around)
    let functions := declared.filterMap fun (name, statement) =>
      statement.map fun node => Symbol.ofFunction (text.of name) file (spanOf node)
    let names := declared.map fun (name, _) => (name.start, name.stop)
    let mentions := nodes.filterMap fun (node, _) =>
      if mentionKinds.contains node.kind && !names.contains (node.start, node.stop) then
        some (text.of node)
      else none
    let startOf (symbol : Symbol) : Nat := (symbol.span.map (·.start)).getD 0
    { functions := functions.mergeSort fun a b => startOf a ≤ startOf b
      mentions }

end Deadwood.Script
