/-
# Lint rules for scripts

Each rule looks at one node and its surroundings. A script that cannot be read
yields its first fault and nothing else.
-/

import Deadwood.Diagnostic
import Deadwood.Script.Facts

namespace Deadwood.Script

open Deadwood.Grammar

/-- A finding before advice is added. -/
structure Complaint where
  line : Nat
  rule : String
  severity : Severity
  message : String
deriving BEq, Repr

/-- Whether a tree mentions a name where a value is stored. -/
def namesIn (text : Text) (name : String) (tree : Node) : Bool :=
  tree.preorder.any fun node =>
    (node.kind == "identifier" || node.kind == "shorthand_property_identifier_pattern") &&
      text.of node == name

/-- The part of a node that it stores to. -/
def target? (node : Node) : Option Node :=
  if node.kind == "assignment_expression" || node.kind == "augmented_assignment_expression" then
    node.child? "left"
  else if node.kind == "update_expression" then node.child? "argument"
  else none

/-- Whether a name is stored to anywhere in a tree. -/
def isWritten (text : Text) (name : String) (scope : Node) : Bool :=
  scope.preorder.any fun node => (target? node).any (namesIn text name)

/-- The variables of a `let` that have a value and are never stored to again in
the scope around it. Patterns are not looked at. -/
def neverReassigned (text : Text) (declaration : Node) (around : List Node) : List Complaint :=
  let isLet := declaration.kind == "lexical_declaration" &&
    (declaration.children.head?).any fun word => text.of word == "let"
  match around with
  | [] => []
  | scope :: _ =>
    if !isLet then []
    else
      declaration.namedChildren.filterMap fun declarator =>
        if declarator.kind == "variable_declarator" && (declarator.child? "value").isSome then
          match declarator.child? "name" with
          | some name =>
            if name.kind == "identifier" && !isWritten text (text.of name) scope then
              some ⟨declarator.startLine + 1, "prefer-const", .warning,
                "'" ++ text.of name ++ "' is never reassigned. Use 'const' instead."⟩
            else none
          | none => none
        else none

/-- Whether a function is passed straight to a call and needs nothing that an
arrow function lacks: neither `this` and its kin, nor `arguments`, nor its own
name. -/
def isPlainCallback (text : Text) (function : Node) (around : List Node) : Bool :=
  match around with
  | list :: call :: _ =>
    list.kind == "arguments" && call.kind == "call_expression" &&
      match function.child? "body" with
      | none => false
      | some body =>
        let ownName := (function.child? "name").map text.of
        !body.preorder.any fun node =>
          node.kind == "this" || node.kind == "super" || node.kind == "meta_property" ||
            (node.kind == "identifier" &&
              (text.of node == "arguments" || ownName == some (text.of node)))
  | _ => false

/-- What a node by itself is found guilty of. -/
def complaint? (text : Text) (node : Node) (around : List Node) : Option Complaint :=
  let line := node.startLine + 1
  match node.kind with
  | "variable_declaration" =>
    some ⟨line, "no-var", .error, "Unexpected var, use let or const instead."⟩
  | "with_statement" =>
    some ⟨line, "no-with", .error, "Unexpected use of 'with' statement."⟩
  | "binary_expression" =>
    (node.child? "operator").bind fun operator =>
      if operator.kind == "==" || operator.kind == "!=" then
        some ⟨operator.startLine + 1, "eqeqeq", .warning,
          "Expected '" ++ operator.kind ++ "=' and instead saw '" ++ operator.kind ++ "'."⟩
      else none
  | "new_expression" =>
    (node.child? "constructor").bind fun constructor =>
      if constructor.kind == "identifier" && text.of constructor == "Object" then
        some ⟨line, "no-new-object", .warning, "The object literal notation \x7b\x7d is preferable."⟩
      else none
  | "function_expression" =>
    if isPlainCallback text node around then
      some ⟨line, "prefer-arrow-callback", .warning, "Unexpected function expression."⟩
    else none
  | _ => none

/-- What the rules say of a tree, in the order of its nodes. -/
def complaints (tree : Node) (text : Text) : List Complaint :=
  if tree.isBroken then
    match firstFault? tree text with
    | some fault => [⟨fault.line, "parse-error", .error, fault.message⟩]
    | none => []
  else
    (tree.placed []).flatMap fun (node, around) =>
      (complaint? text node around).toList ++ neverReassigned text node around

/-- The findings in a script. -/
def lint (tree : Node) (text : Text) (file : String) : List Diagnostic :=
  (complaints tree text).map fun own =>
    Diagnostic.advised file own.line own.rule own.severity own.message

/-- Reads a script. -/
def parse (source : String) : Node :=
  table.parse source

end Deadwood.Script
