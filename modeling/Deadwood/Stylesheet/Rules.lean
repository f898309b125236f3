/-
# The rules of a stylesheet
-/

import Deadwood.Stylesheet.Grammar
import Deadwood.Stylesheet.Selector

namespace Deadwood.Stylesheet

open Deadwood.Grammar Deadwood.Text

/-- A rule of a stylesheet and the stretch of its list of selectors. -/
structure RuleSpan where
  start : Nat
  stop : Nat
  selectors : Range
  /-- The rule could be read only with a repair. -/
  broken : Bool
deriving BEq, DecidableEq, Repr, Inhabited

/-- The rules of a stylesheet in the order of their beginnings, those inside
other rules and statements included. -/
def ruleSpans (tree : Node) : List RuleSpan :=
  (tree.preorder.filter (·.kind == "rule_set")).filterMap fun rule =>
    (rule.childOfKind? "selectors").map fun selectors =>
      ⟨rule.start, rule.stop, ⟨selectors.start, selectors.stop⟩, rule.isBroken⟩

/-- The classes that the rules of a stylesheet define. Names may be listed more
than once. -/
def classesOf (rules : List RuleSpan) (source : List Char) : List String :=
  rules.flatMap fun rule =>
    match slice? source rule.selectors with
    | some list => (Selector.definedClasses list).map String.ofList
    | none => []

end Deadwood.Stylesheet
