/-
# Taking classes out of a stylesheet

A selector goes if it requires a class that goes. A rule that loses all its
selectors goes with the lines it stands on; one that keeps some has its list
shortened. Rules that could be read only with a repair are left alone.
-/

import Deadwood.Stylesheet.Rules
import Deadwood.Text.Lines
import Deadwood.Text.Splice

namespace Deadwood.Stylesheet

open Deadwood.Text

/-- Blanks that may stand around a rule on its lines. -/
def isIndent (c : Char) : Bool :=
  c == ' ' || c == '\t'

/-- A stretch together with the indentation before it and the line end behind
it, if nothing else stands on its lines; otherwise the stretch itself. -/
def widenToLines (source : List Char) (range : Range) : Range :=
  match splitAt? range.start source, splitAt? range.stop source with
  | some (before, _), some (_, after) =>
    let indent := before.reverse.takeWhile isIndent
    let ahead := before.reverse.dropWhile isIndent
    let gap := after.takeWhile fun c => isIndent c || c == '\r'
    let behind := after.dropWhile fun c => isIndent c || c == '\r'
    if ahead.isEmpty || ahead.head? == some '\n' then
      match behind with
      | [] => ⟨range.start - byteSize indent, range.stop + byteSize gap⟩
      | c :: _ =>
        if c = '\n' then ⟨range.start - byteSize indent, range.stop + byteSize gap + 1⟩ else range
    else range
  | _, _ => range

/-- What becomes of a rule. -/
inductive Fate
  | stays
  | goes
  /-- The list of selectors is replaced. -/
  | shrinks (list : List Char)
deriving BEq, DecidableEq, Repr, Inhabited

/-- The selectors of a list that require none of the given classes. -/
def survivors (goes : List Char → Bool) (list : List Char) : List (List Char) :=
  (Selector.split list).filter fun selector => !(Selector.requiredClasses selector).any goes

/-- What parts the selectors of a list: a comma and the blanks behind the first
one. -/
def separatorOf (list : List Char) : List Char :=
  match Selector.split list with
  | _ :: second :: _ => ',' :: second.takeWhile isBlank
  | _ => [',', ' ']

/-- What becomes of a rule with the given list of selectors. -/
def fateOf (goes : List Char → Bool) (list : List Char) : Fate :=
  let kept := survivors goes list
  if kept.length = (Selector.split list).length then .stays
  else if kept.isEmpty then .goes
  else .shrinks (joinWith (separatorOf list) (kept.map trim))

/-- What becomes of each rule that can be touched. -/
def fates (goes : List Char → Bool) (source : List Char) (rules : List RuleSpan) :
    List (RuleSpan × Fate) :=
  (rules.filter (!·.broken)).filterMap fun rule =>
    (slice? source rule.selectors).map fun list => (rule, fateOf goes list)

/-- The edit that brings about a rule's fate. -/
def editOf? (source : List Char) : RuleSpan × Fate → Option Edit
  | (_, .stays) => none
  | (rule, .goes) =>
    let wide := widenToLines source ⟨rule.start, rule.stop⟩
    some ⟨wide.start, wide.stop, []⟩
  | (rule, .shrinks list) => some ⟨rule.selectors.start, rule.selectors.stop, list⟩

/-- A stylesheet without some classes. -/
structure Stripped where
  content : List Char
  /-- How many rules lost all their selectors. -/
  removed : Nat
  /-- How many rules lost some. -/
  shortened : Nat
deriving BEq, DecidableEq, Repr, Inhabited

/-- Whether any rule lost a selector. -/
def Stripped.changed (outcome : Stripped) : Bool :=
  outcome.removed + outcome.shortened > 0

/-- Takes out every selector that requires a class that goes. -/
def strip (rules : List RuleSpan) (source : List Char) (goes : List Char → Bool) : Stripped :=
  let fates := fates goes source rules
  let edits := fates.filterMap (editOf? source)
  { content := ((splice? source edits).map (·.1)).getD source
    removed := fates.countP fun entry => entry.2 == .goes
    shortened := fates.countP fun entry => entry.2 != .goes && entry.2 != .stays }

end Deadwood.Stylesheet
