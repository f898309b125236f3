/-
# Policies and decisions

A fix asks about every removal, applies them all, or only proposes them. Who
answers the questions is not its concern.
-/

import Deadwood.Symbol

namespace Deadwood.Fix

/-- How a fix treats what it could remove. -/
inductive Policy
  | interactive
  | applyAll
  | patchOnly
deriving BEq, DecidableEq, Repr, Inhabited

/-- The name of a policy. -/
def Policy.text : Policy → String
  | .interactive => "interactive"
  | .applyAll => "apply-all"
  | .patchOnly => "patch-only"

/-- The policy with a name. -/
def Policy.ofText? (text : String) : Option Policy :=
  [Policy.interactive, .applyAll, .patchOnly].find? (·.text == text)

/-- What is said about a name that no policy has. -/
def Policy.unknown (text : String) : String :=
  "unknown fix policy '" ++ text ++ "' (expected interactive, apply-all or patch-only)"

/-- An answer about a class. -/
inductive ClassDecision
  | process
  | skip
  /-- Skips this class and all that follow. -/
  | skipAll
deriving BEq, DecidableEq, Repr, Inhabited

/-- An answer about a function. -/
inductive FunctionDecision
  | comment
  | keep
  /-- Comments this one out and all that follow in its file. -/
  | commentAllInFile
deriving BEq, DecidableEq, Repr, Inhabited

/-- Somebody who answers, with a state that the questions change. -/
structure Decider (σ : Type) where
  onClass : String → σ → ClassDecision × σ
  /-- Answers about a function, given its lines and some around them. -/
  onFunction : Symbol → String → σ → FunctionDecision × σ

/-- Answers that were given beforehand, and the excerpts shown so far. -/
structure Script where
  classes : List ClassDecision := []
  functions : List FunctionDecision := []
  excerpts : List String := []
deriving Repr, Inhabited

/-- Gives the prepared answers in order. Without one, classes are skipped and
functions kept. -/
def scripted : Decider Script where
  onClass _ script :=
    (script.classes.headD .skip, { script with classes := script.classes.tail })
  onFunction _ excerpt script :=
    (script.functions.headD .keep,
      { script with functions := script.functions.tail, excerpts := script.excerpts ++ [excerpt] })

/-- The classes that are accepted, up to the first answer that skips all. -/
def askClasses {σ : Type} (decider : Decider σ) : List String → σ → List String × σ
  | [], state => ([], state)
  | name :: others, state =>
    match decider.onClass name state with
    | (.process, state) =>
      let (accepted, state) := askClasses decider others state
      (name :: accepted, state)
    | (.skip, state) => askClasses decider others state
    | (.skipAll, state) => ([], state)

/-- The functions of one file that are accepted. After an answer for the whole
file, nothing more is asked. -/
def askFunctions {σ : Type} (decider : Decider σ) (excerptOf : Symbol → String) :
    List Symbol → σ → List Symbol × σ
  | [], state => ([], state)
  | function :: others, state =>
    match decider.onFunction function (excerptOf function) state with
    | (.comment, state) =>
      let (accepted, state) := askFunctions decider excerptOf others state
      (function :: accepted, state)
    | (.keep, state) => askFunctions decider excerptOf others state
    | (.commentAllInFile, state) => (function :: others, state)

end Deadwood.Fix
