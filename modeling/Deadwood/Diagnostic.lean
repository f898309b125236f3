/-
# Findings of the lint rules
-/

import Deadwood.Advice

namespace Deadwood

/-- How serious a finding is. -/
inductive Severity
  | warning
  | error
deriving BEq, DecidableEq, Repr, Inhabited

/-- The usual numbers: one warns, two is an error. -/
def Severity.toNat : Severity → Nat
  | .warning => 1
  | .error => 2

/-- The severity with a number. -/
def Severity.ofNat? : Nat → Option Severity
  | 1 => some .warning
  | 2 => some .error
  | _ => none

/-- A finding of a lint rule. -/
structure Diagnostic where
  file : String
  line : Nat
  message : String
  rule : String
  severity : Severity
  suggestion : String
deriving BEq, DecidableEq, Repr, Inhabited

/-- A finding with the advice that belongs to its rule. -/
def Diagnostic.advised (file : String) (line : Nat) (rule : String) (severity : Severity)
    (message : String) : Diagnostic :=
  { file, line, message, rule, severity, suggestion := Advice.forFinding (some rule) message }

end Deadwood
