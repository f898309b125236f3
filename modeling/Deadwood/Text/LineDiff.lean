/-
# Differences between two texts, line by line

Every line of both texts is listed once, marked as kept, deleted or inserted,
and as many lines as possible are kept. Where lines change, the deleted ones
come before the inserted ones.
-/

import Deadwood.Text.Lines

namespace Deadwood.Text

/-- What becomes of a line. -/
inductive Change (α : Type)
  | keep (line : α)
  | delete (line : α)
  | insert (line : α)
deriving BEq, DecidableEq, Repr

namespace Diff

variable {α : Type} [BEq α]

/-- The lengths of the longest common subsequences of `x :: a` with each end of
`b`, given those of `a`. Both lists go from the whole of `b` to its empty end. -/
def row (x : α) : List α → List Nat → List Nat
  | [], _ => [0]
  | y :: b, below =>
    let rest := row x b below.tail
    let longest :=
      if x == y then below.tail.headD 0 + 1 else max (below.headD 0) (rest.headD 0)
    longest :: rest

/-- The lengths of the longest common subsequences of each end of `a` with each
end of `b`. -/
def table (a b : List α) : List (List Nat) :=
  a.foldr (fun x rows => row x b (rows.headD []) :: rows) [List.replicate (b.length + 1) 0]

/-- The changes between two lists. `longest` gives the length of a longest
common subsequence of two ends; among equals a line is deleted first. -/
def walk (longest : List α → List α → Nat) : List α → List α → List (Change α)
  | [], new => new.map .insert
  | old, [] => old.map .delete
  | x :: old, y :: new =>
    if x == y then .keep x :: walk longest old new
    else if longest (x :: old) new ≤ longest old (y :: new) then
      .delete x :: walk longest old (y :: new)
    else .insert y :: walk longest (x :: old) new
termination_by old new => old.length + new.length

/-- The changes between two lists that differ at both ends. -/
def middle (old new : List α) : List (Change α) :=
  let rows := ((table old new).map List.toArray).toArray
  let longest (a b : List α) : Nat :=
    (rows.getD (old.length - a.length) #[]).getD (new.length - b.length) 0
  walk longest old new

/-- How many elements two lists share in front. -/
def sharedCount : List α → List α → Nat
  | x :: old, y :: new => if x == y then sharedCount old new + 1 else 0
  | _, _ => 0

/-- The changes between two lists. What they share in front and at the end is
kept and not looked at further. -/
def changes (old new : List α) : List (Change α) :=
  let front := sharedCount old new
  let oldRest := old.drop front
  let newRest := new.drop front
  let back := sharedCount oldRest.reverse newRest.reverse
  (old.take front).map .keep ++
    middle (oldRest.take (oldRest.length - back)) (newRest.take (newRest.length - back)) ++
    (oldRest.drop (oldRest.length - back)).map .keep

end Diff

/-- A changed line as it is written, behind a mark. -/
def Change.render : Change (List Char) → List Char
  | .keep line => ' ' :: line ++ ['\n']
  | .delete line => '-' :: line ++ ['\n']
  | .insert line => '+' :: line ++ ['\n']

/-- The differences between two versions of a file, under two lines that name
it. -/
def lineDiff (file old new : List Char) : List Char :=
  "*** ".toList ++ file ++ "\n--- ".toList ++ file ++ ['\n'] ++
    (Diff.changes (lines old) (lines new)).flatMap Change.render

end Deadwood.Text
