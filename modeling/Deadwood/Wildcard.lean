/-
# Wildcards

A pattern without a star stands for one name. One with stars stands for every
name that has its fixed parts in order, with anything before, between and
behind them.
-/

import Deadwood.Text.Offset

namespace Deadwood.Wildcard

/-- The fixed parts of a pattern. -/
def segments (pattern : List Char) : List (List Char) :=
  (pattern.splitOn '*').filter (!·.isEmpty)

/-- The offset of the first occurrence of a text. -/
def find? (text : List Char) : List Char → Option Nat
  | [] => if text.isEmpty then some 0 else none
  | c :: rest =>
    if text.isPrefixOf (c :: rest) then some 0
    else (find? text rest).map (c.utf8Size + ·)

/-- Looks for texts one behind the other, each at its first place behind the
cursor, and tells the offset behind the last; `some none` where one is missing.
There is no answer once the cursor is no place to cut. -/
def walk? (name : List Char) : List (List Char) → Nat → Option (Option Nat)
  | [], cursor => some (some cursor)
  | text :: others, cursor =>
    match Text.splitAt? cursor name with
    | none => none
    | some (_, rest) =>
      match find? text rest with
      | some place => walk? name others (cursor + (place + Text.byteSize text))
      | none => some none

/-- Whether a pattern stands for a name, if the cursor stays on places to cut. -/
def matches? (pattern name : List Char) : Option Bool :=
  if pattern.contains '*' then (walk? name (segments pattern) 0).map (·.isSome)
  else some (pattern == name)

/-- Whether a pattern stands for a name. -/
def matchesName (pattern name : List Char) : Bool :=
  (matches? pattern name).getD false

end Deadwood.Wildcard

namespace Deadwood

/-- Patterns for names that are passed over. -/
structure IgnoreSet where
  patterns : List String := []
deriving BEq, DecidableEq, Repr, Inhabited

namespace IgnoreSet

/-- A set of patterns; empty ones are left out. -/
def ofList (patterns : List String) : IgnoreSet :=
  ⟨patterns.filter (!·.isEmpty)⟩

/-- Adds patterns; empty ones are left out. -/
def extend (set : IgnoreSet) (patterns : List String) : IgnoreSet :=
  ⟨set.patterns ++ patterns.filter (!·.isEmpty)⟩

/-- Whether some pattern stands for a name. -/
def ignores (set : IgnoreSet) (name : String) : Bool :=
  set.patterns.any fun pattern => Wildcard.matchesName pattern.toList name.toList

end IgnoreSet

end Deadwood
