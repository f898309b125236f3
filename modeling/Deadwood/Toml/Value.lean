/-
# TOML documents

A document is a table. Tables come about in different ways, and only some may be
added to later: by a header, on the way to one, by a key with dots, or in one
piece as a value.
-/

namespace Deadwood

/-- A TOML value. -/
inductive Toml
  | string (text : String)
  | integer (value : Int)
  | boolean (value : Bool)
  | float
  | date
  | array (elements : List Toml)
  /-- A table in one piece. -/
  | inlineTable (members : List (String × Toml))
  /-- A table that grows. It is `implicit` until it has a header of its own, and
  `dotted` if a key with dots made it. -/
  | table (implicit dotted : Bool) (members : List (String × Toml))
  /-- Tables under one repeated header. -/
  | tables (each : List (List (String × Toml)))
deriving Inhabited, Repr

namespace Toml

/-- The members of a table, by key. -/
abbrev Members := List (String × Toml)

/-- The member of a table with a key. -/
def find? (members : Members) (key : String) : Option Toml :=
  List.lookup key members

/-- Puts a member in place of the one with its key, or at the end. -/
def put (members : Members) (key : String) (value : Toml) : Members :=
  if members.any (·.1 == key) then members.map fun m => if m.1 == key then (key, value) else m
  else members ++ [(key, value)]

/-- Changes the table at the end of a path. Missing tables on the way are made.
`dotted` tells whether the path is that of a key with dots, which may not lead
through a table that has a header. The change sees whether the table is
dotted. -/
def change (dotted : Bool) : List String → (Bool → Members → Option Members) → Bool → Members →
    Option Members
  | [], f, isDotted, members => f isDotted members
  | key :: path, f, _, members =>
    match find? members key with
    | none => (change dotted path f dotted []).map fun inner =>
        put members key (.table true dotted inner)
    | some (.table implicit own inner) =>
      if dotted && !implicit then none
      else (change dotted path f own inner).map fun inner =>
        put members key (.table implicit own inner)
    | some (.tables each) =>
      match each.getLast? with
      | some last => (change dotted path f false last).map fun inner =>
          put members key (.tables (each.dropLast ++ [inner]))
      | none => none
    | some _ => none

/-- Adds a value under a key, whose dots lead to a table. -/
def addValue (path : List String) (key : String) (value : Toml) (members : Members) :
    Option Members :=
  change true path (fun isDotted inner =>
    if isDotted == path.isEmpty || (find? inner key).isSome then none
    else some (inner ++ [(key, value)])) false members

/-- Adds the table of a header. -/
def addTable (path : List String) (key : String) (members : Members) : Option Members :=
  change false path (fun _ inner =>
    match find? inner key with
    | none => some (inner ++ [(key, .table false false [])])
    | some (.table true false own) => some (put inner key (.table false false own))
    | some _ => none) false members

/-- Adds a table to those of a repeated header. -/
def addToTables (path : List String) (key : String) (members : Members) : Option Members :=
  change false path (fun _ inner =>
    match find? inner key with
    | none => some (inner ++ [(key, .tables [[]])])
    | some (.tables each) => some (put inner key (.tables (each ++ [[]])))
    | some _ => none) false members

/-- Changes the table that a header has opened. -/
def changeOpened : List String → (Members → Option Members) → Members → Option Members
  | [], f, members => f members
  | key :: path, f, members =>
    match find? members key with
    | some (.table implicit dotted inner) => (changeOpened path f inner).map fun inner =>
        put members key (.table implicit dotted inner)
    | some (.tables each) =>
      match each.getLast? with
      | some last => (changeOpened path f last).map fun inner =>
          put members key (.tables (each.dropLast ++ [inner]))
      | none => none
    | _ => none

end Toml

end Deadwood
