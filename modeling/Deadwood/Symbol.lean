/-
# Symbols

The things under analysis: classes of stylesheets, elements of pages, and
functions of scripts, with the stretch of text that declares each function.
-/

namespace Deadwood

/-- A stretch of a text in bytes, from `start` up to `stop`, and the lines that
it covers, counted from one. -/
structure Span where
  start : Nat
  stop : Nat
  startLine : Nat
  stopLine : Nat
deriving BEq, DecidableEq, Hashable, Repr, Inhabited

namespace Span

/-- Whether an offset belongs to a declaration. The offset right behind the last
byte still does. -/
def contains (span : Span) (offset : Nat) : Bool :=
  span.start ≤ offset && offset ≤ span.stop

/-- The number of bytes; none when the ends are out of order. -/
def length (span : Span) : Nat :=
  span.stop - span.start

end Span

/-- What a symbol names. -/
inductive SymbolKind
  | cssClass
  | htmlTag
  | jsFunction
deriving BEq, DecidableEq, Hashable, Repr, Inhabited

/-- A named thing under analysis. -/
structure Symbol where
  kind : SymbolKind
  name : String
  /-- The file that defines it; elements have none. -/
  file : Option String
  /-- Where its declaration stands; only functions have one. -/
  span : Option Span
deriving BEq, DecidableEq, Hashable, Repr, Inhabited

namespace Symbol

/-- A class of a stylesheet, with or without the dots of its selector. -/
def ofClass (name file : String) : Symbol :=
  ⟨.cssClass, String.ofList (name.toList.dropWhile (· == '.')), some file, none⟩

/-- An element of a page. Names of elements do not tell cases apart. -/
def ofTag (name : String) : Symbol :=
  ⟨.htmlTag, String.ofList (name.toList.map Char.toLower), none, none⟩

/-- A function of a script. -/
def ofFunction (name file : String) (span : Span) : Symbol :=
  ⟨.jsFunction, name, some file, some span⟩

/-- The name of a symbol, behind the file that defines it. -/
def id (symbol : Symbol) : String :=
  match symbol.file with
  | some file => file ++ "::" ++ symbol.name
  | none => symbol.name

end Symbol

end Deadwood
