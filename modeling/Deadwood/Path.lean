/-
# Paths

A path is a text; its parts are the names between slashes. Empty parts and dots
do not count, except a dot in front. Two paths are the same if their parts are.
-/

namespace Deadwood

/-- A path as it is written. -/
structure Path where
  text : String
deriving BEq, DecidableEq, Hashable, Repr, Inhabited

/-- A part of a path. -/
inductive Path.Part
  | root
  | here
  | up
  | named (name : String)
deriving BEq, DecidableEq, Repr, Inhabited

namespace Path

/-- The stretches of a path between its slashes. -/
def segments (path : Path) : List String :=
  (path.text.toList.splitOnP (· == '/')).map String.ofList

/-- Whether a path begins at the root of all paths. -/
def isAbsolute (path : Path) : Bool :=
  path.text.toList.head? == some '/'

/-- The part that a segment behind the first stands for, if any. -/
def Part.ofSegment? (segment : String) : Option Part :=
  if segment.isEmpty || segment == "." then none
  else if segment == ".." then some .up
  else some (.named segment)

/-- The part that the first segment stands for, if any. -/
def Part.ofFirst? (segment : String) : Option Part :=
  if segment == "." then some .here else Part.ofSegment? segment

/-- The parts of a path. -/
def parts (path : Path) : List Part :=
  if path.isAbsolute then .root :: path.segments.filterMap Part.ofSegment?
  else
    match path.segments with
    | [] => []
    | first :: others => (Part.ofFirst? first).toList ++ others.filterMap Part.ofSegment?

/-- A part as a text. -/
def Part.text : Part → String
  | .root => "/"
  | .here => "."
  | .up => ".."
  | .named name => name

/-- Whether two paths have the same parts. -/
def isSame (a b : Path) : Bool :=
  a.parts == b.parts

/-- Whether a path begins with all parts of another. -/
def startsWith (path front : Path) : Bool :=
  front.parts.isPrefixOf path.parts

/-- Segments between slashes. -/
def ofSegments (segments : List String) : Path :=
  ⟨"/".intercalate segments⟩

/-- Leaves out the segments at the end that stand for no part. -/
def dropTrailing (segments : List String) : List String :=
  (segments.reverse.dropWhile fun s => (Part.ofSegment? s).isNone).reverse

/-- A path without what stands behind its last part. -/
def trimmed (path : Path) : Path :=
  if path.isAbsolute then
    match dropTrailing path.segments.tail with
    | [] => ⟨"/"⟩
    | segments => ofSegments ("" :: segments)
  else
    match path.segments with
    | [] => path
    | first :: others =>
      if first == "." then ofSegments (first :: dropTrailing others)
      else ofSegments (dropTrailing (first :: others))

/-- Leaves out the segments of so many parts. -/
def dropParts : Nat → List String → List String
  | 0, segments => segments
  | _ + 1, [] => []
  | count + 1, segment :: others =>
    if (Part.ofSegment? segment).isSome then dropParts count others
    else dropParts (count + 1) others

/-- What stands behind a path inside another; none if it is not inside. -/
def relativeTo? (path root : Path) : Option Path :=
  if path.startsWith root then
    match root.parts with
    | [] => some path.trimmed
    | first :: others =>
      let rest :=
        match first with
        | .root => dropParts others.length path.segments
        | .here => dropParts others.length path.segments.tail
        | _ => dropParts (others.length + 1) path.segments
      some (ofSegments (dropTrailing (rest.dropWhile fun s => (Part.ofSegment? s).isNone)))
  else none

/-- A path as it is shown for a project at a root: relative to it if it is inside,
and with slashes only. -/
def shownIn (path root : Path) : String :=
  let shown := (path.relativeTo? root).getD path
  String.ofList (shown.text.toList.map fun c => if c = '\\' then '/' else c)

/-- A path inside another. One that is absolute stays what it is. -/
def join (path inner : Path) : Path :=
  if inner.isAbsolute then inner
  else if path.text.isEmpty || path.text.toList.getLast? == some '/' then ⟨path.text ++ inner.text⟩
  else ⟨path.text ++ "/" ++ inner.text⟩

/-- The name at the end of a path, if its last part is one. -/
def name? (path : Path) : Option String :=
  match path.parts.getLast? with
  | some (.named name) => some name
  | _ => none

/-- The name of the file for use in other names. -/
def baseName (path : Path) : String :=
  path.name?.getD "file"

/-- The path around the last part; none if there is no part to leave. -/
def parent? (path : Path) : Option Path :=
  match path.parts.getLast? with
  | none => none
  | some .root => none
  | some .here => some ⟨""⟩
  | some _ =>
    let kept := (dropTrailing path.segments).dropLast
    some (if path.isAbsolute then Path.mk ("/" ++ (ofSegments kept.tail).text)
      else ofSegments kept).trimmed

/-- A path with another name at its end. -/
def withName (path : Path) (name : String) : Path :=
  if path.name?.isSome then (path.parent?.getD ⟨""⟩).join ⟨name⟩ else path.join ⟨name⟩

/-- What stands behind the last dot of a name, unless that dot is in front. -/
def extension? (path : Path) : Option String :=
  path.name?.bind fun name =>
    let reversed := name.toList.reverse
    let behind := (reversed.takeWhile (· != '.')).reverse
    match reversed.dropWhile (· != '.') with
    | [] => none
    | _ :: before => if before.isEmpty then none else some (String.ofList behind)

/-- A name in small letters, as far as they are those of ASCII. -/
def lowerAscii (text : String) : String :=
  String.ofList (text.toList.map Char.toLower)

end Path

/-- The language of a file. -/
inductive FileKind
  | markup
  | stylesheet
  | script
deriving BEq, DecidableEq, Repr, Inhabited

/-- The language of a file, by the end of its name. -/
def FileKind.ofPath? (path : Path) : Option FileKind :=
  path.extension?.bind fun ending =>
    let ending := Path.lowerAscii ending
    if ["html", "htm", "ejs"].contains ending then some .markup
    else if ending == "css" then some .stylesheet
    else if ["js", "mjs", "cjs"].contains ending then some .script
    else none

/-- The name of the backup of a file in a run. -/
def Path.backup (path : Path) (millis : String) : Path :=
  path.withName (path.name?.getD "" ++ ".bak." ++ millis)

end Deadwood
