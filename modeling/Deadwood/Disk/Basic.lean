/-
# Disks

A disk is a table from locations to files, directories and links. The names of a
path are looked up one after the other, links are followed on the way, and
whatever stands in the way is told as an error.

What the next writes and copies run into is part of a disk, so that one can speak
of disks on which some of them fail. Such a failure changes no file.
-/

import Deadwood.Path

namespace Deadwood

/-- The names from the root to a place. -/
abbrev Location := List String

/-- What stands at a place. -/
inductive Entry
  | file (bytes : ByteArray)
  | directory
  | link (target : String)
deriving Inhabited

/-- Files are the same if their bytes are. -/
instance : DecidableEq Entry
  | .file a, .file b =>
    if hsame : a.data = b.data then isTrue (congrArg Entry.file (ByteArray.ext hsame))
    else isFalse fun hfiles => hsame (congrArg ByteArray.data (Entry.file.inj hfiles))
  | .directory, .directory => isTrue rfl
  | .link a, .link b =>
    if hsame : a = b then isTrue (congrArg Entry.link hsame)
    else isFalse fun hlinks => hsame (Entry.link.inj hlinks)
  | .file _, .directory => isFalse nofun
  | .file _, .link _ => isFalse nofun
  | .directory, .file _ => isFalse nofun
  | .directory, .link _ => isFalse nofun
  | .link _, .file _ => isFalse nofun
  | .link _, .directory => isFalse nofun

/-- Why something cannot be done. -/
inductive DiskError
  | notFound
  | alreadyExists
  | noDevice
  | notDirectory
  | isDirectory
  | nameTooLong
  | tooManyLinks
  | zeroByte
  | notRegular
deriving BEq, DecidableEq, Repr, Inhabited

/-- The text of an error. -/
def DiskError.message : DiskError → String
  | .notFound => "No such file or directory (os error 2)"
  | .alreadyExists => "File exists (os error 17)"
  | .noDevice => "No such device (os error 19)"
  | .notDirectory => "Not a directory (os error 20)"
  | .isDirectory => "Is a directory (os error 21)"
  | .nameTooLong => "File name too long (os error 36)"
  | .tooManyLinks => "Too many levels of symbolic links (os error 40)"
  | .zeroByte => "file name contained an unexpected NUL byte"
  | .notRegular => "the source path is neither a regular file nor a symlink to a regular file"

/-- A disk. -/
structure Disk where
  /-- What stands where, in the order of the locations. -/
  entries : List (Location × Entry) := []
  /-- Where paths that are not absolute begin. -/
  workingDir : Location := []
  /-- What the next writes and copies run into, if anything. -/
  troubles : List (Option DiskError) := []
deriving Inhabited

namespace Disk

/-! ## Places -/

/-- What stands at a place. The root is a directory. -/
def get? (disk : Disk) (location : Location) : Option Entry :=
  if location.isEmpty then some .directory else List.lookup location disk.entries

/-- Puts an entry in its place in a table ordered by location. -/
def insertEntry (location : Location) (entry : Entry) :
    List (Location × Entry) → List (Location × Entry)
  | [] => [(location, entry)]
  | (other, old) :: rest =>
    if location = other then (location, entry) :: rest
    else if location < other then (location, entry) :: (other, old) :: rest
    else (other, old) :: insertEntry location entry rest

/-- Puts an entry at a place. -/
def put (disk : Disk) (location : Location) (entry : Entry) : Disk :=
  { disk with entries := insertEntry location entry disk.entries }

/-- Takes away what stands at a place and below it. -/
def erase (disk : Disk) (location : Location) : Disk :=
  { disk with entries := disk.entries.filter fun (other, _) => !location.isPrefixOf other }

/-- What stands below a directory, by the names from there. -/
def below (disk : Disk) (directory : Location) : List (Location × Entry) :=
  disk.entries.filterMap fun (location, entry) =>
    if directory.isPrefixOf location && directory.length < location.length then
      some (location.drop directory.length, entry)
    else none

/-! ## Looking paths up -/

/-- Where a path leads. -/
inductive Place
  /-- To something that is there. -/
  | found (location : Location) (entry : Entry)
  /-- To a name that a directory does not have; `slash` tells whether a slash
  stands behind it. -/
  | missing (location : Location) (slash : Bool)

/-- How many links are followed at most. -/
def linkLimit : Nat := 40

/-- Looks names up one after the other, from a directory. Behind the last name
only a directory has further segments, even empty ones. `links` bounds how many
links may be followed; `follow` tells whether a link at the end is. -/
def lookUp (disk : Disk) (follow : Bool) (links : Nat) (here : Location) (segments : List String) :
    Except DiskError Place :=
  match segments with
  | [] => .ok (.found here .directory)
  | segment :: rest =>
    if segment.isEmpty || segment == "." then lookUp disk follow links here rest
    else if segment == ".." then lookUp disk follow links here.dropLast rest
    else if 255 < segment.utf8ByteSize then .error .nameTooLong
    else
      let location := here ++ [segment]
      match disk.get? location with
      | none =>
        if rest.all (·.isEmpty) then .ok (.missing location (!rest.isEmpty)) else .error .notFound
      | some .directory => lookUp disk follow links location rest
      | some (.file bytes) =>
        if rest.isEmpty then .ok (.found location (.file bytes)) else .error .notDirectory
      | some (.link target) =>
        if rest.isEmpty && !follow then .ok (.found location (.link target))
        else
          match links with
          | 0 => .error .tooManyLinks
          | links + 1 =>
            let inner : Path := ⟨target⟩
            lookUp disk follow links (if inner.isAbsolute then [] else here) (inner.segments ++ rest)
termination_by (links, segments.length)

/-- Where a path leads, with or without following a link at its end. -/
def place (disk : Disk) (path : Path) (follow : Bool) : Except DiskError Place :=
  if path.text.isEmpty then .error .notFound
  else if path.text.toList.any (·.toNat == 0) then .error .zeroByte
  else
    lookUp disk follow linkLimit (if path.isAbsolute then [] else disk.workingDir) path.segments

/-- What a path leads to, links followed. -/
def find (disk : Disk) (path : Path) : Except DiskError (Location × Entry) := do
  match ← disk.place path true with
  | .found location entry => .ok (location, entry)
  | .missing _ _ => .error .notFound

/-- The path from the root to what a path leads to. -/
def canonical (disk : Disk) (path : Path) : Except DiskError Path :=
  (disk.find path).map fun (location, _) => ⟨"/" ++ "/".intercalate location⟩

/-- Whether a path leads to a directory. -/
def isDirectory (disk : Disk) (path : Path) : Bool :=
  match disk.find path with
  | .ok (_, .directory) => true
  | _ => false

/-- Whether a path leads to anything. -/
def pathExists (disk : Disk) (path : Path) : Bool :=
  (disk.find path).isOk

/-! ## Reading -/

/-- The bytes of a file. -/
def read (disk : Disk) (path : Path) : Except DiskError ByteArray := do
  match ← disk.find path with
  | (_, .file bytes) => .ok bytes
  | _ => .error .isDirectory

/-- The text of a file; none if it cannot be read or is no text. -/
def readText? (disk : Disk) (path : Path) : Option String :=
  (disk.read path).toOption.bind String.fromUTF8?

/-! ## Writing -/

/-- Where a file is written. -/
def target (disk : Disk) (path : Path) : Except DiskError Location := do
  match ← disk.place path true with
  | .found _ .directory => .error .isDirectory
  | .found location _ => .ok location
  | .missing location slash => if slash then .error .isDirectory else .ok location

/-- Does something that may run into trouble: what went wrong, if anything, and
the disk behind it. -/
def attempt (disk : Disk) (act : Disk → Except DiskError Disk) : Option DiskError × Disk :=
  let after : Disk := { disk with troubles := disk.troubles.tail }
  match disk.troubles.head?.join with
  | some error => (some error, after)
  | none =>
    match act after with
    | .ok result => (none, result)
    | .error error => (some error, after)

/-- Writes a file. -/
def write (disk : Disk) (path : Path) (bytes : ByteArray) : Option DiskError × Disk :=
  disk.attempt fun disk => (disk.target path).map fun location => disk.put location (.file bytes)

/-- What is copied from one place to another. The target is emptied before the
source is read, and both may be one file. -/
def copied (origin location : Location) (bytes : ByteArray) : ByteArray :=
  if location = origin then .empty else bytes

/-- Copies a file over another. -/
def copy (disk : Disk) (source target : Path) : Option DiskError × Disk :=
  disk.attempt fun disk => do
    match ← disk.find source with
    | (origin, .file bytes) =>
      (disk.target target).map fun location =>
        disk.put location (.file (copied origin location bytes))
    | _ => .error .notRegular

/-- Makes a directory where there is nothing. -/
def makeDirectory (disk : Disk) (path : Path) : Except DiskError Disk := do
  match ← disk.place path false with
  | .found _ _ => .error .alreadyExists
  | .missing location _ => .ok (disk.put location .directory)

/-- What went wrong with making a directory, unless there is one. -/
def unlessDirectory (disk : Disk) (path : Path) (error : DiskError) : Option DiskError :=
  if disk.isDirectory path then none else some error

/-- Makes a directory and those around it, as far as they are missing: what went
wrong, if anything, and the disk with all that was made. `depth` bounds how many of
them are missing. -/
def makeDirectories (disk : Disk) : Nat → Path → Option DiskError × Disk
  | 0, _ => (some .notFound, disk)
  | depth + 1, path =>
    if path.text.isEmpty then (none, disk)
    else
      match disk.makeDirectory path with
      | .ok made => (none, made)
      | .error .notFound =>
        match makeDirectories disk depth (path.parent?.getD ⟨""⟩) with
        | (some error, disk) => (some error, disk)
        | (none, disk) =>
          match disk.makeDirectory path with
          | .ok made => (none, made)
          | .error error => (disk.unlessDirectory path error, disk)
      | .error error => (disk.unlessDirectory path error, disk)

/-- Makes a directory and all around it. Those that were made stay if one cannot
be. -/
def makePath (disk : Disk) (path : Path) : Option DiskError × Disk :=
  disk.makeDirectories (path.parts.length + 1) path

/-- A disk with a directory and all around it. -/
def makeAll (disk : Disk) (path : Path) : Except DiskError Disk :=
  match disk.makePath path with
  | (none, made) => .ok made
  | (some error, _) => .error error

/-! ## Walks -/

/-- Whether a directory on the way to a file is pruned. `here` is the path of the
directory in which the names begin. -/
def isPruned (prunes : Path → String → Bool) (here : Path) : List String → Bool
  | [] => false
  | [_] => false
  | name :: rest =>
    let inner := here.join ⟨name⟩
    prunes inner name || isPruned prunes inner rest

/-- Everything below a path, in the order of the names, except for directories
that are pruned. A path to a file leads to that file alone. -/
def walk (disk : Disk) (root : Path) (prunes : Path → String → Bool) : List (Path × Entry) :=
  let inside (location : Location) : List (Path × Entry) :=
    ((disk.below location).filter fun (names, _) => !isPruned prunes root names).map
      fun (names, entry) => (names.foldl (fun path name => path.join ⟨name⟩) root, entry)
  match disk.place root false with
  | .ok (.found location .directory) => inside location
  | .ok (.found _ (.file bytes)) => [(root, .file bytes)]
  | .ok (.found _ (.link _)) =>
    match disk.find root with
    | .ok (location, .directory) => inside location
    | _ => []
  | _ => []

/-- The regular files below a path, as [walk] finds them. -/
def filesBelow (disk : Disk) (root : Path) (prunes : Path → String → Bool) : List Path :=
  (disk.walk root prunes).filterMap fun (path, entry) =>
    match entry with
    | .file _ => some path
    | _ => none

end Disk

end Deadwood
