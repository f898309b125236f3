/-
# Scans

A scan looks for the files of a project, reads them all, and tells what is dead.
Files that cannot be read are noted and left out.
-/

import Deadwood.Usage
import Deadwood.Verdict

namespace Deadwood

/-- Why a file cannot be analysed. -/
inductive SourceError
  | disk (error : DiskError)
  | unreadable (why : String)
  | notText
  | tooLarge
deriving BEq, DecidableEq, Repr, Inhabited

/-- The text of an error. -/
def SourceError.message : SourceError → String
  | .disk error => "I/O error: " ++ error.message
  | .unreadable why => "Parse failure: " ++ why
  | .notText => "File is not valid UTF-8"
  | .tooLarge => "Byte range overflow: file size exceeds 4GB limit"

/-- The text of a file that is to be analysed. Offsets into it must fit in 32
bits. -/
def Disk.loadSource (disk : Disk) (path : Path) : Except SourceError String :=
  match disk.find path with
  | .error error => .error (.disk error)
  | .ok (_, .file bytes) =>
    if 0x100000000 ≤ bytes.size then .error .tooLarge
    else
      match String.fromUTF8? bytes with
      | some text => .ok text
      | none => .error .notText
  | .ok _ => .error (.disk .noDevice)

/-- Some numbers about a scan. -/
structure ScanStats where
  files : Nat := 0
  defined : Nat := 0
  used : Nat := 0
  functions : Nat := 0
deriving BEq, DecidableEq, Repr, Inhabited

/-- What a scan found, and where. -/
structure Scan where
  sources : Sources := {}
  findings : Findings := {}
  /-- The declarations of the functions that nothing mentions. -/
  unused : List Symbol := []
  stats : ScanStats := {}
deriving Repr, Inhabited

namespace Scan

/-- Adds what a file contributes, or notes why it does not. -/
def addFile (disk : Disk) (sources : Sources) (usage : Usage) (kind : FileKind) (path : Path) :
    Usage :=
  let shown := sources.shown path
  match disk.loadSource path with
  | .ok source => usage.add (Contribution.ofSource kind source shown)
  | .error error => usage.skip shown error.message

/-- What the files of a project add up to. -/
def usageOf (disk : Disk) (sources : Sources) : Usage :=
  sources.all.foldl (fun usage (kind, path) => addFile disk sources usage kind path) {}

/-- Scans files. -/
def ofSources (disk : Disk) (sources : Sources) (settings : Settings) : Scan :=
  let usage := usageOf disk sources
  { sources
    findings := usage.findings settings.ignoreClasses
    unused := usage.unusedFunctions
    stats := ⟨sources.all.length, usage.defined.length, usage.used.length, usage.functions.length⟩ }

/-- Scans a project. -/
def run (disk : Disk) (root : Path) (settings : Settings) : Except DiskError Scan := do
  return ofSources disk (← Sources.discover disk root settings) settings

/-- The unused functions of a scan, with the verdicts on them. -/
def candidates (disk : Disk) (settings : Settings) (scan : Scan) : List Candidate :=
  let root := scan.sources.root
  let files := corpusContents disk root (referenceCorpus disk root settings)
  List.zipWith Candidate.mk scan.unused (Verdict.judge files scan.unused)

end Scan

end Deadwood
