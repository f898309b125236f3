/-
# Verdicts on functions

A function is safe to remove if its name occurs nowhere as a whole word, except
within its own declaration. The first occurrence elsewhere gives the reason to
keep it.
-/

import Deadwood.Discovery
import Deadwood.Names
import Deadwood.Symbol

namespace Deadwood

/-- Why a function may still be in use. -/
inductive Reason
  | sameFile (line : Nat)
  | inString (file : String) (line : Nat)
  | property (file : String) (line : Nat)
  | call (file : String) (line : Nat)
  | elsewhere (file : String) (line : Nat)
deriving BEq, DecidableEq, Repr, Inhabited

/-- The text of a reason. -/
def Reason.text : Reason → String
  | .sameFile line => "referenced again in its own file (line " ++ toString line ++ ")"
  | .inString file line => "named inside a string at " ++ file ++ ":" ++ toString line
  | .property file line => "accessed as a property at " ++ file ++ ":" ++ toString line
  | .call file line => "called at " ++ file ++ ":" ++ toString line
  | .elsewhere file line => "referenced at " ++ file ++ ":" ++ toString line

/-- Whether a function can go. -/
inductive Verdict
  | safe
  | kept (reason : Reason)
deriving BEq, DecidableEq, Repr, Inhabited

/-- Whether a verdict lets a function go. -/
def Verdict.isSafe : Verdict → Bool
  | .safe => true
  | .kept _ => false

/-- A function and the verdict on it. -/
structure Candidate where
  symbol : Symbol
  verdict : Verdict
deriving BEq, DecidableEq, Repr, Inhabited

namespace Verdict

/-- The bytes of words: letters and digits of ASCII, and the underscore. -/
def isWordByte (b : UInt8) : Bool :=
  (0x30 ≤ b && b ≤ 0x39) || (0x41 ≤ b && b ≤ 0x5A) || (0x61 ≤ b && b ≤ 0x7A) || b == 0x5F

/-- Quotes around strings and templates. -/
def isQuoteByte (b : UInt8) : Bool :=
  b == 0x22 || b == 0x27 || b == 0x60

/-- The blanks of ASCII. -/
def isBlankByte (b : UInt8) : Bool :=
  b == 0x20 || b == 0x09 || b == 0x0A || b == 0x0C || b == 0x0D

/-- The bytes of a name. -/
def bytesOf (name : String) : List UInt8 :=
  name.toUTF8.data.toList

/-- A name found in a file, with what stands around it. -/
structure Occurrence where
  /-- Which of the names that were searched for. -/
  name : String
  start : Nat
  /-- The bytes before, the nearest first. -/
  before : List UInt8
  /-- The bytes behind. -/
  after : List UInt8
deriving Repr

namespace Occurrence

/-- Whether a name is found as a whole word. -/
def isWord (occurrence : Occurrence) : Bool :=
  !occurrence.before.head?.any isWordByte && !occurrence.after.head?.any isWordByte

/-- The line on which a name is found, a number of 32 bits. -/
def line (occurrence : Occurrence) : Nat :=
  (occurrence.before.count 0x0A + 1) % 0x100000000

end Occurrence

/-- The occurrence of a name that ends at an offset. Its bytes are given backwards,
as are those before. -/
def ending? (stop : Nat) (before after : List UInt8) (entry : String × List UInt8) :
    Option Occurrence :=
  if entry.2.isPrefixOf before then
    some ⟨entry.1, stop - entry.2.length, before.drop entry.2.length, after⟩
  else none

/-- The occurrences of names behind what has been read, in the order in which they
end. They may overlap. -/
def occurrencesFrom (names : List (String × List UInt8)) (stop : Nat) (before : List UInt8) :
    List UInt8 → List Occurrence
  | [] => names.filterMap (ending? stop before [])
  | b :: rest =>
    names.filterMap (ending? stop before (b :: rest)) ++
      occurrencesFrom names (stop + 1) (b :: before) rest

/-- The occurrences of names in a file. -/
def occurrences (names : List String) (bytes : List UInt8) : List Occurrence :=
  occurrencesFrom (names.map fun name => (name, (bytesOf name).reverse)) 0 [] bytes

/-- What an occurrence in another file looks like. -/
def classify (file : String) (occurrence : Occurrence) : Reason :=
  let next := occurrence.after.head?
  let before := occurrence.before.head?
  if before.any isQuoteByte || next.any isQuoteByte then .inString file occurrence.line
  else if before == some 0x2E then .property file occurrence.line
  else if (occurrence.after.find? (!isBlankByte ·)) == some 0x28 then .call file occurrence.line
  else .elsewhere file occurrence.line

/-- The reason that an occurrence gives to keep a function, if it gives one: it
has the name, and is not part of the declaration. -/
def reasonFor? (file : String) (candidate : Symbol) (occurrence : Occurrence) : Option Reason :=
  if candidate.name != occurrence.name then none
  else if candidate.file == some file then
    if candidate.span.any (·.contains occurrence.start) then none
    else some (.sameFile occurrence.line)
  else some (classify file occurrence)

/-- The verdicts so far, and how many functions have no reason to be kept yet. -/
structure Tally where
  verdicts : List Verdict
  undecided : Nat
deriving DecidableEq, Repr

/-- Counts an occurrence for each function in turn. The first reason stands. There
is no result if more functions get a reason than are undecided. -/
def recordAll (file : String) (occurrence : Occurrence) :
    List Symbol → List Verdict → Nat → Option Tally
  | candidate :: candidates, .safe :: verdicts, undecided =>
    match reasonFor? file candidate occurrence with
    | none =>
      (recordAll file occurrence candidates verdicts undecided).map fun tally =>
        { tally with verdicts := .safe :: tally.verdicts }
    | some reason =>
      match undecided with
      | 0 => none
      | undecided + 1 =>
        (recordAll file occurrence candidates verdicts undecided).map fun tally =>
          { tally with verdicts := .kept reason :: tally.verdicts }
  | _ :: candidates, .kept reason :: verdicts, undecided =>
    (recordAll file occurrence candidates verdicts undecided).map fun tally =>
      { tally with verdicts := .kept reason :: tally.verdicts }
  | _, _, undecided => some ⟨[], undecided⟩

/-- Goes through the occurrences of names in one file. -/
def afterFile? (names : List String) (candidates : List Symbol) (file : String)
    (bytes : List UInt8) (tally : Tally) : Option Tally :=
  ((occurrences names bytes).filter (·.isWord)).foldlM
    (fun tally occurrence => recordAll file occurrence candidates tally.verdicts tally.undecided)
    tally

/-- Goes through several files, each with its name and its bytes. Once no function
is undecided, the others need not be looked at. -/
def afterFiles? (names : List String) (candidates : List Symbol) :
    List (String × List UInt8) → Tally → Option Tally
  | [], tally => some tally
  | (file, bytes) :: others, tally =>
    (afterFile? names candidates file bytes tally).bind fun tally =>
      if tally.undecided = 0 then some tally else afterFiles? names candidates others tally

/-- The verdicts on functions, in order, from all files that may mention them, if
the count of the undecided ones comes out right. -/
def judge? (files : List (String × List UInt8)) (candidates : List Symbol) :
    Option (List Verdict) :=
  if candidates.isEmpty then some []
  else
    (afterFiles? (sortedNames (candidates.map (·.name))) candidates files
      ⟨candidates.map fun _ => .safe, candidates.length⟩).map (·.verdicts)

/-- The verdicts on functions. The count always comes out right. -/
def judge (files : List (String × List UInt8)) (candidates : List Symbol) : List Verdict :=
  (judge? files candidates).getD []

end Verdict

/-- A file of a corpus as it is shown, with its bytes, if it can be read and is not
empty. -/
def corpusContent? (disk : Disk) (root path : Path) : Option (String × List UInt8) :=
  match disk.read path with
  | .ok bytes => if bytes.isEmpty then none else some (path.shownIn root, bytes.data.toList)
  | .error _ => none

/-- The files of a corpus that can be read and are not empty. -/
def corpusContents (disk : Disk) (root : Path) (corpus : List Path) : List (String × List UInt8) :=
  corpus.filterMap (corpusContent? disk root)

end Deadwood
