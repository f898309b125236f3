/-
# Passes

A pass scans a project, keeps what it found, and may fix it right away.
-/

import Deadwood.Fix.Console
import Deadwood.Fix.Run
import Deadwood.Report
import Deadwood.Snapshot.File

namespace Deadwood

/-- What passes work on. -/
structure Session where
  disk : Disk
  console : Fix.Console
  snapshot : Snapshot := {}
deriving Inhabited

namespace Session

/-- Writes to the console. -/
def print (session : Session) (text : String) : Session :=
  { session with console := session.console.write text }

/-- Scans a project and keeps the findings. That they cannot be written does not
matter. -/
def analyse (session : Session) (root : Path) (settings : Settings) (stamp : Stamp) :
    Except DiskError Scan × Session :=
  match Scan.run session.disk root settings with
  | .error error => (.error error, session)
  | .ok scan =>
    let snapshot := session.snapshot.next scan.findings stamp.millis
    let (_, disk) := snapshot.save (Snapshot.pathIn scan.sources.root) session.disk
    (.ok scan, { session with disk, snapshot })

/-- Prints the report on a scan. -/
def reportScan (session : Session) (scan : Scan) : Session :=
  session.print (Report.ofScan scan.findings scan.stats.files)

/-- Fixes what a scan found. Only an interactive fix asks. -/
def fix (session : Session) (scan : Scan) (settings : Settings) (policy : Fix.Policy)
    (stamp : Stamp) (quiet : Bool) : Option Fix.FixError × Session :=
  let root := scan.sources.root
  let candidates := scan.candidates session.disk settings
  let plan : Fix.Plan := ⟨root, settings, stamp, policy⟩
  let (outcome, disk, console) :=
    if policy = .interactive then
      plan.run Fix.Console.decider scan candidates session.disk session.console
    else
      let (outcome, disk, _) := plan.run Fix.scripted scan candidates session.disk {}
      (outcome, disk, session.console)
  let session := { session with disk, console }
  match outcome with
  | .error error => (some error, session)
  | .ok report =>
    (none, if quiet then session else session.print (Report.ofFix root stamp policy report))

/-- A pass of watching: a scan, its report unless it is to be quiet, and a fix if
one is wanted. Errors end the pass and nothing else. -/
def watchPass (session : Session) (root : Path) (settings : Settings)
    (policy : Option Fix.Policy) (quiet : Bool) (scanned fixed : Stamp) : Session :=
  match session.analyse root settings scanned with
  | (.error _, session) => session
  | (.ok scan, session) =>
    let session := if quiet then session else session.reportScan scan
    match policy with
    | none => session
    | some policy => (session.fix scan settings policy fixed quiet).2

end Session

end Deadwood
