/-
# The command line

Arguments are read into a command, and a command is run on a disk.
-/

import Deadwood.Pass
import Deadwood.Variables

namespace Deadwood

/-- What can be asked for. -/
inductive Command
  | scan (path : Path) (json : Bool)
  | watch (path : Path) (dashboard : Bool) (policy : Option Fix.Policy)
  | fix (path : Path) (policy : Fix.Policy)
  | revert (path : Path) (stamp : String)
  | dashboard (path : Path)
deriving BEq, DecidableEq, Repr, Inhabited

namespace Command

/-! ## Arguments -/

/-- Why arguments stand for no command. -/
inductive Refusal
  /-- Help was asked for. -/
  | help
  /-- They make no sense. -/
  | usage
deriving BEq, DecidableEq, Repr, Inhabited

/-- The form of a command: which flags it takes, whether it takes a policy, and
how many values it needs. -/
structure Form where
  flags : List String := []
  takesPolicy : Bool := false
  values : Nat := 1
deriving Repr, Inhabited

/-- The forms of the commands, by name. -/
def forms : List (String × Form) :=
  [("scan", ⟨["json"], false, 1⟩), ("watch", ⟨["dashboard"], true, 1⟩),
    ("fix", ⟨["apply-all", "patch-only"], false, 1⟩), ("revert", ⟨[], false, 2⟩),
    ("dashboard", ⟨[], false, 1⟩)]

/-- Arguments taken in so far. -/
structure Taken where
  flags : List String := []
  policy : Option Fix.Policy := none
  values : List String := []
deriving Repr, Inhabited

/-- Takes in a flag, which may stand only once. -/
def Taken.flag (taken : Taken) (name : String) : Except Refusal Taken :=
  if taken.flags.contains name then .error .usage
  else .ok { taken with flags := taken.flags ++ [name] }

/-- Takes in the letters of short flags. -/
def Taken.letters (taken : Taken) : List Char → Except Refusal Taken
  | [] => .ok taken
  | 'v' :: rest => do (← taken.flag "verbose").letters rest
  | 'h' :: _ => .error .help
  | _ => .error .usage

/-- Takes in the name of a policy. -/
def Taken.withPolicy (taken : Taken) (text : String) : Except Refusal Taken :=
  match taken.policy, Fix.Policy.ofText? text with
  | none, some policy => .ok { taken with policy := some policy }
  | _, _ => .error .usage

/-- Takes in a value. -/
def Taken.value (taken : Taken) (form : Form) (text : String) : Except Refusal Taken :=
  if taken.values.length < form.values then .ok { taken with values := taken.values ++ [text] }
  else .error .usage

/-- Whether an argument is a flag: it begins with a hyphen and has more to it. -/
def isFlag (argument : String) : Bool :=
  argument.toList.head? == some '-' && argument.length > 1

/-- Takes in the arguments behind the name of a command. Behind two hyphens all
are values. -/
def takeArguments (form : Form) (taken : Taken) : List String → Except Refusal Taken
  | [] => .ok taken
  | argument :: others =>
    if argument == "--" then others.foldlM (fun taken text => taken.value form text) taken
    else if argument == "--help" then .error .help
    else if argument == "--fix" && form.takesPolicy then
      match others with
      | text :: others =>
        if isFlag text then .error .usage
        else do takeArguments form (← taken.withPolicy text) others
      | [] => .error .usage
    else if "--fix=".toList.isPrefixOf argument.toList && form.takesPolicy then do
      takeArguments form (← taken.withPolicy (String.ofList (argument.toList.drop 6))) others
    else if "--".toList.isPrefixOf argument.toList then
      let name := String.ofList (argument.toList.drop 2)
      if name == "verbose" || form.flags.contains name then do
        takeArguments form (← taken.flag name) others
      else .error .usage
    else if isFlag argument then do
      takeArguments form (← taken.letters (argument.toList.drop 1)) others
    else do takeArguments form (← taken.value form argument) others

/-- The command with a name and its arguments. A path must not be empty, and a
fix cannot both apply and only propose. -/
def ofTaken (name : String) (taken : Taken) : Except Refusal Command :=
  let has (flag : String) : Bool := taken.flags.contains flag
  match name, taken.values with
  | _, "" :: _ => .error .usage
  | "scan", [path] => .ok (.scan ⟨path⟩ (has "json"))
  | "watch", [path] => .ok (.watch ⟨path⟩ (has "dashboard") taken.policy)
  | "fix", [path] =>
    if has "apply-all" && has "patch-only" then .error .usage
    else if has "patch-only" then .ok (.fix ⟨path⟩ .patchOnly)
    else if has "apply-all" then .ok (.fix ⟨path⟩ .applyAll)
    else .ok (.fix ⟨path⟩ .interactive)
  | "revert", [path, stamp] => .ok (.revert ⟨path⟩ stamp)
  | "dashboard", [path] => .ok (.dashboard ⟨path⟩)
  | _, _ => .error .usage

/-- Reads arguments from the first that names a command. `taken` holds the flags
before it. -/
def ofArguments (taken : Taken) : List String → Except Refusal Command
  | [] => .error .usage
  | argument :: others =>
    if argument == "--help" then .error .help
    else if argument == "--verbose" then do ofArguments (← taken.flag "verbose") others
    else if argument == "help" then
      match others with
      | [] => .error .help
      | [name] =>
        if name == "help" || (List.lookup name forms).isSome then .error .help else .error .usage
      | _ => .error .usage
    else if isFlag argument then
      if "--".toList.isPrefixOf argument.toList then .error .usage
      else do ofArguments (← taken.letters (argument.toList.drop 1)) others
    else
      match List.lookup argument forms with
      | some form => do ofTaken argument (← takeArguments form {} others)
      | none => .error .usage

/-- Reads arguments. -/
def parse (arguments : List String) : Except Refusal Command :=
  ofArguments {} arguments

/-! ## Settings -/

/-- Why the settings of a project cannot be had. -/
inductive SettingsError
  | unreadable (path : Path)
  | malformed (path : Path)
deriving BEq, DecidableEq, Repr, Inhabited

/-- The text of an error. -/
def SettingsError.message : SettingsError → String
  | .unreadable path => "failed to read " ++ path.text
  | .malformed path => "malformed " ++ path.text

/-- The settings of a project, with what variables add. A project without a file
for them has the usual ones. -/
def loadSettings (disk : Disk) (root : Path) (environment : Variables) :
    Except SettingsError Settings :=
  let path := root.join ⟨Settings.fileName⟩
  let own : Except SettingsError Settings :=
    if disk.pathExists path then
      match disk.readText? path with
      | none => .error (.unreadable path)
      | some text =>
        match Settings.ofToml? text with
        | some settings => .ok settings
        | none => .error (.malformed path)
    else .ok {}
  own.map fun settings =>
    settings.withEnvironment (List.lookup Settings.ignoreVariable environment)
      (List.lookup Settings.patchesVariable environment)

/-- The variables that a file in the working directory or around it adds. -/
def withFile (disk : Disk) (environment : Variables) : Variables :=
  let directories := (List.range (disk.workingDir.length + 1)).map fun n =>
    disk.workingDir.take (disk.workingDir.length - n)
  let found := directories.findSome? fun directory =>
    let path : Path := ⟨"/" ++ "/".intercalate (directory ++ [".env"])⟩
    match disk.find path with
    | .ok (_, .file bytes) => some bytes
    | _ => none
  match found.bind String.fromUTF8? with
  | some text => environment.load text
  | none => environment

/-! ## Running -/

/-- How a command ended. -/
inductive Ending
  | done
  /-- With an error, which the text tells. -/
  | failed (message : String)
  /-- Because nothing fitted; all has been said. -/
  | missed
  /-- Not yet: the project at a root goes on being watched. -/
  | watching (root : Path) (settings : Settings) (policy : Option Fix.Policy)
  /-- By showing a snapshot until a key is pressed. -/
  | showing (snapshot : Snapshot)
deriving Inhabited

/-- The number with which a program ends. Nothing can be shown without a
terminal. -/
def Ending.exitCode : Ending → Nat
  | .done => 0
  | .failed _ => 1
  | .missed => 1
  | .watching _ _ _ => 0
  | .showing _ => 1

/-- The time of a scan and that of the fix behind it. -/
structure Times where
  scanned : Stamp
  fixed : Stamp
deriving Repr, Inhabited

/-- What a command is run with. -/
structure Setting where
  environment : Variables := []
  times : Times
deriving Inhabited

/-- Scans a project and prints what was found, as a report or as a record. -/
def runScan (session : Session) (setting : Setting) (path : Path) (json : Bool) :
    Ending × Session :=
  match loadSettings session.disk path setting.environment with
  | .error error => (.failed error.message, session)
  | .ok settings =>
    match session.analyse path settings setting.times.scanned with
    | (.error error, session) => (.failed (SourceError.disk error).message, session)
    | (.ok found, session) =>
      (.done, if json then session.print (found.findings.toJson.toPretty ++ "\n")
        else session.reportScan found)

/-- Scans a project, reports, and fixes it. -/
def runFix (session : Session) (setting : Setting) (path : Path) (policy : Fix.Policy) :
    Ending × Session :=
  match loadSettings session.disk path setting.environment with
  | .error error => (.failed error.message, session)
  | .ok settings =>
    match session.analyse path settings setting.times.scanned with
    | (.error error, session) => (.failed (SourceError.disk error).message, session)
    | (.ok found, session) =>
      let session := session.reportScan found
      match session.fix found settings policy setting.times.fixed false with
      | (some error, session) => (.failed error.message, session)
      | (none, session) => (.done, session)

/-- Makes the first pass of watching. A dashboard cannot be combined with
questions, and keeps passes quiet. -/
def runWatch (session : Session) (setting : Setting) (path : Path) (live : Bool)
    (policy : Option Fix.Policy) : Ending × Session :=
  if live && policy == some .interactive then
    (.failed "--fix interactive needs the terminal; use apply-all or patch-only with --dashboard",
      session)
  else
    match loadSettings session.disk path setting.environment with
    | .error error => (.failed error.message, session)
    | .ok settings =>
      match session.disk.canonical path with
      | .error error => (.failed error.message, session)
      | .ok root =>
        let session := session.watchPass root settings policy live setting.times.scanned
          setting.times.fixed
        if live then (.showing session.snapshot, session)
        else
          (.watching root settings policy,
            session.print ("Watching " ++ root.text ++ " for changes. Press Ctrl+C to stop.\n"))

/-- Puts backups back. -/
def runRevert (session : Session) (path : Path) (stamp : String) : Ending × Session :=
  let (outcome, disk) := Revert.run session.disk path stamp
  let session := { session with disk }.print (Report.ofRevert path outcome)
  match outcome with
  | .restored _ => (.done, session)
  | .miss _ => (.missed, session)

/-- Shows the snapshot that the last scan kept. -/
def runDashboard (session : Session) (path : Path) : Ending × Session :=
  match session.disk.canonical path with
  | .error error => (.failed error.message, session)
  | .ok root =>
    let kept := Snapshot.pathIn root
    if session.disk.pathExists kept then
      match Snapshot.load session.disk kept with
      | .error error => (.failed error.message, session)
      | .ok snapshot => (.showing snapshot, session)
    else
      (.done, session.print
        ("No saved scan found. Run `deadwatcher scan " ++ path.text ++ "` first.\n"))

/-- Runs a command. -/
def run (session : Session) (setting : Setting) : Command → Ending × Session
  | .scan path json => runScan session setting path json
  | .watch path live policy => runWatch session setting path live policy
  | .fix path policy => runFix session setting path policy
  | .revert path stamp => runRevert session path stamp
  | .dashboard path => runDashboard session path

end Command

end Deadwood
