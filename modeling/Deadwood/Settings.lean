/-
# Settings

What a project can set about its analysis, in a file or by the environment, and
what holds if it does not.
-/

import Deadwood.Json.Reader
import Deadwood.Path
import Deadwood.Toml.Reader
import Deadwood.Wildcard

namespace Deadwood

/-- The settings of a project. -/
structure Settings where
  /-- Classes that are never reported. -/
  ignoreClasses : IgnoreSet := {}
  /-- Where patches are written, from the root of the project. -/
  patchesDir : String := "deadwatcher_patches"
  /-- Names of directories that are not looked into. -/
  excludeDirs : List String := ["node_modules", ".git", "dist", "build", "coverage", "logs"]
  /-- Parts of the paths of stylesheets that are left alone. -/
  stylesheetExcludes : List String := ["bootstrap"]
  /-- How long changes must have rested before they are looked at. -/
  debounceMillis : Nat := 200
  /-- How many lines are shown around a function. -/
  excerptContext : Nat := 3
deriving BEq, DecidableEq, Repr, Inhabited

namespace Settings

/-- The name of the file with the settings. -/
def fileName : String := "deadwatcher.toml"

/-- The variable that adds patterns to leave out. -/
def ignoreVariable : String := "DEADWATCHER_IGNORE"

/-- The variable that says where patches go, whatever the settings say. -/
def patchesVariable : String := "DEADWATCHER_PATCHES_DIR"

/-- The names of the settings, in order. -/
def names : List String :=
  ["ignore_classes", "patches_dir", "exclude_dirs", "stylesheet_excludes", "debounce_ms",
    "excerpt_context"]

/-- The strings of an array. -/
def tomlStrings? : Toml → Option (List String)
  | .array elements => elements.mapM fun element =>
      match element with
      | .string text => some text
      | _ => none
  | _ => none

/-- The text of a string. -/
def tomlString? : Toml → Option String
  | .string text => some text
  | _ => none

/-- A number that is not below zero. -/
def tomlNatural? : Toml → Option Nat
  | .integer (.ofNat n) => some n
  | _ => none

/-- Reads one setting from a document, or takes what holds without it. -/
def setting? {α : Type} (members : Toml.Members) (key : String) (read? : Toml → Option α)
    (otherwise : α) : Option α :=
  match Toml.find? members key with
  | some value => read? value
  | none => some otherwise

/-- Reads settings from a document. -/
def ofToml? (text : String) : Option Settings := do
  let members ← Toml.read? text
  let defaults : Settings := {}
  return {
    ignoreClasses :=
      ⟨← setting? members "ignore_classes" tomlStrings? defaults.ignoreClasses.patterns⟩
    patchesDir := ← setting? members "patches_dir" tomlString? defaults.patchesDir
    excludeDirs := ← setting? members "exclude_dirs" tomlStrings? defaults.excludeDirs
    stylesheetExcludes :=
      ← setting? members "stylesheet_excludes" tomlStrings? defaults.stylesheetExcludes
    debounceMillis := ← setting? members "debounce_ms" tomlNatural? defaults.debounceMillis
    excerptContext := ← setting? members "excerpt_context" tomlNatural? defaults.excerptContext }

/-- Reads settings from a record. -/
def ofJson? (value : Json) : Option Settings := do
  let fields ← value.fields? names 0
  let defaults : Settings := {}
  let field {α : Type} (index : Nat) (read? : Json → Option α) (otherwise : α) : Option α :=
    match (fields[index]?).join with
    | some value => read? value
    | none => some otherwise
  let strings := Json.list? Json.text?
  return {
    ignoreClasses := ⟨← field 0 strings defaults.ignoreClasses.patterns⟩
    patchesDir := ← field 1 Json.text? defaults.patchesDir
    excludeDirs := ← field 2 strings defaults.excludeDirs
    stylesheetExcludes := ← field 3 strings defaults.stylesheetExcludes
    debounceMillis := ← field 4 (Json.natural? (0xFFFFFFFFFFFFFFFF)) defaults.debounceMillis
    excerptContext := ← field 5 (Json.natural? (0xFFFFFFFFFFFFFFFF)) defaults.excerptContext }

/-- Settings as a record. -/
def toJson (settings : Settings) : Json :=
  .object [("ignore_classes", .strings settings.ignoreClasses.patterns),
    ("patches_dir", settings.patchesDir),
    ("exclude_dirs", .strings settings.excludeDirs),
    ("stylesheet_excludes", .strings settings.stylesheetExcludes),
    ("debounce_ms", settings.debounceMillis),
    ("excerpt_context", settings.excerptContext)]

/-- The parts of a text between its commas, without the blanks around them. -/
def commaList (text : String) : List String :=
  ((text.toList.splitOnP (· == ',')).map Text.trim).map String.ofList

/-- Settings with what the environment adds: more classes to ignore, and another
place for the patches. -/
def withEnvironment (settings : Settings) (ignore patches : Option String) : Settings :=
  let settings :=
    match ignore with
    | some list => { settings with ignoreClasses := settings.ignoreClasses.extend (commaList list) }
    | none => settings
  match patches.map Text.trimmed with
  | some dir => if dir.isEmpty then settings else { settings with patchesDir := dir }
  | none => settings

/-- Where patches are written, for a project at a root. -/
def patchesPath (settings : Settings) (root : Path) : Path :=
  root.join ⟨settings.patchesDir⟩

/-- Whether directories with a name are not looked into. -/
def excludesDir (settings : Settings) (name : String) : Bool :=
  settings.excludeDirs.contains name

/-- Whether a stylesheet is left alone. -/
def excludesStylesheet (settings : Settings) (shown : String) : Bool :=
  settings.stylesheetExcludes.any fun fragment =>
    !fragment.isEmpty && (Wildcard.find? fragment.toList shown.toList).isSome

end Settings

end Deadwood
