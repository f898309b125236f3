/-
# Records as JSON

How the records of an analysis are written and read. Reading takes back what
writing gives; besides, fields may come in another order, unknown ones are
passed over, and some may be missing.
-/

import Deadwood.Findings
import Deadwood.Json.Reader
import Deadwood.Manifest
import Deadwood.Snapshot
import Deadwood.Symbol

namespace Deadwood

open Json

/-- The largest number of 32 bits. -/
def Json.maxWord : Nat := 0xFFFFFFFF

/-- The largest number of 64 bits. -/
def Json.maxLong : Nat := 0xFFFFFFFFFFFFFFFF

/-- A field that must be there. -/
def Json.required {α : Type} (read? : Json → Option α) (field : Option Json) : Option α :=
  field.bind read?

/-- A field for which something else holds if it is missing. -/
def Json.defaulted {α : Type} (otherwise : α) (read? : Json → Option α) (field : Option Json) :
    Option α :=
  match field with
  | some value => read? value
  | none => some otherwise

/-! ## Symbols -/

/-- A span as a record. -/
def Span.toJson (span : Span) : Json :=
  .object [("start_byte", span.start), ("end_byte", span.stop), ("start_line", span.startLine),
    ("end_line", span.stopLine)]

/-- Reads a span. All four numbers must be there. -/
def Span.ofJson? (value : Json) : Option Span :=
  match value.fields? ["start_byte", "end_byte", "start_line", "end_line"] 4 with
  | some [start, stop, startLine, stopLine] => do
    let word := required (natural? maxWord)
    return ⟨← word start, ← word stop, ← word startLine, ← word stopLine⟩
  | _ => none

/-- The kind of a symbol as it is written. -/
def SymbolKind.text : SymbolKind → String
  | .cssClass => "CssClass"
  | .htmlTag => "HtmlTag"
  | .jsFunction => "JsFunction"

/-- The name of a choice: a string, or an object with the name as its only key
and nothing in it. -/
def Json.choice? : Json → Option String
  | .string text => some text
  | .object [(key, .null)] => some key
  | _ => none

/-- Reads the kind of a symbol. -/
def SymbolKind.ofJson? (value : Json) : Option SymbolKind :=
  value.choice?.bind fun text =>
    [SymbolKind.cssClass, .htmlTag, .jsFunction].find? (·.text == text)

/-- A symbol as a record. -/
def Symbol.toJson (symbol : Symbol) : Json :=
  .object [("kind", symbol.kind.text), ("name", symbol.name),
    ("defining_file", ofOption .string symbol.file), ("span", ofOption Span.toJson symbol.span)]

/-- Reads a symbol. An object may leave out its file and its span. -/
def Symbol.ofJson? (value : Json) : Option Symbol :=
  match value.fields? ["kind", "name", "defining_file", "span"] 4 with
  | some [kind, name, file, span] => do
    return ⟨← required SymbolKind.ofJson? kind, ← required text? name,
      ← defaulted none (option? text?) file, ← defaulted none (option? Span.ofJson?) span⟩
  | _ => none

/-! ## Findings -/

/-- A severity as its number. -/
def Severity.toJson (severity : Severity) : Json :=
  severity.toNat

/-- Reads a severity. -/
def Severity.ofJson? (value : Json) : Option Severity :=
  (value.natural? 255).bind Severity.ofNat?

/-- A lint finding as a record. -/
def Diagnostic.toJson (diagnostic : Diagnostic) : Json :=
  .object [("file", diagnostic.file), ("line", diagnostic.line), ("message", diagnostic.message),
    ("ruleId", diagnostic.rule), ("severity", diagnostic.severity.toJson),
    ("suggestion", diagnostic.suggestion)]

/-- Reads a lint finding. -/
def Diagnostic.ofJson? (value : Json) : Option Diagnostic :=
  match value.fields? ["file", "line", "message", "ruleId", "severity", "suggestion"] 6 with
  | some [file, line, message, rule, severity, suggestion] => do
    return ⟨← required text? file, ← required (natural? maxWord) line, ← required text? message,
      ← required text? rule, ← required Severity.ofJson? severity, ← required text? suggestion⟩
  | _ => none

/-- An unused function as a record. -/
def UnusedFunction.toJson (function : UnusedFunction) : Json :=
  .object [("name", function.name), ("file", function.file)]

/-- Reads an unused function. -/
def UnusedFunction.ofJson? (value : Json) : Option UnusedFunction :=
  match value.fields? ["name", "file"] 2 with
  | some [name, file] => do
    return ⟨← required text? name, ← required text? file⟩
  | _ => none

/-- A file that was left out, as a record. -/
def FileFault.toJson (fault : FileFault) : Json :=
  .object [("file", fault.file), ("reason", fault.reason)]

/-- Reads a file that was left out. -/
def FileFault.ofJson? (value : Json) : Option FileFault :=
  match value.fields? ["file", "reason"] 2 with
  | some [file, reason] => do
    return ⟨← required text? file, ← required text? reason⟩
  | _ => none

/-- Puts an entry in its place in a list ordered by key, instead of one with the
same key. -/
def Json.insertByKey {α : Type} (key : String) (value : α) :
    List (String × α) → List (String × α)
  | [] => [(key, value)]
  | (other, old) :: rest =>
    if key < other then (key, value) :: (other, old) :: rest
    else if key = other then (key, value) :: rest
    else (other, old) :: insertByKey key value rest

/-- The members of an object, ordered by key; of two with one key the last
counts. -/
def Json.table? {α : Type} (read? : Json → Option α) : Json → Option (List (String × α))
  | .object members => members.foldlM (fun table (key, value) =>
      (read? value).map fun own => insertByKey key own table) []
  | _ => none

/-- The names of the fields of findings, in order. -/
def Findings.fieldNames : List String :=
  ["unusedClasses", "deprecatedTags", "jsUnused", "jsErrors", "jsWarnings", "tagSuggestions",
    "skippedFiles"]

/-- Findings as a record. -/
def Findings.toJson (findings : Findings) : Json :=
  .object [("unusedClasses", .strings findings.unusedClasses),
    ("deprecatedTags", .strings findings.deprecatedTags),
    ("jsUnused", .array (findings.unusedFunctions.map UnusedFunction.toJson)),
    ("jsErrors", .array (findings.errors.map Diagnostic.toJson)),
    ("jsWarnings", .array (findings.warnings.map Diagnostic.toJson)),
    ("tagSuggestions",
      .object (findings.tagAdvice.map fun (tag, advice) => (tag, ofOption .string advice))),
    ("skippedFiles", .array (findings.skipped.map FileFault.toJson))]

/-- Reads findings. Only the files that were left out may be missing. -/
def Findings.ofJson? (value : Json) : Option Findings :=
  match value.fields? Findings.fieldNames 6 with
  | some [classes, tags, functions, errors, warnings, advice, skipped] => do
    return ⟨← required (list? text?) classes, ← required (list? text?) tags,
      ← required (list? UnusedFunction.ofJson?) functions,
      ← required (list? Diagnostic.ofJson?) errors,
      ← required (list? Diagnostic.ofJson?) warnings,
      ← required (table? (option? text?)) advice,
      ← defaulted [] (list? FileFault.ofJson?) skipped⟩
  | _ => none

/-! ## Snapshots and manifests -/

/-- A snapshot as a record. -/
def Snapshot.toJson (snapshot : Snapshot) : Json :=
  .object [("generation", snapshot.generation), ("stamp", snapshot.stamp),
    ("result", snapshot.findings.toJson)]

/-- Reads a snapshot. The time may be missing. -/
def Snapshot.ofJson? (value : Json) : Option Snapshot :=
  match value.fields? ["generation", "stamp", "result"] 3 with
  | some [generation, stamp, findings] => do
    return ⟨← required (natural? maxLong) generation, ← defaulted "" text? stamp,
      ← required Findings.ofJson? findings⟩
  | _ => none

/-- Reads the kind of a patch. -/
def PatchKind.ofJson? (value : Json) : Option PatchKind :=
  value.choice?.bind PatchKind.ofText?

/-- A written patch as a record. -/
def Suggestion.toJson (suggestion : Suggestion) : Json :=
  .object [("file", suggestion.file), ("type", suggestion.kind.text),
    ("patch", suggestion.patch), ("timestamp", suggestion.timestamp)]

/-- Reads a written patch. -/
def Suggestion.ofJson? (value : Json) : Option Suggestion :=
  match value.fields? ["file", "type", "patch", "timestamp"] 4 with
  | some [file, kind, patch, timestamp] => do
    return ⟨← required text? file, ← required PatchKind.ofJson? kind, ← required text? patch,
      ← required text? timestamp⟩
  | _ => none

/-- A manifest as a record. -/
def Manifest.toJson (manifest : Manifest) : Json :=
  .object [("timestamp", manifest.timestamp),
    ("suggestions", .array (manifest.suggestions.map Suggestion.toJson))]

/-- Reads a manifest. -/
def Manifest.ofJson? (value : Json) : Option Manifest :=
  match value.fields? ["timestamp", "suggestions"] 2 with
  | some [timestamp, suggestions] => do
    return ⟨← required text? timestamp, ← required (list? Suggestion.ofJson?) suggestions⟩
  | _ => none

end Deadwood
