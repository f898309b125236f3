/-
# What a project defines and uses

Each file contributes classes, elements, functions, mentions and lint findings.
Folded over all files they tell what is dead: classes defined and not used,
functions declared and not mentioned.
-/

import Deadwood.Findings
import Deadwood.Markup.Facts
import Deadwood.Names
import Deadwood.Path
import Deadwood.Script.ClassUse
import Deadwood.Script.Lint
import Deadwood.Stylesheet.Rules
import Deadwood.Wildcard

namespace Deadwood

/-- What one file adds. Names may be listed more than once. -/
structure Contribution where
  defined : List String := []
  used : List String := []
  tags : List String := []
  functions : List Symbol := []
  mentions : List String := []
  diagnostics : List Diagnostic := []
deriving Repr, Inhabited

namespace Contribution

/-- The classes that a stylesheet defines. -/
def definedIn (source : String) : List String :=
  Stylesheet.classesOf (Stylesheet.ruleSpans (Stylesheet.parse source)) source.toList

/-- The classes that a script seems to use. -/
def usedIn (source : String) : List String :=
  (Script.usedClasses source.toList).map String.ofList

/-- The names that a script mentions. -/
def mentionedIn (source : String) : List String :=
  (Script.factsOf (Script.parse source) (Script.Text.ofString source) "").mentions

/-- What a page adds. The functions of its scripts are not looked for. -/
def ofMarkup (source : String) : Contribution :=
  let facts := Markup.factsOf (Markup.parse source) source.toList
  let code := facts.scripts ++ facts.handlers
  { defined := facts.styles.flatMap definedIn
    used := facts.classes ++ code.flatMap usedIn
    tags := facts.tags
    mentions := code.flatMap mentionedIn }

/-- What a stylesheet adds. -/
def ofStylesheet (source : String) : Contribution :=
  { defined := definedIn source }

/-- What a script adds. -/
def ofScript (source file : String) : Contribution :=
  let tree := Script.parse source
  let text := Script.Text.ofString source
  let facts := Script.factsOf tree text file
  { used := usedIn source
    functions := facts.functions
    mentions := facts.mentions
    diagnostics := Script.lint tree text file }

/-- What a file adds. -/
def ofSource (kind : FileKind) (source file : String) : Contribution :=
  match kind with
  | .markup => ofMarkup source
  | .stylesheet => ofStylesheet source
  | .script => ofScript source file

end Contribution

/-- What all files add up to. -/
structure Usage where
  /-- The classes that are defined, in ascending order. -/
  defined : List String := []
  /-- The classes that are used, in ascending order. -/
  used : List String := []
  /-- The deprecated elements that occur, in ascending order. -/
  tags : List String := []
  /-- The functions, one for each name in a file. -/
  functions : List Symbol := []
  /-- The names that are mentioned, in ascending order. -/
  mentions : List String := []
  diagnostics : List Diagnostic := []
  skipped : List FileFault := []
deriving Repr, Inhabited

namespace Usage

/-- Adds a function, unless there is one of its name in its file. -/
def addFunction (functions : List Symbol) (function : Symbol) : List Symbol :=
  if functions.any fun other => other.name == function.name && other.file == function.file then
    functions
  else functions ++ [function]

/-- Adds what a file contributes. -/
def add (usage : Usage) (contribution : Contribution) : Usage :=
  { usage with
    defined := sortedNames (usage.defined ++ contribution.defined)
    used := sortedNames (usage.used ++ contribution.used)
    tags := sortedNames (usage.tags ++ contribution.tags.filter Advice.isDeprecated)
    functions := contribution.functions.foldl addFunction usage.functions
    mentions := sortedNames (usage.mentions ++ contribution.mentions)
    diagnostics := usage.diagnostics ++ contribution.diagnostics }

/-- Notes that a file could not be read, and why. -/
def skip (usage : Usage) (file reason : String) : Usage :=
  { usage with skipped := usage.skipped ++ [⟨file, reason⟩] }

/-- The functions that nothing mentions. -/
def unusedFunctions (usage : Usage) : List Symbol :=
  usage.functions.filter fun function => !usage.mentions.contains function.name

/-- What there is to report: the classes that are defined, not used and not
ignored, the deprecated elements with advice, the functions that nothing
mentions, and the lint findings by severity. -/
def findings (usage : Usage) (ignored : IgnoreSet) : Findings :=
  { unusedClasses := usage.defined.filter fun name =>
      !usage.used.contains name && !ignored.ignores name
    deprecatedTags := usage.tags
    unusedFunctions := usage.unusedFunctions.map fun function =>
      ⟨function.name, function.file.getD ""⟩
    errors := usage.diagnostics.filter (·.severity == .error)
    warnings := usage.diagnostics.filter (·.severity != .error)
    tagAdvice := usage.tags.map fun tag => (tag, Advice.forTag? tag)
    skipped := usage.skipped }

end Usage

end Deadwood
