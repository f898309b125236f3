/-
# The files of a project

Which files an analysis looks at, and in which it searches for names. Neither
looks into excluded directories and into those that the tool itself writes.
-/

import Deadwood.Disk.Basic
import Deadwood.Settings

namespace Deadwood

/-- Where the latest findings are kept, from the root of a project. -/
def snapshotFile : String := ".deadwatcher/last-result.json"

/-- The directories that the tool writes. -/
def ownDirectories (root : Path) (settings : Settings) : List Path :=
  [settings.patchesPath root, (root.join ⟨snapshotFile⟩).parent?.getD root]

/-- Whether a directory is not looked into. -/
def isOutside (root : Path) (settings : Settings) (path : Path) (name : String) : Bool :=
  (ownDirectories root settings).any (·.isSame path) || settings.excludesDir name

/-- The files of a project that may be looked at. -/
def projectFiles (disk : Disk) (root : Path) (settings : Settings) : List Path :=
  disk.filesBelow root (isOutside root settings)

/-- The files that are analysed, by kind. -/
structure Sources where
  root : Path := ⟨""⟩
  markup : List Path := []
  stylesheets : List Path := []
  scripts : List Path := []
  /-- Stylesheets that are left alone. -/
  excluded : List Path := []
deriving BEq, DecidableEq, Repr, Inhabited

namespace Sources

/-- A path as it is shown. -/
def shown (sources : Sources) (path : Path) : String :=
  path.shownIn sources.root

/-- The path that is shown in a given way. -/
def resolve (sources : Sources) (shown : String) : Path :=
  sources.root.join ⟨shown⟩

/-- Sorts files by kind. -/
def ofFiles (root : Path) (settings : Settings) (files : List Path) : Sources :=
  let ofKind (kind : FileKind) : List Path := files.filter (FileKind.ofPath? · == some kind)
  let isExcluded (path : Path) : Bool := settings.excludesStylesheet (path.shownIn root)
  { root
    markup := ofKind .markup
    stylesheets := (ofKind .stylesheet).filter (!isExcluded ·)
    scripts := ofKind .script
    excluded := (ofKind .stylesheet).filter isExcluded }

/-- Looks for the files of a project. -/
def discover (disk : Disk) (root : Path) (settings : Settings) : Except DiskError Sources := do
  let root ← disk.canonical root
  return ofFiles root settings (projectFiles disk root settings)

/-- The files that are analysed, with their kinds, in order. -/
def all (sources : Sources) : List (FileKind × Path) :=
  sources.markup.map (.markup, ·) ++ sources.stylesheets.map (.stylesheet, ·) ++
    sources.scripts.map (.script, ·)

end Sources

/-- The names of files that may mention a function end in one of these. -/
def corpusExtensions : List String :=
  ["html", "htm", "ejs", "css", "scss", "sass", "less", "js", "mjs", "cjs", "jsx", "ts", "tsx",
    "vue", "svelte", "hbs", "handlebars", "pug", "json", "xml", "yaml", "yml", "toml", "njk",
    "liquid", "twig", "php"]

/-- The files that may mention a function. -/
def referenceCorpus (disk : Disk) (root : Path) (settings : Settings) : List Path :=
  (projectFiles disk root settings).filter fun path =>
    match path.extension? with
    | some ending => corpusExtensions.contains (Path.lowerAscii ending)
    | none => false

end Deadwood
