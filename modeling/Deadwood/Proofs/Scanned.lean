/-
# What scans find

The stylesheets and scripts of a scan stand below the directory of the project,
outside the directories that are not looked into, and none has the name of a
backup. The functions that a scan finds unused come from its scripts, and each
names its script the way the scan shows it.
-/

import Deadwood.Proofs.Fix.Edits
import Deadwood.Proofs.Names
import Deadwood.Proofs.Script.Declarations
import Deadwood.Scan

namespace Deadwood

deriving instance ReflBEq, LawfulBEq for FileKind

open Deadwood.Fix (IsSource)

variable {disk : Disk} {root path : Path} {here : Location} {settings : Settings}
  {sources : Sources}

/-- A text that stands in a project is what is analysed there. -/
theorem Disk.Project.loadSource_down (project : disk.Project root here) {names : List String}
    {text : String} (hfile : disk.get? (here ++ names) = some (.file text.toUTF8))
    (hsize : text.toUTF8.size < 0x100000000) : disk.loadSource (root.down names) = .ok text := by
  unfold Disk.loadSource
  rw [project.find_down hfile]
  simp only [fromUTF8?_toUTF8]
  exact if_neg (Nat.not_le.mpr hsize)

/-! ## Sources -/

theorem discover_eq (project : disk.Project root here) (settings : Settings) :
    Sources.discover disk root settings =
      .ok (.ofFiles (.ofLocation here) settings
        (projectFiles disk (.ofLocation here) settings)) := by
  have hcanonical : disk.canonical root = .ok (.ofLocation here) := by
    rw [Disk.canonical, project.rooted]
    rfl
  rw [Sources.discover, hcanonical]
  rfl

/-- The files of a project are those below its directory that no directory on the
way keeps out. -/
theorem mem_projectFiles_iff (project : disk.Project root here) :
    path ∈ projectFiles disk (.ofLocation here) settings ↔
      ∃ names bytes, disk.get? (here ++ names) = some (.file bytes) ∧
        Disk.isPruned (isOutside (.ofLocation here) settings) (.ofLocation here) names = false ∧
        path = .ofLocation (here ++ names) := by
  rw [projectFiles, project.canonical.mem_filesBelow_iff]
  have hdown : ∀ names bytes, disk.get? (here ++ names) = some (.file bytes) →
      (Path.ofLocation here).down names = .ofLocation (here ++ names) := by
    intro names bytes hfile
    apply Path.down_ofLocation project.named_here
    intro name hname
    exact project.tree.named_of_mem hfile name (List.mem_append_right _ hname)
  constructor
  · rintro ⟨names, bytes, hfile, hpruned, rfl⟩
    exact ⟨names, bytes, hfile, hpruned, hdown names bytes hfile⟩
  · rintro ⟨names, bytes, hfile, hpruned, rfl⟩
    exact ⟨names, bytes, hfile, hpruned, (hdown names bytes hfile).symm⟩

/-- A file of some kind is analysed. -/
theorem isSource_of_kind (project : disk.Project root here) {names : List String}
    {bytes : ByteArray} (hfile : disk.get? (here ++ names) = some (.file bytes)) {kind : FileKind}
    (hkind : FileKind.ofPath? (.ofLocation (here ++ names)) = some kind) :
    IsSource here (here ++ names) := by
  have hne := project.ne_nil_of_file hfile
  obtain ⟨front, name, rfl⟩ := Path.exists_append_singleton hne
  have hnamed := project.tree.named_of_mem hfile
  have hnames : ∀ part ∈ front ++ [name], Path.IsName part := fun part hpart =>
    hnamed part (List.mem_append_right _ hpart)
  have hpath := Path.isBelow_ofLocation (by simp) project.named_here hnames
  have hname : (Path.ofLocation (here ++ (front ++ [name]))).name? = some name :=
    hpath.name? (hnames name (by simp))
  exact ⟨front, name, rfl, hnamed, Fix.endsAsCode_of_kind hkind hname⟩

/-- Where the stylesheets and scripts of a project stand. -/
theorem mem_discovered (project : disk.Project root here)
    (hsources : Sources.discover disk root settings = .ok sources)
    (hpath : path ∈ sources.stylesheets ∨ path ∈ sources.scripts) :
    ∃ names bytes, disk.get? (here ++ names) = some (.file bytes) ∧
      Disk.isPruned (isOutside (.ofLocation here) settings) (.ofLocation here) names = false ∧
      path = .ofLocation (here ++ names) ∧ IsSource here (here ++ names) := by
  rw [discover_eq project, Except.ok.injEq] at hsources
  subst hsources
  have hkept : path ∈ projectFiles disk (.ofLocation here) settings ∧
      ∃ kind, FileKind.ofPath? path = some kind := by
    simp only [Sources.ofFiles, List.mem_filter, beq_iff_eq] at hpath
    rcases hpath with ⟨⟨hmem, hkind⟩, -⟩ | ⟨hmem, hkind⟩
    · exact ⟨hmem, _, hkind⟩
    · exact ⟨hmem, _, hkind⟩
  obtain ⟨hmem, kind, hkind⟩ := hkept
  obtain ⟨names, bytes, hfile, hpruned, rfl⟩ := (mem_projectFiles_iff project).mp hmem
  exact ⟨names, bytes, hfile, hpruned, rfl, isSource_of_kind project hfile hkind⟩

/-- Sources of a directory, sorted by kind, and no stylesheet listed twice. -/
structure Sources.StandIn (sources : Sources) (here : Location) : Prop where
  root : sources.root = .ofLocation here
  apart : ∀ path ∈ sources.stylesheets, path ∉ sources.scripts
  once : sources.stylesheets.Nodup

theorem Sources.standIn_of_discover (project : disk.Project root here)
    (hsources : Sources.discover disk root settings = .ok sources) : sources.StandIn here := by
  rw [discover_eq project, Except.ok.injEq] at hsources
  subst hsources
  refine ⟨rfl, ?_, ?_⟩
  · intro path hsheet hscript
    simp only [Sources.ofFiles, List.mem_filter, beq_iff_eq] at hsheet hscript
    simp [hsheet.1.2] at hscript
  · exact ((project.canonical.nodup_filesBelow _).filter _).filter _

/-! ## Listed files -/

/-- The files that discovery lists. -/
def Sources.listed (sources : Sources) : List Path :=
  sources.markup ++ sources.stylesheets ++ sources.scripts ++ sources.excluded

theorem Sources.mem_listed_ofFiles {files : List Path} :
    path ∈ (ofFiles root settings files).listed ↔
      path ∈ files ∧ (FileKind.ofPath? path).isSome = true := by
  simp only [listed, ofFiles, List.mem_append, List.mem_filter, beq_iff_eq]
  cases hkind : FileKind.ofPath? path with
  | none => simp
  | some kind =>
    cases kind with
    | markup => simp
    | script => simp
    | stylesheet => cases settings.excludesStylesheet (path.shownIn root) <;> simp

/-! ## Unused functions -/

private theorem mem_addFunctions {added functions : List Symbol} {function : Symbol}
    (hfunction : function ∈ added.foldl Usage.addFunction functions) :
    function ∈ functions ∨ function ∈ added := by
  induction added generalizing functions with
  | nil => exact .inl hfunction
  | cons first rest ih =>
    rcases ih hfunction with hfunction | hfunction
    · unfold Usage.addFunction at hfunction
      split at hfunction
      · exact .inl hfunction
      · rcases List.mem_append.mp hfunction with hfunction | hfunction
        · exact .inl hfunction
        · exact .inr (by simp_all)
    · exact .inr (List.mem_cons_of_mem _ hfunction)

/-- A script declares a function, as its text stands. -/
def Declares (disk : Disk) (sources : Sources) (path : Path) (function : Symbol) : Prop :=
  ∃ source, disk.loadSource path = .ok source ∧
    function ∈ (Script.factsOf (Script.parse source) (.ofString source)
      (sources.shown path)).functions

theorem Declares.file_eq {function : Symbol} (hdeclares : Declares disk sources path function) :
    function.file = some (sources.shown path) := by
  obtain ⟨source, -, hfunction⟩ := hdeclares
  obtain ⟨-, -, -, -, -, -, -, -, rfl⟩ := Script.mem_functions_iff.mp hfunction
  rfl

private theorem mem_addFile {usage : Usage} {kind : FileKind} {function : Symbol}
    (hfunction : function ∈ (Scan.addFile disk sources usage kind path).functions) :
    function ∈ usage.functions ∨ kind = .script ∧ Declares disk sources path function := by
  unfold Scan.addFile at hfunction
  cases hload : disk.loadSource path with
  | error error =>
    simp only [hload] at hfunction
    exact .inl hfunction
  | ok source =>
    simp only [hload] at hfunction
    rcases mem_addFunctions hfunction with hfunction | hfunction
    · exact .inl hfunction
    · cases kind with
      | markup => simp [Contribution.ofSource, Contribution.ofMarkup] at hfunction
      | stylesheet => simp [Contribution.ofSource, Contribution.ofStylesheet] at hfunction
      | script =>
        simp only [Contribution.ofSource, Contribution.ofScript] at hfunction
        exact .inr ⟨rfl, source, hload, hfunction⟩

private theorem mem_functions_foldl {files : List (FileKind × Path)} {usage : Usage}
    {function : Symbol}
    (hfunction : function ∈ (files.foldl
      (fun usage (kind, path) => Scan.addFile disk sources usage kind path) usage).functions) :
    function ∈ usage.functions ∨
      ∃ path, (.script, path) ∈ files ∧ Declares disk sources path function := by
  induction files generalizing usage with
  | nil => exact .inl hfunction
  | cons first rest ih =>
    obtain ⟨kind, path⟩ := first
    rcases ih hfunction with hfunction | ⟨later, hlater, hdeclares⟩
    · rcases mem_addFile hfunction with hfunction | ⟨rfl, hdeclares⟩
      · exact .inl hfunction
      · exact .inr ⟨path, List.mem_cons_self, hdeclares⟩
    · exact .inr ⟨later, List.mem_cons_of_mem _ hlater, hdeclares⟩

/-- A scan is one of the sources that are discovered. -/
theorem Scan.exists_discover_of_run {scan : Scan}
    (hscan : Scan.run disk root settings = .ok scan) :
    ∃ sources, Sources.discover disk root settings = .ok sources ∧
      scan = .ofSources disk sources settings := by
  unfold Scan.run at hscan
  cases hsources : Sources.discover disk root settings with
  | error error => simp [hsources, bind, Except.bind] at hscan
  | ok sources =>
    refine ⟨sources, rfl, ?_⟩
    simpa [hsources, bind, Except.bind, pure, Except.pure] using hscan.symm

/-- Every unused function of a scan is declared by a script. -/
theorem Scan.exists_declares_of_mem_unused {scan : Scan}
    (hscan : Scan.run disk root settings = .ok scan) {function : Symbol}
    (hfunction : function ∈ scan.unused) :
    ∃ path ∈ scan.sources.scripts, Declares disk scan.sources path function := by
  obtain ⟨sources, -, rfl⟩ := Scan.exists_discover_of_run hscan
  have hmem : function ∈ (Scan.usageOf disk sources).functions := by
    simp only [Scan.ofSources, Usage.unusedFunctions, List.mem_filter] at hfunction
    exact hfunction.1
  rcases mem_functions_foldl hmem with hnone | ⟨path, hpath, hdeclares⟩
  · simp at hnone
  · refine ⟨path, ?_, hdeclares⟩
    show path ∈ sources.scripts
    simpa [Sources.all] using hpath

/-- Every unused function of a scan names the script that declares it. -/
theorem Scan.exists_script_of_mem_unused {scan : Scan}
    (hscan : Scan.run disk root settings = .ok scan) {function : Symbol}
    (hfunction : function ∈ scan.unused) :
    ∃ path ∈ scan.sources.scripts, function.file = some (scan.sources.shown path) := by
  obtain ⟨path, hpath, hdeclares⟩ := Scan.exists_declares_of_mem_unused hscan hfunction
  exact ⟨path, hpath, hdeclares.file_eq⟩

/-- Verdicts are given on the functions that a scan finds unused. -/
theorem Scan.symbol_mem_unused {scan : Scan} {candidate : Candidate}
    (hcandidate : candidate ∈ scan.candidates disk settings) : candidate.symbol ∈ scan.unused := by
  rw [Scan.candidates] at hcandidate
  obtain ⟨pair, hpair, rfl⟩ := List.mem_map.mp
    (List.map_zip_eq_zipWith (f := fun pair => Candidate.mk pair.1 pair.2) ▸ hcandidate)
  exact (List.of_mem_zip hpair).1

end Deadwood
