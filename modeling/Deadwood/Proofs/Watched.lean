/-
# Which files are watched

Discovery keeps out of directories on its way down. The filter of the watch looks
at whole paths instead, so it cannot tell a directory from a file: it passes over a
file that itself has an excluded name or is taken for the directory of the patches,
and over every file if the patches go to the root of the project or around it.
`IsOverlooked` says so. All other files are watched exactly if they are listed.
-/

import Deadwood.Proofs.Parts
import Deadwood.Proofs.Scanned
import Deadwood.Watch

namespace Deadwood

variable {disk : Disk} {root path : Path} {here : Location} {settings : Settings}
  {sources : Sources} {names : List String} {bytes : ByteArray}

/-! ## Pruned places -/

/-- A place is pruned exactly if a directory on the way to it is. -/
theorem Disk.isPruned_iff {prunes : Path → String → Bool} {names : List String} :
    isPruned prunes root names = true ↔
      ∃ inner name rest, names = inner ++ name :: rest ∧ rest ≠ [] ∧
        prunes (root.down (inner ++ [name])) name = true := by
  induction names generalizing root with
  | nil => simp [isPruned]
  | cons first others ih =>
    by_cases hothers : others = []
    · subst hothers
      simp [isPruned, List.cons_eq_append_iff]
    have hstep : isPruned prunes root (first :: others) =
        (prunes (root.join ⟨first⟩) first || isPruned prunes (root.join ⟨first⟩) others) := by
      rw [isPruned]
      simpa using hothers
    rw [hstep, Bool.or_eq_true, ih]
    constructor
    · rintro (hfirst | ⟨inner, name, rest, rfl, hrest, hpruned⟩)
      · exact ⟨[], first, others, rfl, hothers, hfirst⟩
      · exact ⟨first :: inner, name, rest, rfl, hrest, hpruned⟩
    · rintro ⟨inner, name, rest, hsplit, hrest, hpruned⟩
      cases inner with
      | nil =>
        obtain ⟨rfl, rfl⟩ := List.cons.inj hsplit
        exact .inl hpruned
      | cons next inner =>
        obtain ⟨rfl, rfl⟩ := List.cons.inj hsplit
        exact .inr ⟨inner, name, rest, rfl, hrest, hpruned⟩

/-! ## The directories that the tool writes -/

/-- The directory of the latest findings is one below the root. -/
theorem isSame_snapshotDirectory (hhere : ∀ name ∈ here, Path.IsName name) :
    (((Path.ofLocation here).join ⟨snapshotFile⟩).parent?.getD (.ofLocation here)).isSame
      (.ofLocation (here ++ [".deadwatcher"])) = true := by
  have hinner : Path.isAbsolute ⟨snapshotFile⟩ = false := by decide
  have hnames : ∀ name ∈ here ++ [".deadwatcher"], Path.IsName name := by
    intro name hname
    rcases List.mem_append.mp hname with hname | hname
    · exact hhere name hname
    · rw [List.mem_singleton.mp hname]
      decide
  obtain ⟨front, hfront, -, hsegments⟩ := (Path.ofLocation here).segments_join hinner
  have hsnapshot : Path.segments ⟨snapshotFile⟩ = [".deadwatcher"] ++ ["last-result.json"] := by
    decide
  rw [hsnapshot, ← List.append_assoc] at hsegments
  obtain ⟨parent, hparent, hsteps, habsolute, -⟩ :=
    Path.follows_parent? (by decide : Path.IsName "last-result.json") hsegments
  rw [Path.isAbsolute_join hinner, Path.isAbsolute_ofLocation] at habsolute
  rw [List.filter_append, hfront, Path.steps_ofLocation hhere] at hsteps
  rw [hparent, Option.getD_some, Path.isSame, beq_iff_eq, Path.parts_of_isAbsolute habsolute,
    hsteps, Path.parts_ofLocation hnames, ← Path.filterMap_ofSegment?_of_names hnames]
  rfl

theorem isAbsolute_patchesPath (here : Location) (settings : Settings) :
    (settings.patchesPath (.ofLocation here)).isAbsolute = true := by
  rw [Settings.patchesPath]
  cases hinner : Path.isAbsolute ⟨settings.patchesDir⟩ with
  | true => rw [Path.join, hinner, if_pos rfl, hinner]
  | false => rw [Path.isAbsolute_join hinner, Path.isAbsolute_ofLocation]

/-- The path of a file begins with that of a directory if this is the directory of
the project or one around it, if it is the file itself, or if it is one on the way
to the file. -/
theorem startsWith_below_iff {directory : Path} (hdirectory : directory.isAbsolute = true)
    (hnames : ∀ name ∈ here ++ names, Path.IsName name) :
    (Path.ofLocation (here ++ names)).startsWith directory = true ↔
      (Path.ofLocation here).startsWith directory = true ∨
        directory.isSame (.ofLocation (here ++ names)) = true ∨
        ∃ inner name rest, names = inner ++ name :: rest ∧ rest ≠ [] ∧
          directory.isSame (.ofLocation (here ++ (inner ++ [name]))) = true := by
  have hhere : ∀ name ∈ here, Path.IsName name := fun name hname =>
    hnames name (List.mem_append_left _ hname)
  rw [Path.startsWith_ofLocation_iff hdirectory hnames,
    Path.startsWith_ofLocation_iff hdirectory hhere]
  constructor
  · rintro ⟨outer, houter, hsame⟩
    rcases List.prefix_or_prefix_of_prefix houter (List.prefix_append here names) with
      hround | ⟨inner, rfl⟩
    · exact .inl ⟨outer, hround, hsame⟩
    by_cases hinner : inner = []
    · exact .inl ⟨here ++ inner, by simp [hinner], hsame⟩
    obtain ⟨front, name, rfl⟩ := Path.exists_append_singleton hinner
    obtain ⟨rest, rfl⟩ := (List.prefix_append_right_inj here).mp houter
    by_cases hrest : rest = []
    · rw [hrest, List.append_nil]
      exact .inr (.inl hsame)
    · exact .inr (.inr ⟨front, name, rest, by simp, hrest, hsame⟩)
  · rintro (⟨outer, hround, hsame⟩ | hsame | ⟨inner, name, rest, rfl, -, hsame⟩)
    · exact ⟨outer, hround.trans (List.prefix_append here names), hsame⟩
    · exact ⟨here ++ names, List.prefix_refl _, hsame⟩
    · refine ⟨here ++ (inner ++ [name]), ?_, hsame⟩
      rw [List.prefix_append_right_inj]
      exact ⟨rest, by simp⟩

namespace Watch

/-- A file that the filter takes for a directory that is left out: it has an
excluded name itself, or the patches go to it, to the root of the project, or to
somewhere around the project. -/
def IsOverlooked (root : Path) (settings : Settings) (path : Path) : Prop :=
  (∃ name, path.name? = some name ∧ settings.excludesDir name = true) ∨
    (settings.patchesPath root).isSame path = true ∨
    root.startsWith (settings.patchesPath root) = true

/-- The filter looks at all names below the root, the last one included. -/
private theorem excludes_relative (settings : Settings) (hhere : ∀ name ∈ here, Path.IsName name)
    (hnames : ∀ name ∈ names, Path.IsName name) (hne : names ≠ []) :
    ((((Path.ofLocation (here ++ names)).relativeTo? (.ofLocation here)).getD
      (.ofLocation (here ++ names))).parts.any (settings.excludesDir ·.text)) =
      names.any settings.excludesDir := by
  rw [Path.relativeTo?_ofLocation hhere hne hnames, Option.getD_some, Path.parts_ofSegments hnames,
    List.any_map]
  rfl

/-- No file of a known kind has the name of the directory of the latest findings. -/
private theorem ofPath?_snapshotDirectory
    (hnames : ∀ name ∈ here ++ [".deadwatcher"], Path.IsName name) :
    FileKind.ofPath? (.ofLocation (here ++ [".deadwatcher"])) = none := by
  have hname : (Path.ofLocation (here ++ [".deadwatcher"])).name? = some ".deadwatcher" := by
    rw [Path.name?, Path.parts_ofLocation hnames, List.map_append, ← List.cons_append,
      List.map_singleton, List.getLast?_concat]
  rw [FileKind.ofPath?, Path.extension?, hname]
  decide

/-- A file of a known kind lies in a directory that the tool writes exactly if this
is on the way to it, or the patches go to the file, to the root or around it. -/
private theorem startsWith_own_iff (hnames : ∀ name ∈ here ++ names, Path.IsName name)
    (hkind : (FileKind.ofPath? (.ofLocation (here ++ names))).isSome = true) :
    (ownDirectories (.ofLocation here) settings).any
        ((Path.ofLocation (here ++ names)).startsWith ·) = true ↔
      (settings.patchesPath (.ofLocation here)).isSame (.ofLocation (here ++ names)) = true ∨
        (Path.ofLocation here).startsWith (settings.patchesPath (.ofLocation here)) = true ∨
        ∃ inner name rest, names = inner ++ name :: rest ∧ rest ≠ [] ∧
          (ownDirectories (.ofLocation here) settings).any
            (·.isSame (.ofLocation (here ++ (inner ++ [name])))) = true := by
  have hhere : ∀ name ∈ here, Path.IsName name := fun name hname =>
    hnames name (List.mem_append_left _ hname)
  have hsnapshot : ∀ name ∈ here ++ [".deadwatcher"], Path.IsName name := by
    intro name hname
    rcases List.mem_append.mp hname with hname | hname
    · exact hhere name hname
    · rw [List.mem_singleton.mp hname]
      decide
  -- The other directory lies right below the root, and is no file of a known kind.
  have hround :
      ¬ (Path.ofLocation here).startsWith (.ofLocation (here ++ [".deadwatcher"])) = true := by
    rw [Path.startsWith_iff, Path.parts_ofLocation hhere, Path.parts_ofLocation hsnapshot]
    intro hprefix
    have hlength := hprefix.length_le
    simp at hlength
  have hfile : ¬ (Path.ofLocation (here ++ [".deadwatcher"])).isSame
      (.ofLocation (here ++ names)) = true := by
    rw [Path.isSame_ofLocation_iff hsnapshot hnames]
    intro hsame
    rw [← hsame, ofPath?_snapshotDirectory hsnapshot] at hkind
    simp at hkind
  have hdirectory := isSame_snapshotDirectory hhere
  simp only [ownDirectories, List.any_cons, List.any_nil, Bool.or_false, Bool.or_eq_true,
    Path.startsWith_congr hdirectory, Path.isSame_congr hdirectory,
    startsWith_below_iff (isAbsolute_patchesPath here settings) hnames,
    startsWith_below_iff (Path.isAbsolute_ofLocation _) hnames, hround, hfile, Bool.false_eq_true,
    false_or]
  constructor
  · rintro ((hround | hsame | ⟨inner, name, rest, hsplit, hrest, hsame⟩) |
      ⟨inner, name, rest, hsplit, hrest, hsame⟩)
    · exact .inr (.inl hround)
    · exact .inl hsame
    · exact .inr (.inr ⟨inner, name, rest, hsplit, hrest, .inl hsame⟩)
    · exact .inr (.inr ⟨inner, name, rest, hsplit, hrest, .inr hsame⟩)
  · rintro (hsame | hround | ⟨inner, name, rest, hsplit, hrest, hsame | hsame⟩)
    · exact .inl (.inr (.inl hsame))
    · exact .inl (.inl hround)
    · exact .inl (.inr (.inr ⟨inner, name, rest, hsplit, hrest, hsame⟩))
    · exact .inr ⟨inner, name, rest, hsplit, hrest, hsame⟩

/-- Discovery keeps out of a place for a directory that the tool writes, or for one
with an excluded name. -/
private theorem isPruned_isOutside_iff (hnames : ∀ name ∈ here ++ names, Path.IsName name) :
    Disk.isPruned (isOutside (.ofLocation here) settings) (.ofLocation here) names = true ↔
      (∃ inner name rest, names = inner ++ name :: rest ∧ rest ≠ [] ∧
        (ownDirectories (.ofLocation here) settings).any
          (·.isSame (.ofLocation (here ++ (inner ++ [name])))) = true) ∨
      ∃ inner name rest, names = inner ++ name :: rest ∧ rest ≠ [] ∧
        settings.excludesDir name = true := by
  have hdown : ∀ inner name rest, names = inner ++ name :: rest →
      (Path.ofLocation here).down (inner ++ [name]) = .ofLocation (here ++ (inner ++ [name])) := by
    rintro inner name rest rfl
    apply Path.down_ofLocation
    · exact fun other hother => hnames other (List.mem_append_left _ hother)
    · intro other hother
      apply hnames other
      rw [List.append_cons inner name rest]
      exact List.mem_append_right _ (List.mem_append_left _ hother)
  rw [Disk.isPruned_iff]
  constructor
  · rintro ⟨inner, name, rest, hsplit, hrest, hpruned⟩
    rw [hdown inner name rest hsplit, isOutside, Bool.or_eq_true] at hpruned
    rcases hpruned with hown | hexcluded
    · exact .inl ⟨inner, name, rest, hsplit, hrest, hown⟩
    · exact .inr ⟨inner, name, rest, hsplit, hrest, hexcluded⟩
  · rintro (⟨inner, name, rest, hsplit, hrest, hown⟩ |
      ⟨inner, name, rest, hsplit, hrest, hexcluded⟩)
    · refine ⟨inner, name, rest, hsplit, hrest, ?_⟩
      rw [hdown inner name rest hsplit, isOutside, hown, Bool.true_or]
    · exact ⟨inner, name, rest, hsplit, hrest, by rw [isOutside, hexcluded, Bool.or_true]⟩

/-- A name of a file that is excluded is its last one or one on the way to it. -/
private theorem any_excludes_iff {excludes : String → Bool} {front : List String} {last : String} :
    (front ++ [last]).any excludes = true ↔
      excludes last = true ∨ ∃ inner name rest, front ++ [last] = inner ++ name :: rest ∧
        rest ≠ [] ∧ excludes name = true := by
  rw [List.any_append, Bool.or_eq_true, or_comm, List.any_cons, List.any_nil, Bool.or_false]
  apply or_congr_right
  rw [List.any_eq_true]
  constructor
  · rintro ⟨name, hname, hexcluded⟩
    obtain ⟨inner, rest, rfl⟩ := List.append_of_mem hname
    exact ⟨inner, name, rest ++ [last], by simp, by simp, hexcluded⟩
  · rintro ⟨inner, name, rest, hsplit, hrest, hexcluded⟩
    obtain ⟨more, other, rfl⟩ := Path.exists_append_singleton hrest
    rw [← List.cons_append, ← List.append_assoc] at hsplit
    obtain ⟨rfl, -⟩ := List.append_inj' hsplit rfl
    exact ⟨name, by simp, hexcluded⟩

/-- A file of a project is listed exactly if it is of a known kind and no directory
on the way keeps it out. -/
theorem mem_listed_iff (project : disk.Project root here)
    (hsources : Sources.discover disk root settings = .ok sources)
    (hfile : disk.get? (here ++ names) = some (.file bytes)) :
    .ofLocation (here ++ names) ∈ sources.listed ↔
      (FileKind.ofPath? (.ofLocation (here ++ names))).isSome = true ∧
        ¬ Disk.isPruned (isOutside (.ofLocation here) settings) (.ofLocation here) names =
          true := by
  rw [discover_eq project, Except.ok.injEq] at hsources
  rw [← hsources, Sources.mem_listed_ofFiles, mem_projectFiles_iff project, and_comm,
    Bool.not_eq_true]
  apply and_congr_right
  intro _
  constructor
  · rintro ⟨others, held, hheld, hpruned, hsame⟩
    have hsame := Path.ofLocation_inj (project.tree.named_of_mem hfile)
      (project.tree.named_of_mem hheld) hsame
    rwa [List.append_cancel_left hsame]
  · intro hpruned
    exact ⟨names, bytes, hfile, hpruned, rfl⟩

/-- A file is watched exactly if it is listed and not overlooked. -/
theorem admits_iff_listed (project : disk.Project (.ofLocation here) here)
    (hsources : Sources.discover disk (.ofLocation here) settings = .ok sources)
    (hfile : disk.get? (here ++ names) = some (.file bytes)) :
    admits (.ofLocation here) settings (.ofLocation (here ++ names)) = true ↔
      .ofLocation (here ++ names) ∈ sources.listed ∧
        ¬ IsOverlooked (.ofLocation here) settings (.ofLocation (here ++ names)) := by
  have hnames := project.tree.named_of_mem hfile
  obtain ⟨front, last, rfl⟩ := Path.exists_append_singleton (project.ne_nil_of_file hfile)
  have hname : ∀ name, (Path.ofLocation (here ++ (front ++ [last]))).name? = some name ↔
      last = name := by
    intro name
    rw [Path.name?, Path.parts_ofLocation hnames, ← List.append_assoc, List.map_append,
      ← List.cons_append, List.map_singleton, List.getLast?_concat, Option.some.injEq]
  have hexcludes := excludes_relative settings project.named_here
    (fun name hname => hnames name (List.mem_append_right _ hname))
    (List.append_ne_nil_of_right_ne_nil front (List.cons_ne_nil last []))
  rw [mem_listed_iff project hsources hfile, isPruned_isOutside_iff hnames, IsOverlooked, admits,
    hexcludes]
  simp only [Bool.and_eq_true, Bool.not_eq_true', ← Bool.not_eq_true, any_excludes_iff, hname,
    exists_eq_left']
  by_cases hkind : (FileKind.ofPath? (.ofLocation (here ++ (front ++ [last])))).isSome = true
  · rw [startsWith_own_iff hnames hkind]
    simp only [hkind, true_and, not_or]
    constructor
    · rintro ⟨⟨hself, hround, hown⟩, hlast, hway⟩
      exact ⟨⟨hown, hway⟩, hlast, hself, hround⟩
    · rintro ⟨⟨hown, hway⟩, hlast, hself, hround⟩
      exact ⟨⟨hself, hround, hown⟩, hlast, hway⟩
  · simp only [hkind, Bool.false_eq_true, false_and]

/-! ## A script with an excluded name -/

/-- Two scripts at the root of a project. -/
def scriptDisk : Disk where
  entries :=
    [(["app.js"], .file "start();\n".toUTF8),
      (["lib.js"], .file "function start() \x7b\x7d\n".toUTF8)]

theorem scriptDisk_project : scriptDisk.Project (.ofLocation []) [] :=
  .ofEntries (by decide) (by decide) (by simp [scriptDisk])

/-- Settings that exclude directories of the name of one of them. -/
def scriptSettings : Settings := { excludeDirs := ["app.js"] }

/-- Both scripts are listed, and only one is watched. -/
theorem admits_iff_listed_scripts :
    ∃ sources, Sources.discover scriptDisk (.ofLocation []) scriptSettings = .ok sources ∧
      .ofLocation ["lib.js"] ∈ sources.listed ∧
      admits (.ofLocation []) scriptSettings (.ofLocation ["lib.js"]) = true ∧
      .ofLocation ["app.js"] ∈ sources.listed ∧
      admits (.ofLocation []) scriptSettings (.ofLocation ["app.js"]) = false := by
  have hsources := discover_eq scriptDisk_project scriptSettings
  have hlib : scriptDisk.get? ([] ++ ["lib.js"]) =
      some (.file "function start() \x7b\x7d\n".toUTF8) := rfl
  have happ : scriptDisk.get? ([] ++ ["app.js"]) = some (.file "start();\n".toUTF8) := rfl
  have hwatched : admits (.ofLocation []) scriptSettings (.ofLocation ["lib.js"]) = true := by
    decide +kernel
  refine ⟨_, hsources, ?_, hwatched, ?_, by decide +kernel⟩
  · exact ((admits_iff_listed scriptDisk_project hsources hlib).mp hwatched).1
  · apply (mem_listed_iff scriptDisk_project hsources happ).mpr
    decide +kernel

end Watch

end Deadwood
