/-
# Shown paths as names of files

Functions record the file that declares them the way it is shown. A fix takes the
shown path for the file again, and the verdicts compare it with the shown paths of
the files that they search.

This goes well exactly for the files without a backslash in their names below the
root. They are found again, no two of them are shown alike, and so their functions
lead back to them. A backslash is shown as a slash, and what is shown then is the
path of another place.
-/

import Deadwood.Proofs.Parts
import Deadwood.Proofs.Scanned

namespace Deadwood

open Deadwood.Path (IsName)

/-! ## Names on the way -/

namespace Disk

variable {disk : Disk} {root path : Path} {here location : Location} {entry : Entry}
  {prunes : Path → String → Bool} {follow : Bool} {links : Nat} {segments : List String}

/-- A look-up that begins among names ends among names. -/
theorem named_of_lookUp (tree : disk.IsTree) (hhere : ∀ name ∈ here, IsName name)
    (hfound : lookUp disk follow links here segments = .ok (.found location entry)) :
    ∀ name ∈ location, IsName name := by
  replace hfound := walk_of_lookUp hfound
  induction hfound with
  | nil hplace =>
    obtain ⟨rfl, -⟩ := hplace
    exact hhere
  | idle _ _ ih => exact ih hhere
  | @up _ here _ _ ih => exact ih fun name hname => hhere name (List.dropLast_subset here hname)
  | ends _ hends =>
    cases hends with
    | file hentry _ => exact tree.named_of_mem hentry
    | link hentry _ _ => exact tree.named_of_mem hentry
  | directory _ hentry _ ih => exact ih (tree.named_of_mem hentry)
  | followed target _ _ _ _ ih =>
    apply ih
    split
    · simp
    · exact hhere

/-- What a path leads to stands at a location made of names. -/
theorem named_of_find (tree : disk.IsTree) (hworking : disk.get? disk.workingDir = some .directory)
    (hfound : disk.find path = .ok (location, entry)) : ∀ name ∈ location, IsName name := by
  have hplace := find_eq_ok_iff_place.mp hfound
  rw [place] at hplace
  split at hplace
  · simp at hplace
  split at hplace
  · simp at hplace
  apply named_of_lookUp tree _ hplace
  split
  · simp
  · exact tree.named_of_mem hworking

/-- A walk finds its root and what names lead to from there. -/
theorem IsTree.exists_down_of_mem_walk (tree : disk.IsTree)
    (hmem : (path, entry) ∈ disk.walk root prunes) :
    ∃ names, (∀ name ∈ names, IsName name) ∧ path = root.down names := by
  have hinside : ∀ {location : Location}, (path, entry) ∈
      ((disk.below location).filter fun item => !isPruned prunes root item.1).map
        (fun item => (root.down item.1, item.2)) →
      ∃ names, (∀ name ∈ names, IsName name) ∧ path = root.down names := by
    intro location hinside
    obtain ⟨⟨names, found⟩, hbelow, hpath⟩ := List.mem_map.mp hinside
    have hentry := (tree.mem_below_iff.mp (List.mem_of_mem_filter hbelow)).2
    refine ⟨names, fun name hname => ?_, (Prod.mk.inj hpath).1.symm⟩
    exact tree.named_of_mem hentry name (List.mem_append_right _ hname)
  unfold walk at hmem
  split at hmem
  · exact hinside hmem
  · obtain ⟨rfl, -⟩ := Prod.mk.inj (List.mem_singleton.mp hmem)
    exact ⟨[], by simp, rfl⟩
  · split at hmem
    · exact hinside hmem
    · simp at hmem
  · simp at hmem

theorem IsTree.exists_down_of_mem_filesBelow (tree : disk.IsTree)
    (hpath : path ∈ disk.filesBelow root prunes) :
    ∃ names, (∀ name ∈ names, IsName name) ∧ path = root.down names := by
  obtain ⟨⟨walked, entry⟩, hmem, hfile⟩ := List.mem_filterMap.mp hpath
  cases entry with
  | file bytes =>
    obtain rfl := Option.some.inj hfile
    exact tree.exists_down_of_mem_walk hmem
  | directory => simp at hfile
  | link target => simp at hfile

end Disk

/-! ## Backslashes -/

namespace Path

variable {path root : Path} {here : Location} {names others : List String}

/-- No name of a path below a root has a backslash. -/
def IsPlainIn (path root : Path) : Prop :=
  ∀ part ∈ ((path.relativeTo? root).getD path).parts, '\\' ∉ part.text.toList

instance (path root : Path) : Decidable (path.IsPlainIn root) :=
  inferInstanceAs (Decidable (∀ part ∈ _, _))

/-- Nothing stands behind a path inside of itself. -/
theorem relativeTo?_self (hhere : ∀ name ∈ here, IsName name) :
    (ofLocation here).relativeTo? (ofLocation here) = some ⟨""⟩ := by
  have hstarts : (ofLocation here).startsWith (ofLocation here) = true :=
    startsWith_iff.mpr (List.prefix_refl _)
  rw [relativeTo?, if_pos hstarts, parts_ofLocation hhere]
  cases hnames : here with
  | nil => decide
  | cons name more =>
    have hempty : Part.ofSegment? "" = none := ofSegment?_eq_none_iff.mpr isIdle_empty
    rw [hnames] at hhere
    have hdrop := dropParts_append hhere []
    rw [List.append_nil, List.length_cons] at hdrop
    have hrest : dropParts (name :: more).length ("" :: name :: more) = [] := by
      rw [List.length_cons, dropParts]
      simp [hempty, hdrop]
    simp only [segments_ofLocation (List.cons_ne_nil name more) hhere, List.length_map, hrest]
    decide

theorem isPlainIn_ofLocation_iff (hhere : ∀ name ∈ here, IsName name)
    (hnames : ∀ name ∈ names, IsName name) :
    (ofLocation (here ++ names)).IsPlainIn (ofLocation here) ↔
      ∀ name ∈ names, '\\' ∉ name.toList := by
  rw [IsPlainIn]
  by_cases hne : names = []
  · have hnone : parts ⟨""⟩ = [] := by decide
    subst hne
    rw [List.append_nil, relativeTo?_self hhere, Option.getD_some, hnone]
    simp
  · rw [relativeTo?_ofLocation hhere hne hnames, Option.getD_some, parts_ofSegments hnames]
    simp [Part.text]

theorem shownIn_self (hhere : ∀ name ∈ here, IsName name) :
    (ofLocation here).shownIn (ofLocation here) = "" := by
  rw [shownIn, relativeTo?_self hhere]
  rfl

/-- Nothing is shown with a backslash. -/
theorem backslash_not_mem_shownIn (path root : Path) : '\\' ∉ (path.shownIn root).toList := by
  rw [shownIn, String.toList_ofList, List.mem_map]
  rintro ⟨c, -, hc⟩
  split at hc
  · simp at hc
  · contradiction

/-- The names in a path without a backslash have none. -/
theorem backslash_not_mem_of_mem_steps {text name : String} (htext : '\\' ∉ text.toList)
    (hname : .named name ∈ (steps ⟨text⟩).filterMap Part.ofSegment?) : '\\' ∉ name.toList := by
  obtain ⟨segment, hsegment, hpart⟩ := List.mem_filterMap.mp hname
  obtain rfl : segment = name := by
    unfold Part.ofSegment? at hpart
    split at hpart
    · simp at hpart
    · split at hpart <;> simp_all
  obtain ⟨piece, hpiece, rfl⟩ := List.mem_map.mp (List.mem_of_mem_filter hsegment)
  rw [String.toList_ofList]
  intro hback
  exact htext (Text.exists_mem_splitOnP_iff.mp ⟨piece, hpiece, hback⟩).1

/-- The path of a location is found again by what is shown of it exactly if no name
below the root has a backslash. -/
theorem isSame_join_shownIn_iff (hhere : ∀ name ∈ here, IsName name)
    (hnames : ∀ name ∈ names, IsName name) :
    ((ofLocation here).join ⟨(ofLocation (here ++ names)).shownIn (ofLocation here)⟩).isSame
        (ofLocation (here ++ names)) = true ↔ ∀ name ∈ names, '\\' ∉ name.toList := by
  have hall : ∀ name ∈ here ++ names, IsName name := fun name hname =>
    (List.mem_append.mp hname).elim (hhere name) (hnames name)
  constructor
  · intro hsame name hname
    apply backslash_not_mem_of_mem_steps (backslash_not_mem_shownIn _ _)
    rw [isSame, beq_iff_eq, parts_ofLocation hall] at hsame
    cases hinner : isAbsolute ⟨(ofLocation (here ++ names)).shownIn (ofLocation here)⟩ with
    | true =>
      rw [join, if_pos hinner, parts_of_isAbsolute hinner, List.cons.injEq] at hsame
      rw [hsame.2]
      exact List.mem_map_of_mem (List.mem_append_right here hname)
    | false =>
      rw [parts_join_ofLocation hhere hinner, parts_ofLocation hhere, List.map_append,
        ← List.cons_append] at hsame
      rw [List.append_cancel_left hsame]
      exact List.mem_map_of_mem hname
  · intro hplain
    by_cases hne : names = []
    · have hinner : isAbsolute ⟨""⟩ = false := by decide
      have hsteps : steps ⟨""⟩ = [] := by decide
      subst hne
      rw [List.append_nil, shownIn_self hhere, isSame, beq_iff_eq,
        parts_join_ofLocation hhere hinner, hsteps]
      simp
    · rw [shownIn_ofLocation hhere hne hnames hplain, join_ofLocation hhere hne hnames,
        isSame_ofLocation_iff hall hall]

/-- Paths of locations without a backslash are shown differently. -/
theorem shownIn_inj (hhere : ∀ name ∈ here, IsName name) (hnames : ∀ name ∈ names, IsName name)
    (hothers : ∀ name ∈ others, IsName name) (hplain : ∀ name ∈ names, '\\' ∉ name.toList)
    (hplain' : ∀ name ∈ others, '\\' ∉ name.toList)
    (hshown : (ofLocation (here ++ names)).shownIn (ofLocation here) =
      (ofLocation (here ++ others)).shownIn (ofLocation here)) : names = others := by
  have hfirst := (isSame_join_shownIn_iff hhere hnames).mpr hplain
  have hsecond := (isSame_join_shownIn_iff hhere hothers).mpr hplain'
  rw [hshown, isSame_congr hsecond, isSame_ofLocation_iff] at hfirst
  · exact (List.append_cancel_left hfirst).symm
  · exact fun name hname => (List.mem_append.mp hname).elim (hhere name) (hothers name)
  · exact fun name hname => (List.mem_append.mp hname).elim (hhere name) (hnames name)

end Path

/-! ## Files of a root -/

variable {disk later : Disk} {root path other : Path} {here : Location}
  {settings : Settings} {sources : Sources}

/-- The files of the path of a location are paths of locations there or below. -/
theorem exists_ofLocation_of_mem_projectFiles (tree : disk.IsTree)
    (hhere : ∀ name ∈ here, IsName name)
    (hpath : path ∈ projectFiles disk (.ofLocation here) settings) :
    ∃ names, (∀ name ∈ names, IsName name) ∧ path = .ofLocation (here ++ names) := by
  obtain ⟨names, hnames, rfl⟩ := tree.exists_down_of_mem_filesBelow hpath
  exact ⟨names, hnames, Path.down_ofLocation hhere hnames⟩

/-- The root of some sources is the path of a location, and all their files lie there
or below. -/
structure Sources.LieIn (sources : Sources) (here : Location) : Prop where
  root : sources.root = .ofLocation here
  named : ∀ name ∈ here, IsName name
  lie : ∀ path ∈ sources.listed,
    ∃ names, (∀ name ∈ names, IsName name) ∧ path = .ofLocation (here ++ names)

/-- What is discovered are the files of the location that the path to the root leads
to. -/
theorem Sources.exists_ofFiles_of_discover
    (hsources : Sources.discover disk root settings = .ok sources) :
    ∃ here entry, disk.find root = .ok (here, entry) ∧
      sources = .ofFiles (.ofLocation here) settings
        (projectFiles disk (.ofLocation here) settings) := by
  rw [Sources.discover, Disk.canonical] at hsources
  cases hfound : disk.find root with
  | error error => simp [hfound, bind, Except.bind, Except.map] at hsources
  | ok found =>
    refine ⟨found.1, found.2, rfl, ?_⟩
    simpa [hfound, bind, Except.bind, Except.map, pure, Except.pure, Path.ofLocation]
      using hsources.symm

/-- Discovered files lie where the path to their root leads. -/
theorem Sources.exists_lieIn_of_discover (tree : disk.IsTree)
    (hworking : disk.get? disk.workingDir = some .directory)
    (hsources : Sources.discover disk root settings = .ok sources) :
    ∃ here, sources.LieIn here := by
  obtain ⟨here, entry, hfound, rfl⟩ := Sources.exists_ofFiles_of_discover hsources
  have hhere := Disk.named_of_find tree hworking hfound
  refine ⟨here, rfl, hhere, ?_⟩
  intro path hpath
  exact exists_ofLocation_of_mem_projectFiles tree hhere (Sources.mem_listed_ofFiles.mp hpath).1

/-! ## Leading back -/

/-- A shown path leads back to a file: it is resolved to the file, and among the
files without a backslash that are searched for names it is that of the file alone. -/
structure Sources.LeadsBack (sources : Sources) (shown : String) (path : Path) : Prop where
  resolved : (sources.resolve shown).isSame path = true
  exactly : path ≠ sources.root → sources.resolve shown = path
  searched : ∀ later settings, Disk.IsTree later →
    ∀ other ∈ referenceCorpus later sources.root settings, other.IsPlainIn sources.root →
      (other.shownIn sources.root = shown ↔ other = path)

namespace Sources.LieIn

/-- Files without a backslash below the root are shown differently. -/
theorem eq_of_shown_eq {names others : List String} (hsources : sources.LieIn here)
    (hnames : ∀ name ∈ names, IsName name) (hothers : ∀ name ∈ others, IsName name)
    (hplain : (Path.ofLocation (here ++ names)).IsPlainIn sources.root)
    (hplain' : (Path.ofLocation (here ++ others)).IsPlainIn sources.root)
    (hshown : (Path.ofLocation (here ++ names)).shownIn sources.root =
      (Path.ofLocation (here ++ others)).shownIn sources.root) :
    Path.ofLocation (here ++ names) = .ofLocation (here ++ others) := by
  rw [hsources.root] at hplain hplain' hshown
  rw [Path.isPlainIn_ofLocation_iff hsources.named hnames] at hplain
  rw [Path.isPlainIn_ofLocation_iff hsources.named hothers] at hplain'
  rw [Path.shownIn_inj hsources.named hnames hothers hplain hplain' hshown]

theorem shown_inj (hsources : sources.LieIn here) (hpath : path ∈ sources.listed)
    (hother : other ∈ sources.listed) (hplain : path.IsPlainIn sources.root)
    (hplain' : other.IsPlainIn sources.root) (hshown : sources.shown path = sources.shown other) :
    path = other := by
  obtain ⟨names, hnames, rfl⟩ := hsources.lie path hpath
  obtain ⟨others, hothers, rfl⟩ := hsources.lie other hother
  exact hsources.eq_of_shown_eq hnames hothers hplain hplain' hshown

/-- What is shown of a listed file leads back to it exactly if no name of it below
the root has a backslash. -/
theorem leadsBack_shown_iff (hsources : sources.LieIn here) (hpath : path ∈ sources.listed) :
    sources.LeadsBack (sources.shown path) path ↔ path.IsPlainIn sources.root := by
  obtain ⟨names, hnames, rfl⟩ := hsources.lie path hpath
  have hplain := Path.isPlainIn_ofLocation_iff hsources.named hnames
  have hsame := Path.isSame_join_shownIn_iff hsources.named hnames
  rw [← hsources.root] at hplain hsame
  constructor
  · intro hback
    exact hplain.mpr (hsame.mp hback.resolved)
  · intro hgood
    refine ⟨hsame.mpr (hplain.mp hgood), ?_, ?_⟩
    · intro hne
      have hbelow : names ≠ [] := by
        rintro rfl
        rw [List.append_nil, hsources.root] at hne
        exact hne rfl
      exact Sources.resolve_shown hsources.root hsources.named hbelow hnames (hplain.mp hgood)
    · intro later settings tree other hother hplain'
      rw [hsources.root] at hother
      obtain ⟨others, hothers, rfl⟩ := exists_ofLocation_of_mem_projectFiles tree hsources.named
        (List.mem_of_mem_filter hother)
      constructor
      · exact hsources.eq_of_shown_eq hothers hnames hplain' hgood
      · intro hfile
        rw [hfile]
        rfl

end Sources.LieIn

/-- Scripts are searched for names themselves. -/
theorem Sources.mem_referenceCorpus_of_discover
    (hsources : Sources.discover disk root settings = .ok sources)
    (hpath : path ∈ sources.scripts) : path ∈ referenceCorpus disk sources.root settings := by
  obtain ⟨here, -, -, rfl⟩ := Sources.exists_ofFiles_of_discover hsources
  obtain ⟨hfile, hkind⟩ := List.mem_filter.mp hpath
  refine List.mem_filter.mpr ⟨hfile, ?_⟩
  rw [beq_iff_eq, FileKind.ofPath?] at hkind
  cases hending : path.extension? with
  | none => simp [hending] at hkind
  | some ending =>
    simp only [hending, Option.bind_some] at hkind
    have hscript : Path.lowerAscii ending ∈ ["js", "mjs", "cjs"] := by
      split at hkind
      · simp at hkind
      split at hkind
      · simp at hkind
      split at hkind
      · rename_i hcontains
        exact List.contains_iff_mem.mp hcontains
      · simp at hkind
    have hsearched : ["js", "mjs", "cjs"] ⊆ corpusExtensions := by decide
    exact List.contains_iff_mem.mpr (hsearched hscript)

/-- In every scan, what is shown of a file leads back to it exactly if no name of it
below the root has a backslash; such files are all shown differently. An unused
function names the path that is shown of the script that declares it, which is among
the files searched. -/
theorem shown_leadsBack_iff {scan : Scan} (tree : disk.IsTree)
    (hworking : disk.get? disk.workingDir = some .directory)
    (hscan : Scan.run disk root settings = .ok scan) :
    (∀ path ∈ scan.sources.listed,
      scan.sources.LeadsBack (scan.sources.shown path) path ↔
        path.IsPlainIn scan.sources.root) ∧
    (∀ path ∈ scan.sources.listed, ∀ other ∈ scan.sources.listed,
      path.IsPlainIn scan.sources.root → other.IsPlainIn scan.sources.root →
      scan.sources.shown path = scan.sources.shown other → path = other) ∧
    ∀ function ∈ scan.unused, ∃ path ∈ scan.sources.scripts,
      Declares disk scan.sources path function ∧
      path ∈ referenceCorpus disk scan.sources.root settings ∧
      ∃ shown, function.file = some shown ∧
        (scan.sources.LeadsBack shown path ↔ path.IsPlainIn scan.sources.root) := by
  obtain ⟨sources, hdiscover, hsources⟩ := Scan.exists_discover_of_run hscan
  obtain rfl : scan.sources = sources := by rw [hsources]; rfl
  obtain ⟨here, hsources⟩ := Sources.exists_lieIn_of_discover tree hworking hdiscover
  refine ⟨fun path hpath => hsources.leadsBack_shown_iff hpath, ?_, ?_⟩
  · intro path hpath other hother hplain hplain' hshown
    exact hsources.shown_inj hpath hother hplain hplain' hshown
  · intro function hfunction
    obtain ⟨path, hpath, hdeclares⟩ := Scan.exists_declares_of_mem_unused hscan hfunction
    have hcorpus := Sources.mem_referenceCorpus_of_discover hdiscover hpath
    refine ⟨path, hpath, hdeclares, hcorpus, scan.sources.shown path, hdeclares.file_eq, ?_⟩
    apply hsources.leadsBack_shown_iff
    simp [Sources.listed, hpath]

/-! ## Two scripts that are shown alike -/

/-- A script in a directory, and one beside the directory whose name has a backslash. -/
def twinDisk : Disk where
  entries :=
    [(["lib"], .directory), (["lib", "app.js"], .file "start();\n".toUTF8),
      (["lib\\app.js"], .file "function dead() \x7b\x7d\n".toUTF8)]

theorem twinDisk_project : twinDisk.Project (.ofLocation []) [] :=
  .ofEntries (by decide) (by decide) (by simp [twinDisk])

/-- Both scripts are listed. -/
private theorem mem_listed_twinDisk {names : List String}
    (hnames : names = ["lib", "app.js"] ∨ names = ["lib\\app.js"]) :
    .ofLocation names ∈ (Sources.ofFiles (.ofLocation []) {}
      (projectFiles twinDisk (.ofLocation []) {})).listed := by
  rw [Sources.mem_listed_ofFiles, mem_projectFiles_iff twinDisk_project]
  rcases hnames with rfl | rfl
  · exact ⟨⟨["lib", "app.js"], _, rfl, by decide +kernel, rfl⟩, by decide +kernel⟩
  · exact ⟨⟨["lib\\app.js"], _, rfl, by decide +kernel, rfl⟩, by decide +kernel⟩

/-- One path is shown for both, and it leads back to one of them. -/
theorem shown_leadsBack_iff_twins :
    ∃ scan, Scan.run twinDisk (.ofLocation []) {} = .ok scan ∧
      scan.sources.shown (.ofLocation ["lib", "app.js"]) = "lib/app.js" ∧
      scan.sources.shown (.ofLocation ["lib\\app.js"]) = "lib/app.js" ∧
      scan.sources.LeadsBack "lib/app.js" (.ofLocation ["lib", "app.js"]) ∧
      ¬ scan.sources.LeadsBack "lib/app.js" (.ofLocation ["lib\\app.js"]) := by
  have hscan : Scan.run twinDisk (.ofLocation []) {} = .ok (.ofSources twinDisk
      (.ofFiles (.ofLocation []) {} (projectFiles twinDisk (.ofLocation []) {})) {}) := by
    rw [Scan.run, discover_eq twinDisk_project]
    rfl
  have hback := (shown_leadsBack_iff twinDisk_project.tree rfl hscan).1
  have hslash : (Path.ofLocation ["lib", "app.js"]).shownIn (.ofLocation []) = "lib/app.js" := by
    decide +kernel
  have hbackslash : (Path.ofLocation ["lib\\app.js"]).shownIn (.ofLocation []) = "lib/app.js" := by
    decide +kernel
  refine ⟨_, hscan, hslash, hbackslash, ?_, ?_⟩
  · rw [← hslash]
    apply (hback _ (mem_listed_twinDisk (.inl rfl))).mpr
    show (Path.ofLocation ["lib", "app.js"]).IsPlainIn (.ofLocation [])
    decide +kernel
  · rw [← hbackslash]
    intro hleads
    have hplain := (hback _ (mem_listed_twinDisk (.inr rfl))).mp hleads
    revert hplain
    show ¬ (Path.ofLocation ["lib\\app.js"]).IsPlainIn (.ofLocation [])
    decide +kernel

end Deadwood
