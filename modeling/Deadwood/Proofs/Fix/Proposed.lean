/-
# What proposing removals comes to

A run that only proposes makes its directory when there is a first patch to write, and
writes the patches there, each under a name that is handed out for it. No patch goes
over another, on any disk, as long as no link in the directory has one of these names.
Nor does a patch go over an analysed file, for its name ends in another way, so every
file of a run is read as it was before the run. If all writes succeed, there is a patch
for each file out of which something is to be taken, in order, and each patch holds the
diff of its own file.
-/

import Deadwood.Proofs.Fix.Applied
import Deadwood.Proofs.Fix.Confined
import Mathlib.Data.List.Forall2

namespace Deadwood.Fix

open Deadwood.Path (IsName)
open Disk (Keeps)

variable {disk middle : Disk} {place : PatchPlace} {patching after : Patching} {path : Path}
  {location inner : Location} {name text : String} {done : List Proposal} {items : List Removal}

/-- The text of the patch for a proposal. -/
def Proposal.diff (proposal : Proposal) (root : Path) : String :=
  String.ofList (Text.lineDiff (proposal.path.shownIn root).toList proposal.old.toList
    proposal.new.toList)

/-! ## Names for many files -/

/-- The names for the patches of some files, one after the other, and how often each
has been asked for by then. -/
def PatchPlace.handOut (place : PatchPlace) (targets : List Path) :
    List String × List (String × Nat) :=
  targets.foldl (fun (handed, names) target =>
    let (name, names) := place.patchName names target
    (handed ++ [name], names)) ([], [])

theorem PatchPlace.handOut_concat (place : PatchPlace) (targets : List Path) (target : Path) :
    place.handOut (targets ++ [target]) =
      ((place.handOut targets).1 ++ [(place.patchName (place.handOut targets).2 target).1],
        (place.patchName (place.handOut targets).2 target).2) := by
  rw [handOut, List.foldl_append]
  rfl

/-- The name of an analysed file ends as code does. -/
theorem endsAsCode_baseName (hkind : (FileKind.ofPath? path).isSome = true) :
    EndsAsCode path.baseName := by
  obtain ⟨kind, hkind⟩ := Option.isSome_iff_exists.mp hkind
  obtain ⟨ending, hextension, -⟩ := Option.bind_eq_some_iff.mp hkind
  obtain ⟨name, hname, -⟩ := Option.bind_eq_some_iff.mp hextension
  rw [Path.baseName, hname]
  exact endsAsCode_of_kind hkind hname

/-! ## Where names lead -/

theorem leadsInto_of_confined (confined : Confined place disk middle)
    (hleads : disk.LeadsInto path inner) : middle.LeadsInto path inner := by
  rw [Disk.LeadsInto, confined.working]
  exact Disk.lookUp_directory_of_keeps id confined.keeps hleads

theorem PatchPlace.Unlinked.before {last : Disk} (hunlinked : place.Unlinked disk last)
    (later : Confined place middle last) : place.Unlinked disk middle :=
  fun inner name target hleads hown =>
    hunlinked inner name target (leadsInto_of_confined later hleads) hown

/-- A file of the run has a text. -/
structure PatchPlace.Holds (place : PatchPlace) (disk : Disk) (name text : String) : Prop where
  own : place.IsOwn name
  isName : IsName name
  found : ∃ location, disk.find (place.directory.join ⟨name⟩) = .ok (location, .file text.toUTF8)

namespace PatchPlace.Holds

/-- Without links the file stands in the directory under its name. -/
theorem exists_place (holds : place.Holds middle name text) (confined : Confined place disk middle)
    (hunlinked : place.Unlinked disk middle) :
    ∃ inner, middle.LeadsInto place.directory inner ∧
      middle.find (place.directory.join ⟨name⟩) = .ok (inner ++ [name], .file text.toUTF8) := by
  obtain ⟨location, hfind⟩ := holds.found
  obtain ⟨inner, hleads, rfl | ⟨target, hlink⟩⟩ := Disk.exists_leadsInto_of_find holds.isName hfind
  · exact ⟨inner, hleads, hfind⟩
  · exact absurd (confined.get?_link hlink) (hunlinked inner name target hleads holds.own)

theorem kept {later : Disk} (holds : place.Holds disk name text) (hkeeps : Keeps disk later)
    (hworking : later.workingDir = disk.workingDir)
    (hsame : ∀ location,
      disk.find (place.directory.join ⟨name⟩) = .ok (location, .file text.toUTF8) →
      later.get? location = disk.get? location) : place.Holds later name text := by
  obtain ⟨location, hfind⟩ := holds.found
  refine ⟨holds.own, holds.isName, location, Disk.find_eq_ok_iff_place.mpr ?_⟩
  refine hkeeps.place_file hworking (Disk.find_eq_ok_iff_place.mp hfind) ?_
  rw [hsame location hfind]
  exact (Disk.get?_of_find_file hfind).2

end PatchPlace.Holds

theorem ensureDirectory_spec (hmade : place.ensureDirectory patching = (none, after)) :
    after.names = patching.names ∧ after.written = patching.written ∧
      patching.disk.Grown after.disk := by
  unfold PatchPlace.ensureDirectory at hmade
  split at hmade
  · obtain rfl : patching = after := by simpa using hmade
    exact ⟨rfl, rfl, .refl _⟩
  · have grown := Disk.grown_makePath patching.disk place.directory
    split at hmade
    · rename_i made hpath
      obtain rfl := (Prod.mk.inj hmade).2
      rw [hpath] at grown
      exact ⟨rfl, rfl, grown⟩
    · simp at hmade

/-- What is written under a name is held there, and all other files of the run keep
their texts. -/
theorem holds_writeInto (hwritten : place.writeInto patching name text = (none, after))
    (confined : Confined place disk patching.disk) (hown : place.IsOwn name) (hname : IsName name)
    (hunlinked : place.Unlinked disk after.disk) :
    after = { patching with disk := after.disk } ∧ place.Holds after.disk name text ∧
      ∀ other held, other ≠ name → place.Holds patching.disk other held →
        place.Holds after.disk other held := by
  have hstep := Confined.writeInto hown hname patching text
  rw [hwritten] at hstep
  unfold PatchPlace.writeInto at hwritten
  rcases patching.disk.write_cases (place.directory.join ⟨name⟩) text.toUTF8 with
    ⟨error, failed, hwrite, -⟩ | ⟨location, stored, hwrite, htarget, hstored⟩
  · rw [hwrite] at hwritten
    simp at hwritten
  · rw [hwrite] at hwritten
    obtain rfl : { patching with disk := stored } = after := by simpa using hwritten
    have hnew : place.Holds stored name text := ⟨hown, hname, location, hstored.find htarget⟩
    refine ⟨rfl, hnew, fun other held hother holds => ?_⟩
    refine holds.kept (hstored.keeps htarget) hstored.workingDir fun spot hspot => ?_
    obtain ⟨inner, hleads, hfind⟩ := hnew.exists_place (confined.trans hstep) hunlinked
    obtain ⟨inner', hleads', hfind'⟩ := holds.exists_place confined (hunlinked.before hstep)
    -- Both names are looked up in the same directory.
    obtain rfl : inner' = inner := by
      simpa using (leadsInto_of_confined hstep hleads').symm.trans hleads
    obtain rfl : inner' ++ [other] = spot := by simpa using hfind'.symm.trans hspot
    obtain rfl : inner' ++ [name] = location := by
      simpa using hfind.symm.trans (hstored.find htarget)
    rw [hstored.get? (by simp), if_neg (by simpa using hother)]

/-! ## One patch after the other -/

/-- The patches for some proposals have been written, each under the name that was
handed out for it. -/
structure Filed (place : PatchPlace) (done : List Proposal) (patching : Patching) : Prop where
  names : patching.names = (place.handOut (done.map (·.path))).2
  patches : patching.written.patches =
    (place.handOut (done.map (·.path))).1.map (place.directory.join ⟨·⟩)
  files : patching.written.suggestions.map (·.file) = done.map (·.path.shownIn place.root)
  shown : patching.written.suggestions.map (·.patch) =
    patching.written.patches.map (·.shownIn place.root)
  held : List.Forall₂ (fun name proposal => Issued patching.names name ∧
      place.Holds patching.disk name (proposal.diff place.root))
    (place.handOut (done.map (·.path))).1 done

namespace Filed

theorem start (place : PatchPlace) (disk : Disk) : Filed place [] { disk } :=
  ⟨rfl, rfl, rfl, rfl, .nil⟩

theorem ensureDirectory (filed : Filed place done patching)
    (hmade : place.ensureDirectory patching = (none, after)) : Filed place done after := by
  obtain ⟨hnames, hwritten, grown⟩ := ensureDirectory_spec hmade
  refine ⟨hnames ▸ filed.names, hwritten ▸ filed.patches, hwritten ▸ filed.files,
    hwritten ▸ filed.shown, filed.held.imp ?_⟩
  rintro name proposal ⟨hissued, holds⟩
  refine ⟨hnames ▸ hissued, ?_⟩
  refine holds.kept grown.keeps grown.working fun location hfind => ?_
  have hfile := (Disk.get?_of_find_file hfind).2
  rw [grown.get? hfile, hfile]

/-- A patch more. -/
theorem emit (hmillis : FitsInName place.stamp.millis)
    (confined : Confined place disk patching.disk) (filed : Filed place done patching)
    {proposal : Proposal} (hends : EndsAsCode proposal.path.baseName)
    (hbase : FitsInName proposal.path.baseName) {kind : PatchKind}
    (hemit : place.emit kind proposal.path proposal.old proposal.new patching = (none, after))
    (hunlinked : place.Unlinked disk after.disk) : Filed place (done ++ [proposal]) after := by
  unfold PatchPlace.emit at hemit
  rcases hmade : place.ensureDirectory patching with ⟨_ | error, made⟩
  · rw [hmade] at hemit
    dsimp only at hemit
    have hconfined := Confined.ensureDirectory place patching
    rw [hmade] at hconfined
    have hready := filed.ensureDirectory hmade
    have hstem : FitsInName (place.stem proposal.path) := (hmillis.append (by decide)).append hbase
    have hown := PatchPlace.IsOwn.patchName place made.names proposal.path
    have hname : IsName (place.patchName made.names proposal.path).1 := isName_numbered hstem _
    have hfresh := place.not_issued_patchName made.names hends
    have hissued := place.issued_patchName made.names hends
    have hstill := fun other (hother : Issued made.names other) =>
      place.issued_of_issued hother proposal.path
    have hhanded := place.handOut_concat (done.map (·.path)) proposal.path
    rw [← hready.names] at hhanded
    rcases hnaming : place.patchName made.names proposal.path with ⟨name, names⟩
    rw [hnaming] at hemit hown hname hfresh hissued hstill hhanded
    dsimp only at hemit hown hname hfresh hissued hstill hhanded
    rcases hstored : place.writeInto { made with names } name (proposal.diff place.root) with
      ⟨_ | error, stored⟩
    · rw [← Proposal.diff, hstored] at hemit
      obtain rfl := (Prod.mk.inj hemit).2
      obtain ⟨hsame, hnew, hothers⟩ :=
        holds_writeInto hstored (confined.trans hconfined) hown hname hunlinked
      have hwritten : stored.written = made.written := by rw [hsame]
      have hnames : stored.names = names := by rw [hsame]
      have hall : (done ++ [proposal]).map (·.path) = done.map (·.path) ++ [proposal.path] := by simp
      refine ⟨?_, ?_, ?_, ?_, ?_⟩
      · rw [hall, hhanded]
        exact hnames
      · simp [hall, hhanded, hwritten, hready.patches]
      · simp [hwritten, hready.files]
      · simp [hwritten, hready.shown]
      · dsimp only
        rw [hall, hhanded, hnames]
        refine List.rel_append (hready.held.imp ?_) (.cons ⟨hissued, hnew⟩ .nil)
        rintro other earlier ⟨hother, holds⟩
        refine ⟨hstill other hother, hothers other _ ?_ holds⟩
        rintro rfl
        exact hfresh hother
    · rw [← Proposal.diff, hstored] at hemit
      simp at hemit
  · simp [hmade] at hemit

/-- The manifest goes over no patch. -/
theorem emitManifest (hmillis : FitsInName place.stamp.millis)
    (confined : Confined place disk patching.disk) (filed : Filed place done patching)
    (hemit : place.emitManifest patching = (none, after))
    (hunlinked : place.Unlinked disk after.disk) : Filed place done after := by
  unfold PatchPlace.emitManifest at hemit
  split at hemit
  · obtain rfl : patching = after := by simpa using hemit
    exact filed
  rcases hmade : place.ensureDirectory patching with ⟨_ | error, made⟩
  · rw [hmade] at hemit
    dsimp only at hemit
    have hconfined := Confined.ensureDirectory place patching
    rw [hmade] at hconfined
    have hready := filed.ensureDirectory hmade
    generalize (Manifest.mk place.stamp.millis made.written.suggestions).toJson.toPretty = text
      at hemit
    rcases hstored : place.writeInto made place.manifestName text with ⟨_ | error, stored⟩
    · rw [hstored] at hemit
      obtain rfl := (Prod.mk.inj hemit).2
      obtain ⟨hsame, -, hothers⟩ := holds_writeInto hstored (confined.trans hconfined)
        (.manifestName place) (place.isName_manifestName hmillis) hunlinked
      have hwritten : stored.written = made.written := by rw [hsame]
      have hnames : stored.names = made.names := by rw [hsame]
      refine ⟨hnames ▸ hready.names, hwritten ▸ hready.patches, hwritten ▸ hready.files,
        hwritten ▸ hready.shown, hready.held.imp ?_⟩
      rintro name proposal ⟨hissued, holds⟩
      refine ⟨hnames ▸ hissued, hothers name _ ?_ holds⟩
      rintro rfl
      exact place.not_issued_manifestName _ hissued
    · simp [hstored] at hemit
  · simp [hmade] at hemit

end Filed

/-! ## A run -/

/-- A removal from an analysed file that is read as before, whatever a run has
written by then. -/
structure Removal.Steady (place : PatchPlace) (disk : Disk) (removal : Removal) : Prop where
  ends : EndsAsCode removal.path.baseName
  same : ∀ {middle : Disk}, Confined place disk middle → place.Unlinked disk middle →
    removal.proposal? middle = removal.proposal? disk

namespace Removal.Steady

variable {removal : Removal}

/-- So are files that no link at the end of their paths leads to. -/
theorem of_place (hkind : (FileKind.ofPath? removal.path).isSome = true) {bytes : ByteArray}
    (hplace : disk.place removal.path false = .ok (.found location (.file bytes))) :
    removal.Steady place disk where
  ends := endsAsCode_baseName hkind
  same := by
    intro middle confined hunlinked
    have hagain := confined.place_file hunlinked hkind hplace
    rw [Removal.proposal?, Removal.proposal?, Disk.loadSource, Disk.loadSource,
      Disk.find_of_place_file hplace, Disk.find_of_place_file hagain]

/-- So are all in a project that no link leads to, those that are missing included. -/
theorem of_project {root : Path} {here source : Location} (project : disk.Project root here)
    (hsource : IsSource here source) (hdirect : disk.Direct source)
    (hpath : removal.path = .ofLocation source) : removal.Steady place disk := by
  obtain ⟨front, name, rfl, hnames, hends⟩ := id hsource
  have hparts : ∀ part ∈ front ++ [name], IsName part := fun part hpart =>
    hnames part (List.mem_append_right _ hpart)
  have hbelow := Path.isBelow_ofLocation (by simp) project.named_here hparts
  refine ⟨?_, fun {middle} confined hunlinked => ?_⟩
  · rw [hpath, Path.baseName, hbelow.name? (hparts name (by simp))]
    exact hends
  have hsame : ∀ bytes, middle.get? (here ++ (front ++ [name])) = some (.file bytes) ↔
      disk.get? (here ++ (front ++ [name])) = some (.file bytes) := by
    intro bytes
    rw [← List.append_assoc]
    exact confined.get?_of_not_isOwn hunlinked fun hown => hown.not_endsAsCode hends
  have hstill : middle.Direct (here ++ (front ++ [name])) :=
    Disk.NoNewLinks.direct (fun _ _ => confined.get?_link) hdirect
  obtain ⟨links, hplace⟩ := Disk.place_below
    (confined.keeps.find_directory confined.working project.canonical.rooted) hbelow (by simp) hparts
  rw [Removal.proposal?, Removal.proposal?, hpath]
  refine congrArg (Option.bind · _) (loadSource_congr_find fun location bytes => ?_)
  rw [find_source project hsource hdirect, ← hsame]
  constructor
  · intro hfind
    have hfound := Disk.find_eq_ok_iff_place.mp hfind
    rw [hplace] at hfound
    have hhere := confined.keeps _ _ project.directory (by simp)
    rcases Disk.place_of_lookUp_names hhere hstill hparts hfound with
      ⟨entry, hspot, hentry⟩ | ⟨hspot, -⟩
    · obtain ⟨rfl, rfl⟩ := Disk.Place.found.inj hspot
      exact ⟨rfl, hentry⟩
    · cases hspot
  · rintro ⟨rfl, hfile⟩
    have hfind := (find_source project hsource hdirect).mpr ⟨rfl, (hsame bytes).mp hfile⟩
    exact Disk.find_eq_ok_iff_place.mpr
      (confined.keeps.place_file confined.working (Disk.find_eq_ok_iff_place.mp hfind) hfile)

end Removal.Steady

/-- The removals that a run goes through become patches, of the files as they were
before. -/
theorem Filed.each (hmillis : FitsInName place.stamp.millis)
    (hsteady : ∀ removal ∈ items, removal.Steady place disk)
    (confined : Confined place disk patching.disk) (filed : Filed place done patching)
    (heach : Patching.each place.patch items patching = (none, after))
    (hunlinked : place.Unlinked disk after.disk) :
    Filed place (done ++ items.filterMap (·.proposal? disk)) after := by
  induction items generalizing done patching with
  | nil =>
    obtain rfl : patching = after := by simpa [Patching.each] using heach
    simpa using filed
  | cons removal items ih =>
    obtain ⟨hends, hsame⟩ := hsteady removal List.mem_cons_self
    have hsteady := fun other hother => hsteady other (List.mem_cons_of_mem _ hother)
    have hlater := Confined.each (Confined.patch hmillis) (removal :: items) patching
    rw [heach] at hlater
    have hproposal := hsame confined (hunlinked.before hlater)
    rw [Patching.each, PatchPlace.patch, hproposal] at heach
    rw [List.filterMap_cons]
    cases hown : removal.proposal? disk with
    | none =>
      rw [hown] at heach
      exact ih hsteady confined filed heach
    | some proposal =>
      rw [hown] at heach
      dsimp only at heach
      rcases hemit : place.emit removal.kind proposal.path proposal.old proposal.new patching with
        ⟨_ | error, emitted⟩
      · rw [hemit] at heach
        dsimp only at heach
        obtain ⟨source, hload, -⟩ := Option.bind_eq_some_iff.mp hown
        have hbase : FitsInName proposal.path.baseName := by
          rw [Removal.path_of_proposal? hown]
          exact fitsInName_baseName (Confined.noZero_of_loadSource hload)
        have hstep := Confined.emit hmillis hbase removal.kind proposal.old proposal.new patching
        rw [hemit] at hstep
        have hrest := Confined.each (Confined.patch hmillis) items emitted
        rw [heach] at hrest
        rw [← Removal.path_of_proposal? hown] at hends
        have hmore := ih hsteady (confined.trans hstep)
          (filed.emit hmillis confined hends hbase hemit (hunlinked.before hrest)) heach
        rwa [List.append_assoc, List.singleton_append] at hmore
      · simp [hemit] at heach

theorem filed_of_propose (hmillis : FitsInName place.stamp.millis) {scan : Scan}
    {candidates : List Candidate}
    (hsteady : ∀ removal ∈ removals place.stamp.iso scan candidates, removal.Steady place disk)
    (hproposed : propose place scan candidates disk = (none, patching))
    (hunlinked : place.Unlinked disk patching.disk) :
    Filed place ((removals place.stamp.iso scan candidates).filterMap (·.proposal? disk))
      patching := by
  rw [propose_eq] at hproposed
  have hpatches := Confined.each (Confined.patch hmillis) (removals place.stamp.iso scan candidates)
    { disk }
  rcases heach : Patching.each place.patch (removals place.stamp.iso scan candidates) { disk } with
    ⟨_ | error, last⟩
  · rw [heach] at hproposed hpatches
    dsimp only at hproposed
    have hmanifest := Confined.emitManifest hmillis last
    rw [hproposed] at hmanifest
    have filed := Filed.each hmillis hsteady (.of_alike (.refl disk)) (.start place disk) heach
      (hunlinked.before hmanifest)
    exact filed.emitManifest hmillis hpatches hproposed hunlinked
  · simp [heach] at hproposed

theorem Filed.diffs (filed : Filed place done patching) :
    List.Forall₂ (fun patch proposal =>
      patching.disk.readText? patch = some (proposal.diff place.root))
      patching.written.patches done := by
  rw [filed.patches, List.forall₂_map_left_iff]
  refine filed.held.imp ?_
  rintro name proposal ⟨-, holds⟩
  obtain ⟨location, hfind⟩ := holds.found
  exact readText?_of_find hfind

/-! ## Room for patches -/

/-- The directory of the patches has been made, on a calm disk. -/
structure Ready (place : PatchPlace) (inner : Location) (patching : Patching) : Prop where
  ready : patching.ready = true
  directory : patching.disk.Project place.directory inner
  calm : patching.disk.Calm

namespace Ready

theorem ensureDirectory (ready : Ready place inner patching) :
    place.ensureDirectory patching = (none, patching) := by
  simp [PatchPlace.ensureDirectory, ready.ready]

/-- Whatever fits can be written into the directory under a new name. -/
theorem exists_writeInto (ready : Ready place inner patching) (hname : Disk.FitsName name)
    (hfree : patching.disk.get? (inner ++ [name]) = none) (content : String) :
    ∃ after, place.writeInto patching name content = (none, after) ∧ Ready place inner after ∧
      after.names = patching.names ∧ ∀ other, other ≠ name →
        after.disk.get? (inner ++ [other]) = patching.disk.get? (inner ++ [other]) := by
  have hnames : ∀ part ∈ [name], IsName part := by simpa using hname.1
  have hbelow : Path.IsBelow (place.directory.join ⟨name⟩) place.directory [name] := by
    have hbelow := Path.isBelow_join rfl (List.append_nil _).symm ready.directory.noZero_root hname.1
    rwa [List.nil_append] at hbelow
  have hhold : patching.disk.CanHold (inner ++ [name]) :=
    ⟨by simpa using ready.directory.directory, by simpa using hname.2, by simp [hfree]⟩
  have hdirect : patching.disk.Direct (inner ++ [name]) := Disk.direct_concat_iff.mpr
    ⟨ready.directory.tree.direct ready.directory.directory (by simp), by simp [hfree]⟩
  have hwrite := ready.calm.write ((ready.directory.target_eq_ok_iff hbelow (List.cons_ne_nil _ _)
    hnames hdirect).mpr ⟨rfl, hhold⟩) content.toUTF8
  have hstored : Disk.Stored patching.disk (inner ++ [name]) content.toUTF8
      (patching.disk.put (inner ++ [name]) (.file content.toUTF8)) := ⟨_, .refl _, rfl⟩
  refine ⟨{ patching with disk := patching.disk.put (inner ++ [name]) (.file content.toUTF8) },
    by simp only [PatchPlace.writeInto, hwrite, Option.map_none],
    ⟨ready.ready, ready.directory.stored hnames hdirect hhold hstored, ready.calm⟩, rfl, ?_⟩
  intro other hother
  rw [hstored.get? (by simp), if_neg (by simpa using hother)]

/-- A patch goes into the directory if its name fits. -/
theorem exists_emit (ready : Ready place inner patching) {target : Path}
    {names : List (String × Nat)}
    (hnaming : place.patchName patching.names target = (name, names)) (hname : Disk.FitsName name)
    (hfree : patching.disk.get? (inner ++ [name]) = none) (kind : PatchKind)
    (old new : String) :
    ∃ after, place.emit kind target old new patching = (none, after) ∧ Ready place inner after ∧
      after.names = names ∧ ∀ other, other ≠ name →
        after.disk.get? (inner ++ [other]) = patching.disk.get? (inner ++ [other]) := by
  have hnamed : Ready place inner { patching with names } :=
    ⟨ready.ready, ready.directory, ready.calm⟩
  obtain ⟨stored, hstored, hready, hnames, hothers⟩ := hnamed.exists_writeInto hname hfree
    (Proposal.diff ⟨target, old, new⟩ place.root)
  rw [Proposal.diff] at hstored
  rw [PatchPlace.emit, ready.ensureDirectory]
  dsimp only
  rw [hnaming]
  dsimp only
  rw [hstored]
  exact ⟨_, rfl, ⟨hready.ready, hready.directory, hready.calm⟩, hnames, hothers⟩

theorem exists_emitManifest (ready : Ready place inner patching)
    (hname : Disk.FitsName place.manifestName)
    (hfree : patching.disk.get? (inner ++ [place.manifestName]) = none) :
    ∃ after, place.emitManifest patching = (none, after) := by
  rw [PatchPlace.emitManifest]
  split
  · exact ⟨_, rfl⟩
  rw [ready.ensureDirectory]
  dsimp only
  obtain ⟨stored, hstored, -⟩ := ready.exists_writeInto hname hfree
    (Manifest.mk place.stamp.millis patching.written.suggestions).toJson.toPretty
  rw [hstored]
  exact ⟨_, rfl⟩

end Ready

/-- A run that finds the directory starts as one that has made it. -/
theorem PatchPlace.emit_of_ready (ready : Ready place inner { disk, ready := true })
    (kind : PatchKind) (target : Path) (old new : String) :
    place.emit kind target old new { disk } =
      place.emit kind target old new { disk, ready := true } := by
  simp [PatchPlace.emit, PatchPlace.ensureDirectory, Disk.makePath_eq_self ready.directory.rooted]

end Deadwood.Fix
