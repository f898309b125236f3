/-
# Runs

A job is everything that a run is given apart from the disk. Whatever is decided
on the way, all that a run does to the disk are edits of stylesheets and of the
scripts that the candidates name, so a run leaves the disk as `Tracks` says.

A script is named by how the scan shows it. Only where the names on the way to a
script have no backslash is it sure to be found again by that, which is the
premise on the files that a run touches.
-/

import Deadwood.Proofs.Fix.Applied

namespace Deadwood.Fix

open Disk (NoNewLinks)

variable {before disk : Disk} {root path : Path} {here source : Location} {millis : Nat}

/-! ## What a run goes through -/

/-- A property of fixes in progress that lasts, whatever files of some kind are
written and whatever is noted on the way. -/
structure Plan.Keeps (plan : Plan) (Named : Path → Prop) (P : Fixing → Prop) : Prop where
  write : ∀ {fixing path} (content : String), P fixing → Named path →
    P (plan.writeFile path content fixing).2
  skip : ∀ {fixing} (fault : FileFault), P fixing →
    P { fixing with report := { fixing.report with skipped := fixing.report.skipped ++ [fault] } }
  note : ∀ {fixing} (report : Report), report.changed = fixing.report.changed →
    report.skipped = fixing.report.skipped → P fixing → P { fixing with report }

namespace Plan.Keeps

variable {Named : Path → Prop} {P : Fixing → Prop} {plan : Plan} {fixing : Fixing}

private theorem fixSheet (keeps : plan.Keeps Named P) (hfixing : P fixing) (hpath : Named path)
    (classes : List String) : P (plan.fixSheet classes fixing path) := by
  unfold Plan.fixSheet
  cases strippedSheet? fixing.disk path classes with
  | none => exact hfixing
  | some stripped => exact keeps.write stripped.2 hfixing hpath

private theorem fixSheets {scan : Scan} (keeps : plan.Keeps Named P) (hfixing : P fixing)
    (hnamed : ∀ path ∈ scan.sources.stylesheets, Named path) (classes : List String) :
    P (plan.fixSheets scan classes fixing) := by
  unfold Plan.fixSheets
  split
  · exact hfixing
  · refine keeps.note _ rfl rfl (List.foldlRecOn (motive := P) _ _ hfixing ?_)
    intro fixing hfixing path hpath
    exact keeps.fixSheet hfixing (hnamed path hpath) classes

private theorem fixScript {σ : Type} {decider : Decider σ} {sources : Sources}
    {progress : Fixing × σ} {entry : String × List Symbol} (keeps : plan.Keeps Named P)
    (hfixing : P progress.1) (hpath : Named (sources.resolve entry.1)) :
    P (plan.fixScript decider sources progress entry).1 := by
  obtain ⟨fixing, state⟩ := progress
  unfold Plan.fixScript
  dsimp only
  cases fixing.disk.loadSource (sources.resolve entry.1) with
  | error error => exact keeps.skip _ hfixing
  | ok source =>
    dsimp only
    split
    · exact hfixing
    · generalize (commentedScript source (plan.acceptFunctions decider source entry.2 state).1
        plan.stamp.iso).1 = content
      have hwritten := keeps.write content hfixing hpath
      revert hwritten
      generalize plan.writeFile (sources.resolve entry.1) content fixing = result
      intro hwritten
      obtain ⟨worked, written⟩ := result
      cases worked with
      | false => exact hwritten
      | true => exact keeps.note _ rfl rfl hwritten

/-- Such a property lasts while scripts are gone through. -/
theorem scripts {σ : Type} {decider : Decider σ} {sources : Sources} {progress : Fixing × σ}
    {entries : List (String × List Symbol)} (keeps : plan.Keeps Named P) (hfixing : P progress.1)
    (hnamed : ∀ entry ∈ entries, Named (sources.resolve entry.1)) :
    P (entries.foldl (plan.fixScript decider sources) progress).1 := by
  refine List.foldlRecOn (motive := fun progress : Fixing × σ => P progress.1) _ _ hfixing ?_
  intro progress hfixing entry hentry
  exact keeps.fixScript hfixing (hnamed entry hentry)

/-- Such a property holds behind a run if it holds before, where the files are the
stylesheets, and the scripts that have functions to go. -/
theorem apply {σ : Type} {scan : Scan} {candidates : List Candidate}
    (keeps : plan.Keeps (fun path => path ∈ scan.sources.stylesheets ∨
      ∃ entry ∈ safeByFile candidates, path = scan.sources.resolve entry.1) P)
    (hstart : P { disk, editor := { stamp := plan.stamp } }) (decider : Decider σ) (state : σ) :
    P (plan.apply decider scan candidates disk state).1 := by
  unfold Plan.apply
  refine keeps.note _ rfl rfl (keeps.scripts ?_ ?_)
  · exact keeps.fixSheets hstart (fun path hpath => .inl hpath) _
  · intro entry hentry
    exact .inr ⟨entry, hentry, rfl⟩

end Plan.Keeps

/-! ## All that a run does are edits -/

/-- What of a fix concerns the disk. -/
def Fixing.state (fixing : Fixing) : Editor × Disk :=
  (fixing.editor, fixing.disk)

theorem state_writeFile (plan : Plan) (path : Path) (content : String) (fixing : Fixing) :
    (plan.writeFile path content fixing).2.state =
      (fixing.editor.overwrite fixing.disk path content).2 := by
  unfold Plan.writeFile
  rcases fixing.editor.overwrite fixing.disk path content with ⟨_ | error, editor, disk⟩ <;> rfl

/-- All that removing does to the disk are edits of the stylesheets, and of the
scripts that have functions to go. -/
theorem edits_apply {σ : Type} (plan : Plan) (decider : Decider σ) (scan : Scan)
    (candidates : List Candidate) (disk : Disk) (state : σ) :
    Edits (fun path => path ∈ scan.sources.stylesheets ∨
        ∃ entry ∈ safeByFile candidates, path = scan.sources.resolve entry.1)
      ({ stamp := plan.stamp }, disk) (plan.apply decider scan candidates disk state).1.state := by
  have keeps : plan.Keeps (fun path => path ∈ scan.sources.stylesheets ∨
      ∃ entry ∈ safeByFile candidates, path = scan.sources.resolve entry.1) fun fixing =>
      Edits (fun path => path ∈ scan.sources.stylesheets ∨
        ∃ entry ∈ safeByFile candidates, path = scan.sources.resolve entry.1)
        ({ stamp := plan.stamp }, disk) fixing.state := by
    refine ⟨?_, fun _ edits => edits, fun _ _ _ edits => edits⟩
    intro fixing path content edits hpath
    rw [state_writeFile]
    exact .more path content edits hpath
  exact keeps.apply .none decider state

/-! ## Every backup is accounted for -/

/-- The files that a report lists as changed have backups, and whatever has a
backup is listed as changed or as skipped. -/
structure Fixing.Accounts (plan : Plan) (fixing : Fixing) : Prop where
  backedUp : ∀ path ∈ fixing.report.changed, fixing.editor.Has path
  listed : ∀ entry ∈ fixing.editor.backups,
    (∃ path ∈ fixing.report.changed, path.isSame entry.1 = true) ∨
      ∃ fault ∈ fixing.report.skipped, fault.file = entry.1.shownIn plan.root

private theorem accounts_writeFile {plan : Plan} {fixing : Fixing} (accounts : fixing.Accounts plan)
    (path : Path) (content : String) : (plan.writeFile path content fixing).2.Accounts plan := by
  obtain ⟨-, more, hmore, hentries⟩ :=
    fixing.editor.overwrite_grows fixing.disk path content
  unfold Plan.writeFile
  rcases hresult : fixing.editor.overwrite fixing.disk path content with ⟨_ | error, editor, disk⟩
  · have hpath := Editor.has_of_overwrite hresult
    rw [hresult] at hmore
    -- Whether or not the path was listed before, it is now.
    have hlisted : ∃ other ∈ if fixing.report.changed.any (·.isSame path) then fixing.report.changed
        else fixing.report.changed ++ [path], other.isSame path = true := by
      split
      · rename_i hany
        exact List.any_eq_true.mp hany
      · exact ⟨path, by simp, by simp [Path.isSame]⟩
    refine ⟨?_, ?_⟩
    · intro other hother
      have hcases : other ∈ fixing.report.changed ∨ other = path := by
        dsimp only at hother
        split at hother
        · exact .inl hother
        · simpa using hother
      rcases hcases with hold | rfl
      · exact (accounts.backedUp other hold).grow hmore
      · exact hpath
    · intro entry hentry
      rw [hmore] at hentry
      rcases List.mem_append.mp hentry with hold | hnew
      · refine (accounts.listed entry hold).imp ?_ id
        rintro ⟨other, hother, hsame⟩
        refine ⟨other, ?_, hsame⟩
        dsimp only
        split
        · exact hother
        · exact List.mem_append_left _ hother
      · left
        rwa [hentries entry hnew]
  · rw [hresult] at hmore
    refine ⟨fun other hother => (accounts.backedUp other hother).grow hmore, ?_⟩
    intro entry hentry
    rw [hmore] at hentry
    rcases List.mem_append.mp hentry with hold | hnew
    · refine (accounts.listed entry hold).imp id ?_
      rintro ⟨fault, hfault, hfile⟩
      exact ⟨fault, List.mem_append_left _ hfault, hfile⟩
    · exact .inr ⟨_, List.mem_append_right _ (List.mem_singleton_self _), by rw [hentries entry hnew]⟩

theorem accounts_apply {σ : Type} (plan : Plan) (decider : Decider σ) (scan : Scan)
    (candidates : List Candidate) (disk : Disk) (state : σ) :
    (plan.apply decider scan candidates disk state).1.Accounts plan := by
  have keeps : plan.Keeps (fun path => path ∈ scan.sources.stylesheets ∨
      ∃ entry ∈ safeByFile candidates, path = scan.sources.resolve entry.1)
      fun fixing => fixing.Accounts plan := by
    refine ⟨fun content accounts _ => accounts_writeFile accounts _ content, ?_, ?_⟩
    · intro fixing fault accounts
      refine ⟨accounts.backedUp, fun entry hentry => (accounts.listed entry hentry).imp id ?_⟩
      rintro ⟨other, hother, hfile⟩
      exact ⟨other, List.mem_append_left _ hother, hfile⟩
    · intro fixing report hchanged hskipped accounts
      refine ⟨?_, ?_⟩
      · rw [hchanged]
        exact accounts.backedUp
      · rw [hchanged, hskipped]
        exact accounts.listed
  exact keeps.apply ⟨by simp, by simp⟩ decider state

/-- The functions that go name the file they are grouped under. -/
theorem exists_candidate_of_mem_safeByFile {candidates : List Candidate}
    {entry : String × List Symbol} (hentry : entry ∈ safeByFile candidates) :
    ∃ candidate ∈ candidates, candidate.symbol.file = some entry.1 := by
  simp only [safeByFile, List.mem_map, mem_sortedNames, List.mem_filterMap, List.mem_filter] at hentry
  obtain ⟨file, ⟨symbol, ⟨candidate, ⟨hcandidate, -⟩, rfl⟩, hfile⟩, rfl⟩ := hentry
  exact ⟨candidate, hcandidate, hfile⟩

/-! ## Scans and candidates -/

/-- No name on the way to a file has a backslash. -/
def IsPlain (here source : Location) : Prop :=
  ∀ names, source = here ++ names → ∀ name ∈ names, '\\' ∉ name.toList

/-- A scan of a project and the candidates among what it found, as far as a run on a
disk depends on them. The scan lists the files that were discovered, before any link
was made that stands on the disk now, and each candidate names a script as it shows it. -/
structure FromProject (scan : Scan) (candidates : List Candidate) (disk : Disk) (root : Path)
    (here : Location) : Prop where
  discovered : ∃ earlier settings, Disk.Project earlier root here ∧ NoNewLinks earlier disk ∧
    Sources.discover earlier root settings = .ok scan.sources
  named : ∀ candidate ∈ candidates, ∃ path ∈ scan.sources.scripts,
    candidate.symbol.file = some (scan.sources.shown path)

namespace FromProject

variable {scan : Scan} {candidates : List Candidate}

/-- So is every scan of a project, with the candidates from it as they are judged at
whatever time. -/
theorem of_run {earlier : Disk} {settings : Settings} (project : earlier.Project root here)
    (links : NoNewLinks earlier disk) (hscan : Scan.run earlier root settings = .ok scan)
    (judged : Disk) (judging : Settings) :
    FromProject scan (scan.candidates judged judging) disk root here where
  discovered := by
    obtain ⟨sources, hsources, rfl⟩ := Scan.exists_discover_of_run hscan
    exact ⟨earlier, settings, project, links, hsources⟩
  named _ hcandidate :=
    Scan.exists_script_of_mem_unused hscan (Scan.symbol_mem_unused hcandidate)

theorem standIn (found : FromProject scan candidates disk root here) :
    scan.sources.StandIn here := by
  obtain ⟨earlier, settings, project, -, hsources⟩ := found.discovered
  exact Sources.standIn_of_discover project hsources

/-- What is listed stands where its path says. -/
theorem stands (found : FromProject scan candidates disk root here)
    (hpath : path ∈ scan.sources.stylesheets ∨ path ∈ scan.sources.scripts) :
    ∃ source, IsSource here source ∧ disk.Direct source ∧ path = .ofLocation source := by
  obtain ⟨earlier, settings, project, links, hsources⟩ := found.discovered
  obtain ⟨names, bytes, hfile, -, hsame, hsource⟩ := mem_discovered project hsources hpath
  exact ⟨_, hsource, links.direct (project.tree.direct hfile (by simp)), hsame⟩

/-- Every file that has functions to go is shown so by a script of the scan. -/
theorem exists_script (found : FromProject scan candidates disk root here)
    {entry : String × List Symbol} (hentry : entry ∈ safeByFile candidates) :
    ∃ path ∈ scan.sources.scripts, entry.1 = scan.sources.shown path := by
  obtain ⟨candidate, hcandidate, hfile⟩ := exists_candidate_of_mem_safeByFile hentry
  obtain ⟨path, hpath, hshown⟩ := found.named candidate hcandidate
  exact ⟨path, hpath, Option.some.inj (hfile.symm.trans hshown)⟩

/-- A plain source is found again by how it is shown. -/
theorem resolve_shown (found : FromProject scan candidates disk root here)
    (hsource : IsSource here source) (hplain : IsPlain here source) :
    scan.sources.resolve (scan.sources.shown (.ofLocation source)) = .ofLocation source := by
  obtain ⟨front, name, rfl, hnames, -⟩ := hsource
  exact Sources.resolve_shown found.standIn.root
    (fun part hpart => hnames part (List.mem_append_left _ hpart)) (by simp)
    (fun part hpart => hnames part (List.mem_append_right _ hpart)) (hplain _ rfl)

end FromProject

/-! ## Jobs -/

/-- What a run is given: how it is run, who answers its questions, what was
scanned, and which functions were found to be candidates. -/
structure Job where
  σ : Type
  plan : Plan
  decider : Decider σ
  scan : Scan
  candidates : List Candidate
  state : σ

namespace Job

/-- The disk behind a run. -/
def after (job : Job) (disk : Disk) : Disk :=
  (job.plan.run job.decider job.scan job.candidates disk job.state).2.1

/-- The editor at the end of a run. -/
def editor (job : Job) (disk : Disk) : Editor :=
  (job.plan.apply job.decider job.scan job.candidates disk job.state).1.editor

/-- What a run reports. -/
def report (job : Job) (disk : Disk) : Report :=
  (job.plan.apply job.decider job.scan job.candidates disk job.state).1.report

/-- The path by which a run edits a source: a stylesheet by its own, and a script
by what is found by how it is shown. -/
def EditsBy (job : Job) (source : Location) (path : Path) : Prop :=
  (∀ name ∈ source, Path.IsName name) ∧
    (.ofLocation source ∈ job.scan.sources.stylesheets ∧ path = .ofLocation source ∨
      .ofLocation source ∈ job.scan.sources.scripts ∧
        path = job.scan.sources.resolve (job.scan.sources.shown (.ofLocation source)))

/-- A run of a job takes a backup of a source, which it does before it writes it. -/
def Touches (job : Job) (disk : Disk) (source : Location) : Prop :=
  ∃ path, job.EditsBy source path ∧ (job.editor disk).Has path

/-- A run of a job writes a source. -/
def Rewrites (job : Job) (disk : Disk) (source : Location) : Prop :=
  ∃ path, job.EditsBy source path ∧ ∃ written ∈ (job.report disk).changed, written.isSame path = true

/-- A run of a job lists a source among those that it skips. -/
def Skips (job : Job) (disk : Disk) (source : Location) : Prop :=
  ∃ path, job.EditsBy source path ∧ ∃ written : Path, written.isSame path = true ∧
    ∃ fault ∈ (job.report disk).skipped, fault.file = written.shownIn job.plan.root

/-- A job for a project on a disk: it removes what a scan of the project found, and is
named by a number of milliseconds. -/
structure Fits (job : Job) (disk : Disk) (root : Path) (here : Location) (millis : Nat) : Prop
    extends FromProject job.scan job.candidates disk root here where
  applies : job.plan.policy ≠ .patchOnly
  stamped : job.plan.stamp.millis = toString millis

variable {job : Job}

theorem after_eq (hpolicy : job.plan.policy ≠ .patchOnly) (disk : Disk) :
    job.after disk =
      (job.plan.apply job.decider job.scan job.candidates disk job.state).1.disk := by
  rw [after, Plan.run, if_neg hpolicy]

theorem Fits.isSource (fits : job.Fits disk root here millis) (hpath : job.EditsBy source path) :
    IsSource here source := by
  obtain ⟨found, hfound, -, hsame⟩ := fits.stands (hpath.2.imp And.left And.left)
  rw [Path.ofLocation_inj hpath.1 hfound.named hsame]
  exact hfound

theorem touches_of_rewrites (hrewrites : job.Rewrites disk source) : job.Touches disk source := by
  obtain ⟨path, hpath, written, hwritten, hsame⟩ := hrewrites
  have accounts := accounts_apply job.plan job.decider job.scan job.candidates disk job.state
  obtain ⟨entry, hentry, hother⟩ := Editor.has_iff.mp (accounts.backedUp written hwritten)
  exact ⟨path, hpath, Editor.has_iff.mpr ⟨entry, hentry, Path.isSame_trans hother hsame⟩⟩

/-- A run writes all that it touches and does not skip. -/
theorem rewrites_or_skips (htouches : job.Touches disk source) :
    job.Rewrites disk source ∨ job.Skips disk source := by
  obtain ⟨path, hpath, hhas⟩ := htouches
  have accounts := accounts_apply job.plan job.decider job.scan job.candidates disk job.state
  obtain ⟨entry, hentry, hsame⟩ := Editor.has_iff.mp hhas
  refine (accounts.listed entry hentry).imp ?_ ?_
  · rintro ⟨written, hwritten, hother⟩
    exact ⟨path, hpath, written, hwritten, Path.isSame_trans hother hsame⟩
  · exact fun hskipped => ⟨path, hpath, entry.1, hsame, hskipped⟩

/-- How a run leaves a disk: each file that it touches has a backup that holds
what the file held before, and all but those files and backups is as it was. -/
structure Leaves (job : Job) (before : Disk) (root : Path) (here : Location) (millis : Nat) :
    Prop where
  project : (job.after before).Project root here
  links : NoNewLinks before (job.after before)
  isSource : ∀ source, job.Touches before source → IsSource here source
  kept : ∀ location, ¬ job.Touches before location →
    (∀ source, job.Touches before source → location ≠ backupPlace (toString millis) source) →
    (job.after before).get? location = before.get? location
  saved : ∀ source, job.Touches before source → ∃ bytes,
    before.get? source = some (.file bytes) ∧
      before.get? (backupPlace (toString millis) source) ≠ some .directory ∧
      (job.after before).get? (backupPlace (toString millis) source) = some (.file bytes)
  present : ∀ source, job.Touches before source →
    ∃ bytes, (job.after before).get? source = some (.file bytes)

/-- A path that a run edits is that of the source it means, if it is touched. -/
theorem Fits.exists_editable (fits : job.Fits before root here millis)
    (hplain : ∀ source, job.Touches before source → IsPlain here source)
    (hfree : ∀ source, job.Touches before source → ∀ target,
      before.get? (backupPlace (toString millis) source) ≠ some (.link target))
    (hpath : path ∈ job.scan.sources.stylesheets ∨
      ∃ entry ∈ safeByFile job.candidates, path = job.scan.sources.resolve entry.1)
    (hhas : (job.editor before).Has path) :
    ∃ source, IsEditable before here (toString millis) source ∧ path = .ofLocation source ∧
      job.Touches before source := by
  have hdigits := isDigits_toString millis
  have heditable : ∀ {source}, IsSource here source → before.Direct source →
      job.Touches before source → IsEditable before here (toString millis) source :=
    fun hsource hdirect htouches => hsource.isEditable hdirect (hfree _ htouches) hdigits.fitsInName
      hdigits.endsWithDigit
  rcases hpath with hsheet | ⟨entry, hentry, rfl⟩
  · obtain ⟨source, hsource, hdirect, rfl⟩ := fits.stands (.inl hsheet)
    have htouches : job.Touches before source := ⟨_, ⟨hsource.named, .inl ⟨hsheet, rfl⟩⟩, hhas⟩
    exact ⟨source, heditable hsource hdirect htouches, rfl, htouches⟩
  · obtain ⟨script, hscript, hshown⟩ := fits.exists_script hentry
    obtain ⟨source, hsource, hdirect, rfl⟩ := fits.stands (.inr hscript)
    rw [hshown] at hhas ⊢
    have htouches : job.Touches before source := ⟨_, ⟨hsource.named, .inr ⟨hscript, rfl⟩⟩, hhas⟩
    exact ⟨source, heditable hsource hdirect htouches,
      fits.resolve_shown hsource (hplain source htouches), htouches⟩

/-- A run leaves the disk like that, if no file that it touches has a backslash in
its names or a link in the place of its backup. -/
theorem leaves (project : before.Project root here) (fits : job.Fits before root here millis)
    (hplain : ∀ source, job.Touches before source → IsPlain here source)
    (hfree : ∀ source, job.Touches before source → ∀ target,
      before.get? (backupPlace (toString millis) source) ≠ some (.link target)) :
    job.Leaves before root here millis := by
  have edits := edits_apply job.plan job.decider job.scan job.candidates before job.state
  have hdigits : IsDigits job.plan.stamp.millis := fits.stamped ▸ isDigits_toString millis
  obtain ⟨hstamp, hproject, htracks⟩ := edits.tracks project hdigits fun path hpath hhas => by
    obtain ⟨source, heditable, hsame, -⟩ := fits.exists_editable hplain hfree hpath hhas
    exact ⟨source, fits.stamped ▸ heditable, hsame⟩
  have hmillis : (job.editor before).stamp.millis = toString millis :=
    (congrArg Stamp.millis hstamp).trans fits.stamped
  have htouched : ∀ source, Touched here (job.editor before) source ↔ job.Touches before source := by
    intro source
    constructor
    · rintro ⟨hsource, hhas⟩
      obtain ⟨entry, hentry, hsame⟩ := Editor.has_iff.mp hhas
      obtain ⟨other, hother, hpath, htouches⟩ := fits.exists_editable hplain hfree
        (edits.named entry hentry) (Editor.has_iff.mpr ⟨entry, hentry, by simp [Path.isSame]⟩)
      rw [hpath, Path.isSame_ofLocation_iff hother.isSource.named hsource.named] at hsame
      rwa [← hsame]
    · rintro ⟨path, hpath, hhas⟩
      have hsource := fits.isSource hpath
      refine ⟨hsource, ?_⟩
      have hplain := hplain source ⟨path, hpath, hhas⟩
      rcases hpath.2 with ⟨-, hsame⟩ | ⟨-, hsame⟩
      · rwa [hsame] at hhas
      · rwa [hsame, fits.resolve_shown hsource hplain] at hhas
  have hafter := after_eq fits.applies before
  refine ⟨by rw [hafter]; exact hproject, by rw [hafter]; exact htracks.noNewLinks,
    fun source h => ((htouched source).mpr h).1, ?_, ?_, ?_⟩
  · intro location hplace hbackup
    rw [hafter]
    refine htracks.kept location (fun h => hplace ((htouched location).mp h)) fun source h => ?_
    rw [← hmillis] at hbackup
    exact hbackup source ((htouched source).mp h)
  · intro source htouches
    rw [hafter, ← hmillis]
    exact htracks.saved source ((htouched source).mpr htouches)
  · intro source htouches
    rw [hafter]
    exact htracks.present source ((htouched source).mpr htouches)

namespace Leaves

/-- A run leaves the backups of other runs alone. -/
theorem get?_backup (leaves : job.Leaves before root here millis) {front : Location}
    {own digits : String} (hdigits : IsDigits digits) (hother : digits ≠ toString millis) :
    (job.after before).get? (front ++ [backupName own digits]) =
      before.get? (front ++ [backupName own digits]) := by
  apply leaves.kept
  · intro htouches
    exact (leaves.isSource _ htouches).ne_backupName hdigits.endsWithDigit front own rfl
  · intro source htouches hsame
    rw [← backupPlace_append_singleton] at hsame
    exact hother (backupPlace_inj hdigits (isDigits_toString millis) (by simp)
      (leaves.isSource source htouches).ne_nil hsame).2

/-- What a run does not touch stays, unless it has the name of a backup. -/
theorem get?_of_not_touches (leaves : job.Leaves before root here millis) {front : Location}
    {name : String} (hname : ¬ IsBackupName name) (hnot : ¬ job.Touches before (front ++ [name])) :
    (job.after before).get? (front ++ [name]) = before.get? (front ++ [name]) := by
  apply leaves.kept _ hnot
  intro source htouches hsame
  obtain ⟨inner, own, rfl, -, -⟩ := leaves.isSource source htouches
  rw [backupPlace_below, ← List.append_assoc] at hsame
  obtain ⟨-, hlast⟩ := List.append_inj' hsame rfl
  exact hname ⟨own, toString millis, isDigits_toString millis, List.singleton_inj.mp hlast⟩

/-- Where a run leaves a backup of its own that was not there before, it touched
the file beside it. -/
theorem touches_of_backup (leaves : job.Leaves before root here millis) {front : Location}
    {own : String} {bytes : ByteArray}
    (hbefore : before.get? (front ++ [backupName own (toString millis)]) ≠ some (.file bytes))
    (hafter : (job.after before).get? (front ++ [backupName own (toString millis)]) =
      some (.file bytes)) : job.Touches before (front ++ [own]) := by
  by_contra hnot
  apply hbefore
  rw [← hafter]
  symm
  apply leaves.kept
  · intro htouches
    exact (leaves.isSource _ htouches).ne_backupName (isDigits_toString millis).endsWithDigit
      front own rfl
  · intro source htouches hsame
    rw [← backupPlace_append_singleton] at hsame
    obtain ⟨rfl, -⟩ := backupPlace_inj (isDigits_toString millis) (isDigits_toString millis)
      (by simp) (leaves.isSource source htouches).ne_nil hsame
    exact hnot htouches

/-- A run makes no directories. -/
theorem get?_ne_directory (leaves : job.Leaves before root here millis) {location : Location}
    (hbefore : before.get? location ≠ some .directory) :
    (job.after before).get? location ≠ some .directory := by
  by_cases htouches : job.Touches before location
  · obtain ⟨bytes, hfile⟩ := leaves.present location htouches
    simp [hfile]
  · by_cases hbackup : ∃ source, job.Touches before source ∧
        location = backupPlace (toString millis) source
    · obtain ⟨source, hsource, rfl⟩ := hbackup
      obtain ⟨bytes, -, -, hfile⟩ := leaves.saved source hsource
      rw [hfile]
      simp
    · rwa [leaves.kept location htouches fun source h hsame => hbackup ⟨source, h, hsame⟩]

end Leaves

end Job

/-! ## A project with one script -/

def soloScript : String :=
  "function unused() \x7b\x7d\n"

/-- A script with a function to go, and a directory for patches. -/
def soloDisk : Disk where
  entries := [(["app.js"], .file soloScript.toUTF8), (["deadwatcher_patches"], .directory)]

theorem soloDisk_project : soloDisk.Project (.ofLocation []) [] :=
  .ofEntries (by decide) (by decide) (by simp [soloDisk])

theorem soloDisk_linkless (location : Location) (target : String) :
    soloDisk.get? location ≠ some (.link target) :=
  Disk.linkless_of_entries (by simp [soloDisk]) location target

def soloScan : Scan where
  sources := { root := .ofLocation [], scripts := [.ofLocation ["app.js"]] }

def soloFunction : Symbol :=
  .ofFunction "unused" "app.js" ⟨0, 20, 1, 1⟩

def soloCandidates : List Candidate :=
  [⟨soloFunction, .safe⟩]

theorem solo_found (links : NoNewLinks soloDisk disk) :
    FromProject soloScan soloCandidates disk (.ofLocation []) [] where
  discovered := ⟨soloDisk, {}, soloDisk_project, links, by
    rw [discover_eq soloDisk_project, projectFiles, Disk.filesBelow,
      Disk.walk_eq soloDisk_project.rooted]
    exact congrArg Except.ok (by decide +kernel)⟩
  named := by
    simp only [soloCandidates, List.mem_singleton, forall_eq]
    exact ⟨_, List.mem_singleton_self _, by decide⟩

def soloJob : Job where
  σ := Unit
  plan := ⟨.ofLocation [], {}, ⟨"100", "1970-01-01T00:00:00.100Z"⟩, .applyAll⟩
  decider := ⟨fun _ state => (.process, state), fun _ _ state => (.comment, state)⟩
  scan := soloScan
  candidates := soloCandidates
  state := ()

theorem solo_stamp : Stamp.ofMillis? 100 = some soloJob.plan.stamp := by decide

/-- Takes the function out of the script. -/
def soloRemoval : Removal :=
  .ofScript soloScan.sources soloJob.plan.stamp.iso ("app.js", [soloFunction])

theorem solo_removals : removals soloJob.plan.stamp.iso soloScan soloCandidates = [soloRemoval] := by
  have hfile : safeByFile soloCandidates = [("app.js", [soloFunction])] :=
    congrArg (List.map _) (sortedNames_singleton _)
  rw [removals, hfile]
  rfl

theorem soloRemoval_path : soloRemoval.path = .ofLocation ["app.js"] := by decide

/-- The script with its function commented out. -/
def soloProposal : Proposal where
  path := .ofLocation ["app.js"]
  old := soloScript
  new := "/* DEADWATCHER REMOVED FUNCTION: unused - 1970-01-01T00:00:00.100Z */\n" ++
    "// ORIGINAL (kept commented):\n// function unused() \x7b\x7d\n\n"

theorem soloRemoval_proposal? : soloRemoval.proposal? soloDisk = some soloProposal := by
  have hload : soloDisk.loadSource soloRemoval.path = .ok soloScript := by
    have hpath : soloRemoval.path = (Path.ofLocation []).down ["app.js"] := by decide
    rw [hpath]
    exact soloDisk_project.loadSource_down rfl (by decide +kernel)
  have hrewrite : soloRemoval.rewrite? soloScript = some soloProposal.new := by decide +kernel
  rw [Removal.proposal?, hload]
  simp only [Except.toOption, Option.bind_some, hrewrite]
  rfl

theorem soloSource_isSource : IsSource [] ["app.js"] :=
  ⟨[], "app.js", rfl, by decide, 's', by decide, by decide⟩

theorem mem_soloScan (hnames : ∀ name ∈ source, Path.IsName name)
    (hscript : .ofLocation source ∈ soloScan.sources.scripts) : source = ["app.js"] :=
  Path.ofLocation_inj hnames soloSource_isSource.named (List.mem_singleton.mp hscript)

theorem soloSource_isPlain : IsPlain [] ["app.js"] := by
  rintro names rfl
  decide

theorem soloSource_isEditable : IsEditable soloDisk [] soloJob.plan.stamp.millis ["app.js"] :=
  soloSource_isSource.isEditable (fun front _ => soloDisk_linkless front) (soloDisk_linkless _)
    (fitsInName_of_ofMillis? solo_stamp) (endsWithDigit_of_ofMillis? solo_stamp)

/-- There is room for the backup, so the script is written. -/
theorem soloJob_report : (soloJob.report soloDisk).changed = [.ofLocation ["app.js"]] ∧
    (soloJob.report soloDisk).skipped = [] := by
  have hwritten : (({ stamp := soloJob.plan.stamp } : Editor).overwrite soloDisk
      (.ofLocation ["app.js"]) soloProposal.new).1 = none := by
    apply overwrite_calm soloDisk_project rfl soloSource_isEditable
    · simp [Editor.has_iff]
    · rfl
    · exact ⟨by decide, by decide, by decide⟩
  have hprogress : (soloJob.plan.apply soloJob.decider soloScan soloCandidates soloDisk
      soloJob.state).1.progress = Progress.write ⟨soloDisk, { stamp := soloJob.plan.stamp }, [], []⟩
        soloJob.plan.root soloRemoval.path soloProposal.new := by
    refine (progress_apply rfl soloJob.decider soloScan soloCandidates soloDisk _).trans ?_
    rw [solo_removals]
    exact Progress.apply_proposal soloRemoval_proposal? _
  rw [soloRemoval_path, Progress.write] at hprogress
  rcases hresult : ({ stamp := soloJob.plan.stamp } : Editor).overwrite soloDisk
    (.ofLocation ["app.js"]) soloProposal.new with ⟨_ | error, editor, after⟩
  · rw [hresult] at hprogress
    exact ⟨congrArg Progress.changed hprogress,
      List.map_eq_nil_iff.mp (congrArg Progress.skipped hprogress)⟩
  · simp [hresult] at hwritten

theorem soloJob_fits (links : NoNewLinks soloDisk disk) :
    soloJob.Fits disk (.ofLocation []) [] 100 where
  toFromProject := solo_found links
  applies := by decide
  stamped := by decide

theorem soloJob_touches {job : Job} (hscan : job.scan = soloScan)
    (htouches : job.Touches disk source) : source = ["app.js"] := by
  obtain ⟨_, ⟨hnames, hpath⟩, -⟩ := htouches
  rw [hscan] at hpath
  rcases hpath with ⟨hsheet, -⟩ | ⟨hscript, -⟩
  · cases hsheet
  · exact mem_soloScan hnames hscript

theorem soloJob_rewrites : soloJob.Rewrites soloDisk ["app.js"] :=
  ⟨.ofLocation ["app.js"], ⟨by decide, .inr ⟨List.mem_singleton_self _, by decide⟩⟩,
    .ofLocation ["app.js"], by simp [soloJob_report], by decide⟩

end Deadwood.Fix
