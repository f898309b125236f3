/-
# Back to the first recorded state

Runs may follow each other for as long as one likes, each later than those before,
and files may come, change and go in between. All that such a history must keep to
is that nobody but a run meddles with backups. Then a backup on the disk stands for
a run of the history that touched the file beside it, and holds what the file held
before that run. Reverting everything copies the latest backups first, so each file
ends as it was before the first run that touched it.

A run touches a file by taking a backup of it, which it does before it writes it.
What it touches it also rewrites, unless the write fails and the file is reported as
skipped. Links may stand anywhere in a project but under the names of backups, and
none is made on the way.
-/

import Deadwood.Proofs.Age
import Deadwood.Proofs.RoundTrip

namespace Deadwood

open Deadwood.Fix
open Deadwood.Revert (IsReachable Stands)
open Disk (NoNewLinks)

variable {first disk next last : Disk} {root : Path} {here location source : Location}

/-! ## Histories -/

/-- A change to a project that makes no links and leaves its backups alone. -/
structure Edited (root : Path) (here : Location) (disk next : Disk) : Prop where
  project : next.Project root here
  links : NoNewLinks disk next
  backups : ∀ front name, ReadsAsBackup name →
    next.get? (here ++ (front ++ [name])) = disk.get? (here ++ (front ++ [name]))

/-- Writing a file that is no backup is such a change. -/
theorem Edited.write (project : disk.Project root here) {front : List String} {name : String}
    (hnames : ∀ part ∈ front ++ [name], Path.IsName part) (hname : ¬ ReadsAsBackup name)
    (hdirect : disk.Direct (here ++ (front ++ [name])))
    (hhold : disk.CanHold (here ++ (front ++ [name]))) (bytes : ByteArray) :
    Edited root here disk (disk.put (here ++ (front ++ [name])) (.file bytes)) where
  project := project.stored hnames hdirect hhold ⟨disk, .refl disk, rfl⟩
  links := Disk.Stored.noNewLinks ⟨disk, .refl disk, rfl⟩ (by simp)
  backups := by
    intro inner other hother
    apply Disk.get?_put_of_ne (by simp)
    intro hsame
    obtain ⟨-, hlast⟩ := List.append_inj' (List.append_cancel_left hsame) rfl
    rw [List.singleton_inj.mp hlast] at hother
    exact hname hother

/-- A run that took place. -/
structure PastRun where
  before : Disk
  job : Job
  millis : Nat

namespace PastRun

/-- The run took a backup of a file, which it does before it writes it. -/
def Touches (run : PastRun) (source : Location) : Prop :=
  run.job.Touches run.before source

/-- The run wrote a file. -/
def Rewrites (run : PastRun) (source : Location) : Prop :=
  run.job.Rewrites run.before source

/-- The run reported a file as skipped. -/
def Skips (run : PastRun) (source : Location) : Prop :=
  run.job.Skips run.before source

/-- The disk behind the run. -/
def after (run : PastRun) : Disk :=
  run.job.after run.before

end PastRun

/-- A project with no backups, and no links under their names. -/
structure Untouched (root : Path) (here : Location) (disk : Disk) : Prop where
  project : disk.Project root here
  fresh : ∀ front name entry, entry ≠ .directory → ReadsAsBackup name →
    disk.get? (here ++ (front ++ [name])) ≠ some entry

/-- How a disk came about: the runs that took place, the first one first. The files
that a run touches have no backslash in their names and can be reached when
reverting. -/
inductive History (root : Path) (here : Location) (first : Disk) : List PastRun → Disk → Prop
  | start : History root here first [] first
  | edit {runs : List PastRun} {disk next : Disk} (earlier : History root here first runs disk)
      (edited : Edited root here disk next) : History root here first runs next
  | run {runs : List PastRun} (run : PastRun) (earlier : History root here first runs run.before)
      (fits : run.job.Fits run.before root here run.millis)
      (later : ∀ other ∈ runs, other.millis < run.millis)
      (plain : ∀ source, run.Touches source → IsPlain here source)
      (reachable : ∀ source, run.Touches source → IsReachable here source) :
      History root here first (runs ++ [run]) run.after

/-! ## What the backups record -/

/-- The backups on a disk are those of the runs of a history, and hold what these
found. -/
structure Recorded (root : Path) (here : Location) (runs : List PastRun) (disk : Disk) : Prop where
  project : disk.Project root here
  unlinked : ∀ front name target, ReadsAsBackup name →
    disk.get? (here ++ (front ++ [name])) ≠ some (.link target)
  ordered : runs.Pairwise fun run other => run.millis < other.millis
  isSource : ∀ run ∈ runs, ∀ source, run.Touches source → IsSource here source ∧
    IsReachable here source ∧ ∀ target, disk.get? source ≠ some (.link target)
  saved : ∀ run ∈ runs, ∀ source, run.Touches source → ∃ bytes,
    run.before.get? source = some (.file bytes) ∧
      disk.get? (backupPlace (toString run.millis) source) = some (.file bytes)
  accounted : ∀ front own digits bytes, ReadsAsBackup (backupName own digits) →
    IsDigits digits → disk.get? (here ++ (front ++ [backupName own digits])) = some (.file bytes) →
    ∃ run ∈ runs, digits = toString run.millis ∧ run.Touches (here ++ (front ++ [own]))

/-- The name of the backup of a file that can be reached is read as such. -/
private theorem readsAsBackup_of_reachable {front : List String} {name digits : String}
    (hsource : IsSource here (here ++ (front ++ [name])))
    (hreachable : IsReachable here (here ++ (front ++ [name]))) (hdigits : IsDigits digits) :
    ReadsAsBackup (backupName name digits) := by
  refine readsAsBackup_iff.mpr ⟨name, digits, ?_, ?_, hdigits, rfl⟩
  · exact (hsource.named name (by simp)).notEmpty
  · exact (hreachable _ rfl).1 name (by simp)

namespace Recorded

variable {runs : List PastRun}

theorem start (untouched : Untouched root here first) : Recorded root here [] first where
  project := untouched.project
  unlinked front name target := untouched.fresh front name (.link target) (by simp)
  ordered := .nil
  isSource := by simp
  saved := by simp
  accounted := by
    intro front own digits bytes hreads hdigits hfile
    exact absurd hfile (untouched.fresh front _ (.file bytes) (by simp) hreads)

theorem edit (recorded : Recorded root here runs disk) (edited : Edited root here disk next) :
    Recorded root here runs next where
  project := edited.project
  unlinked front name target hname hlink :=
    recorded.unlinked front name target hname (edited.links _ _ hlink)
  ordered := recorded.ordered
  isSource := by
    intro run hrun source htouches
    obtain ⟨hsource, hreachable, hfree⟩ := recorded.isSource run hrun source htouches
    exact ⟨hsource, hreachable, fun target hlink => hfree target (edited.links _ _ hlink)⟩
  saved := by
    intro run hrun source htouches
    obtain ⟨hsource, hreachable, -⟩ := recorded.isSource run hrun source htouches
    obtain ⟨bytes, hbefore, hsaved⟩ := recorded.saved run hrun source htouches
    refine ⟨bytes, hbefore, ?_⟩
    obtain ⟨front, name, rfl, -, -⟩ := id hsource
    rw [backupPlace_below] at hsaved ⊢
    rw [edited.backups front _
      (readsAsBackup_of_reachable hsource hreachable (isDigits_toString run.millis)), hsaved]
  accounted := by
    intro front own digits bytes hreads hdigits hfile
    rw [edited.backups front _ hreads] at hfile
    exact recorded.accounted front own digits bytes hreads hdigits hfile

theorem run {run : PastRun} (recorded : Recorded root here runs run.before)
    (leaves : run.job.Leaves run.before root here run.millis)
    (hlater : ∀ other ∈ runs, other.millis < run.millis)
    (hreachable : ∀ source, run.Touches source → IsReachable here source) :
    Recorded root here (runs ++ [run]) run.after where
  project := leaves.project
  unlinked front name target hname hlink :=
    recorded.unlinked front name target hname (leaves.links _ _ hlink)
  ordered := by
    refine List.pairwise_append.mpr ⟨recorded.ordered, List.pairwise_singleton _ _, ?_⟩
    intro other hother new hnew
    rw [List.mem_singleton.mp hnew]
    exact hlater other hother
  isSource := by
    intro other hother source htouches
    rcases List.mem_append.mp hother with hold | hnew
    · obtain ⟨hsource, hreachable, hfree⟩ := recorded.isSource other hold source htouches
      exact ⟨hsource, hreachable, fun target hlink => hfree target (leaves.links _ _ hlink)⟩
    · obtain rfl := List.mem_singleton.mp hnew
      obtain ⟨bytes, hpresent⟩ := leaves.present source htouches
      refine ⟨leaves.isSource source htouches, hreachable source htouches, fun target hlink => ?_⟩
      cases hpresent.symm.trans hlink
  saved := by
    intro other hother source htouches
    rcases List.mem_append.mp hother with hold | hnew
    · obtain ⟨bytes, hbefore, hsaved⟩ := recorded.saved other hold source htouches
      obtain ⟨front, name, rfl, -, -⟩ := (recorded.isSource other hold source htouches).1
      refine ⟨bytes, hbefore, ?_⟩
      have hne : toString other.millis ≠ toString run.millis := fun hsame =>
        absurd (toString_inj hsame) (Nat.ne_of_lt (hlater other hold))
      rw [backupPlace_below, ← List.append_assoc] at hsaved ⊢
      rw [PastRun.after, leaves.get?_backup (isDigits_toString _) hne, hsaved]
    · obtain rfl := List.mem_singleton.mp hnew
      obtain ⟨bytes, hbefore, -, hsaved⟩ := leaves.saved source htouches
      exact ⟨bytes, hbefore, hsaved⟩
  accounted := by
    intro front own digits bytes hreads hdigits hfile
    by_cases hsame : digits = toString run.millis
    · subst hsame
      refine ⟨run, by simp, rfl, ?_⟩
      rw [← List.append_assoc] at hfile ⊢
      apply leaves.touches_of_backup _ hfile
      -- A backup of this time was not there before, since all runs were earlier.
      intro hbefore
      rw [List.append_assoc] at hbefore
      obtain ⟨other, hother, htime, -⟩ :=
        recorded.accounted front own _ bytes hreads hdigits hbefore
      exact absurd (toString_inj htime).symm (Nat.ne_of_lt (hlater other hother))
    · have hbefore : run.before.get? (here ++ (front ++ [backupName own digits])) =
          some (.file bytes) := by
        rw [← List.append_assoc] at hfile ⊢
        rwa [PastRun.after, leaves.get?_backup hdigits hsame] at hfile
      obtain ⟨other, hother, htime, htouches⟩ :=
        recorded.accounted front own digits bytes hreads hdigits hbefore
      exact ⟨other, List.mem_append_left _ hother, htime, htouches⟩

/-- No link stands in the place of the backup of a file that can be reached. -/
theorem unlinked_backup (recorded : Recorded root here runs disk) (hsource : IsSource here source)
    (hreachable : IsReachable here source) (millis : Nat) (target : String) :
    disk.get? (backupPlace (toString millis) source) ≠ some (.link target) := by
  obtain ⟨front, name, rfl, -, -⟩ := id hsource
  rw [backupPlace_below]
  exact recorded.unlinked front _ target
    (readsAsBackup_of_reachable hsource hreachable (isDigits_toString millis))

end Recorded

theorem History.recorded {runs : List PastRun} (history : History root here first runs last)
    (untouched : Untouched root here first) : Recorded root here runs last := by
  induction history with
  | start => exact .start untouched
  | edit _ edited ih => exact ih.edit edited
  | run run _ fits later plain reachable ih =>
    refine ih.run (run.job.leaves ih.project fits plain fun source htouches => ?_) later reachable
    obtain ⟨path, hpath, -⟩ := id htouches
    exact ih.unlinked_backup (fits.isSource hpath) (reachable source htouches) run.millis

/-! ## Reverting everything -/

namespace Recorded

variable {runs : List PastRun} {backup : Backup} {bytes : ByteArray}

/-- A backup that reverting finds is that of a run that touched its file. -/
theorem exists_run (recorded : Recorded root here runs disk)
    (hbackup : backup ∈ Revert.findBackups disk root) (hstands : Stands disk backup source bytes) :
    ∃ run ∈ runs, run.Touches source ∧ backup.stamp = toString run.millis := by
  obtain ⟨front, own, rfl, hreads, hfile⟩ :=
    Revert.exists_of_stands recorded.project hbackup hstands
  obtain ⟨run, hrun, hstamp, htouches⟩ := recorded.accounted front own backup.stamp bytes hreads
    (Revert.isDigits_of_mem_findBackups hbackup) hfile
  exact ⟨run, hrun, htouches, hstamp⟩

/-- A backup of each of these is found. -/
theorem exists_backup (recorded : Recorded root here runs disk) {run : PastRun} (hrun : run ∈ runs)
    (htouches : run.Touches source) :
    ∃ backup ∈ Revert.findBackups disk root, ∃ bytes, run.before.get? source = some (.file bytes) ∧
      Stands disk backup source bytes ∧ backup.stamp = toString run.millis := by
  obtain ⟨hsource, hreachable, -⟩ := recorded.isSource run hrun source htouches
  obtain ⟨bytes, hbefore, hsaved⟩ := recorded.saved run hrun source htouches
  obtain ⟨backup, hfound, hstands⟩ := Revert.exists_mem_findBackups recorded.project hsource
    hreachable (isDigits_toString run.millis) hsaved
  exact ⟨backup, hfound, bytes, hbefore, hstands⟩

/-- The backup of the first run that touched a file is copied last, and holds what the
file held before. -/
theorem before_of_last (recorded : Recorded root here runs disk) {earlier later : List PastRun}
    {run : PastRun} (hruns : runs = earlier ++ run :: later)
    (hfirst : ∀ other ∈ earlier, ¬ other.Touches source) (htouches : run.Touches source)
    {front back : List Backup}
    (hsplit : Revert.select Revert.allRuns (Revert.findBackups disk root) = front ++ backup :: back)
    (hstands : Stands disk backup source bytes)
    (hlast : ∀ other ∈ back, ∀ held, ¬ Stands disk other source held) :
    run.before.get? source = some (.file bytes) := by
  have hall : ∀ other, other ∈ front ++ backup :: back ↔
      other ∈ Revert.findBackups disk root := by
    intro other
    simp [← hsplit, Revert.mem_select]
  have hsorted : (front ++ backup :: back).Pairwise
      fun a b => Revert.isLater a.stamp b.stamp = true := by
    rw [← hsplit, Revert.select_allRuns]
    apply List.pairwise_mergeSort
    · intro a b c hab hbc
      exact Revert.isLater_trans hab hbc
    · intro a b
      exact Revert.isLater_total a.stamp b.stamp
  have hmem : run ∈ runs := by simp [hruns]
  -- The time of the last backup is not before that of the first run,
  obtain ⟨other, hother, hfound, hstamp⟩ :=
    recorded.exists_run ((hall backup).mp (by simp)) hstands
  have hle : run.millis ≤ other.millis := by
    have hordered := recorded.ordered
    rw [hruns] at hother hordered
    rcases List.mem_append.mp hother with hearlier | hother
    · exact absurd hfound (hfirst other hearlier)
    · rcases List.mem_cons.mp hother with rfl | hlater
      · exact Nat.le_refl _
      · have hrest := (List.pairwise_append.mp hordered).2.1
        exact Nat.le_of_lt (List.rel_of_pairwise_cons hrest hlater)
  -- and the backup of the first run is copied before it, if it is not the same.
  obtain ⟨oldest, hfound', saved, hbefore, hstands', hstamp'⟩ := recorded.exists_backup hmem htouches
  obtain rfl : backup = oldest := by
    rcases List.mem_append.mp ((hall oldest).mpr hfound') with hfront | hrest
    · have hlater := (List.pairwise_append.mp hsorted).2.2 oldest hfront backup (by simp)
      rw [hstamp, hstamp', Revert.isLater_toString_iff] at hlater
      refine Revert.eq_of_stands recorded.project.tree ((hall backup).mp (by simp)) hfound' ?_
        hstands hstands'
      rw [hstamp, hstamp', Nat.le_antisymm hlater hle]
    · rcases List.mem_cons.mp hrest with rfl | hback
      · rfl
      · exact absurd hstands' (hlast oldest hback saved)
  rw [(hstands.unique hstands').2, hbefore]

end Recorded

/-- After any history, reverting everything gives each file that a run touched the
bytes that it held before the first run that touched it, unless a directory has
taken its place. All other files, and all backups, stay as they are. Here a run
touches what it rewrites, and nothing else but what it skips. -/
theorem revert_all_restores {runs : List PastRun} (history : History root here first runs last)
    (untouched : Untouched root here first) :
    (∀ source, (∃ run ∈ runs, run.Touches source) → last.get? source ≠ some .directory →
        ∃ earlier run later bytes, runs = earlier ++ run :: later ∧
          (∀ other ∈ earlier, ¬ other.Touches source) ∧ run.Touches source ∧
          run.before.get? source = some (.file bytes) ∧
          (Revert.run last.calmed root Revert.allRuns).2.get? source = some (.file bytes)) ∧
      (∀ location, (∀ run ∈ runs, ¬ run.Touches location) →
        (Revert.run last.calmed root Revert.allRuns).2.get? location = last.get? location) ∧
      (∀ front name, ReadsAsBackup name →
        (Revert.run last.calmed root Revert.allRuns).2.get? (here ++ (front ++ [name])) =
          last.get? (here ++ (front ++ [name]))) ∧
      ∀ run ∈ runs, ∀ source, (run.Rewrites source → run.Touches source) ∧
        (run.Touches source → run.Rewrites source ∨ run.Skips source) := by
  have halike := last.alike_calmed
  have recorded : Recorded root here runs last.calmed :=
    (history.recorded untouched).edit
      ⟨(history.recorded untouched).project.alike halike, halike.noNewLinks,
        fun _ _ _ => halike.get? _⟩
  have hselect : ∀ backup ∈ Revert.select Revert.allRuns (Revert.findBackups last.calmed root),
      backup ∈ Revert.findBackups last.calmed root := fun _ hbackup =>
    (Revert.mem_select.mp hbackup).1
  obtain ⟨hkept, hback⟩ := Revert.get?_run_sources recorded.project rfl
    fun backup hbackup source bytes hstands => by
      obtain ⟨run, hrun, htouches, -⟩ := recorded.exists_run (hselect backup hbackup) hstands
      obtain ⟨hsource, -, hlink⟩ := recorded.isSource run hrun source htouches
      exact ⟨hsource, hlink⟩
  have hothers : ∀ location, (∀ run ∈ runs, ¬ run.Touches location) →
      (Revert.run last.calmed root Revert.allRuns).2.get? location = last.get? location := by
    intro location hnot
    rw [hkept location, halike.get?]
    intro backup hbackup bytes hstands
    obtain ⟨run, hrun, htouches, -⟩ := recorded.exists_run (hselect backup hbackup) hstands
    exact hnot run hrun htouches
  refine ⟨?_, hothers, ?_, fun run _ source =>
    ⟨Job.touches_of_rewrites, Job.rewrites_or_skips⟩⟩
  · intro source htouched hfree
    obtain ⟨earlier, run, later, hruns, hfirst, htouches⟩ := Revert.exists_first htouched
    have hrun : run ∈ runs := by simp [hruns]
    obtain ⟨found, hfound, saved, -, hstands, -⟩ := recorded.exists_backup hrun htouches
    rw [← halike.get?] at hfree
    obtain ⟨front, backup, back, bytes, hsplit, hstands, hlast, hget⟩ := hback source hfree
      ⟨found, Revert.mem_select.mpr ⟨hfound, .inl rfl⟩, saved, hstands⟩
    exact ⟨earlier, run, later, bytes, hruns, hfirst, htouches,
      recorded.before_of_last hruns hfirst htouches hsplit hstands hlast, hget⟩
  · intro front name hname
    apply hothers
    intro run hrun htouches
    obtain ⟨own, digits, -, -, hdigits, rfl⟩ := readsAsBackup_iff.mp hname
    have hsource := (recorded.isSource run hrun _ htouches).1
    rw [← List.append_assoc] at hsource
    exact hsource.ne_backupName hdigits.endsWithDigit _ own rfl

/-! ## Two runs with a note in between -/

/-- A run on the project with one script. -/
def soloRun : PastRun := ⟨soloDisk, soloJob, 100⟩

/-- A note that is written after that. -/
def noted : Disk :=
  soloRun.after.put ["notes.txt"] (.file "Keep this.\n".toUTF8)

/-- A run of a later time, whose number has more digits. -/
def laterRun : PastRun where
  before := noted
  job := { soloJob with
    plan := { soloJob.plan with stamp := ⟨"1000", "1970-01-01T00:00:01.000Z"⟩ } }
  millis := 1000

theorem soloRun_leaves : soloRun.job.Leaves soloDisk (.ofLocation []) [] 100 :=
  soloRun.job.leaves soloDisk_project (soloJob_fits fun _ _ => id)
    (fun _ htouches => soloJob_touches rfl htouches ▸ soloSource_isPlain)
    fun _ _ => soloDisk_linkless _

theorem noted_edited : Edited (.ofLocation []) [] soloRun.after noted := by
  have hname : ¬ ReadsAsBackup "notes.txt" := by
    unfold ReadsAsBackup
    decide
  have hfree : soloRun.after.get? ["notes.txt"] ≠ some .directory :=
    soloRun_leaves.get?_ne_directory (by decide)
  have hnames : ∀ part ∈ [] ++ ["notes.txt"], Path.IsName part := by decide
  exact .write soloRun_leaves.project hnames hname
    (fun front _ target hlink => soloDisk_linkless front target (soloRun_leaves.links _ _ hlink))
    ⟨rfl, by decide, hfree⟩ _

theorem noted_links : Disk.NoNewLinks soloDisk noted :=
  soloRun_leaves.links.trans noted_edited.links

theorem laterRun_fits : laterRun.job.Fits noted (.ofLocation []) [] 1000 where
  toFromProject := solo_found noted_links
  applies := by decide
  stamped := by decide

theorem laterRun_touches {source : Location} (htouches : laterRun.Touches source) :
    source = ["app.js"] :=
  soloJob_touches (show laterRun.job.scan = soloScan from rfl) htouches

theorem solo_history : History (.ofLocation []) [] soloDisk [soloRun, laterRun] laterRun.after := by
  have hfirst : History (.ofLocation []) [] soloDisk [soloRun] soloRun.after :=
    .run soloRun .start (soloJob_fits fun _ _ => id) (by simp)
      (fun _ htouches => soloJob_touches rfl htouches ▸ soloSource_isPlain)
      (fun _ htouches => soloJob_touches rfl htouches ▸ soloSource_isReachable)
  refine .run laterRun (hfirst.edit noted_edited) laterRun_fits ?_
    (fun _ htouches => laterRun_touches htouches ▸ soloSource_isPlain)
    (fun _ htouches => laterRun_touches htouches ▸ soloSource_isReachable)
  intro other hother
  rw [List.mem_singleton.mp hother]
  decide

theorem soloDisk_untouched : Untouched (.ofLocation []) [] soloDisk where
  project := soloDisk_project
  fresh := by
    intro front name entry hother hname hentry
    obtain ⟨own, digits, -, -, hdigits, rfl⟩ := readsAsBackup_iff.mp hname
    exact soloDisk_names hother hentry ⟨own, digits, hdigits, rfl⟩

theorem laterRun_leaves : laterRun.job.Leaves noted (.ofLocation []) [] 1000 :=
  laterRun.job.leaves noted_edited.project laterRun_fits
    (fun _ htouches => laterRun_touches htouches ▸ soloSource_isPlain)
    fun _ _ target hlink => soloDisk_linkless _ target (noted_links _ _ hlink)

/-- The first run rewrites the script, and reverting everything brings it back. -/
theorem revert_all_restores_solo :
    History (.ofLocation []) [] soloDisk [soloRun, laterRun] laterRun.after ∧
      soloRun.Rewrites ["app.js"] ∧
      (Revert.run laterRun.after.calmed (.ofLocation []) Revert.allRuns).2.get? ["app.js"] =
        some (.file soloScript.toUTF8) ∧
      (Revert.run laterRun.after.calmed (.ofLocation []) Revert.allRuns).2.get? ["notes.txt"] =
        some (.file "Keep this.\n".toUTF8) := by
  obtain ⟨hback, hkept, -, hrewrites⟩ := revert_all_restores solo_history soloDisk_untouched
  have htouches := (hrewrites soloRun (by simp) _).1 soloJob_rewrites
  refine ⟨solo_history, soloJob_rewrites, ?_, ?_⟩
  · obtain ⟨held, hpresent⟩ := soloRun_leaves.present _ htouches
    have hfree : laterRun.after.get? ["app.js"] ≠ some .directory := by
      apply laterRun_leaves.get?_ne_directory
      rw [noted, Disk.get?_put_of_ne (by decide) (by decide)]
      exact fun hdirectory => by cases hpresent.symm.trans hdirectory
    obtain ⟨earlier, run, later, bytes, hruns, hfirst, -, hbefore, hget⟩ :=
      hback _ ⟨soloRun, by simp, htouches⟩ hfree
    cases earlier with
    | nil =>
      obtain ⟨rfl, -⟩ := List.cons.inj hruns
      exact hget.trans hbefore.symm
    | cons other earlier =>
      obtain ⟨rfl, -⟩ := List.cons.inj hruns
      exact absurd htouches (hfirst _ List.mem_cons_self)
  · have hname : ¬ IsBackupName "notes.txt" := by
      intro hname
      obtain ⟨c, hc, hdecimal⟩ := hname.endsWithDigit
      obtain rfl : 't' = c := Option.some.inj hc
      exact absurd hdecimal (by decide)
    have hnot : ¬ laterRun.Touches ([] ++ ["notes.txt"]) := fun htouches =>
      absurd (laterRun_touches htouches) (by decide)
    have hnots : ∀ run ∈ [soloRun, laterRun], ¬ run.Touches ([] ++ ["notes.txt"]) := by
      simp only [List.mem_cons, List.not_mem_nil, or_false, forall_eq_or_imp, forall_eq]
      exact ⟨fun htouches => absurd (soloJob_touches rfl htouches) (by decide), hnot⟩
    refine (hkept _ hnots).trans ((laterRun_leaves.get?_of_not_touches hname hnot).trans ?_)
    exact Disk.get?_put_self (by decide)

end Deadwood
