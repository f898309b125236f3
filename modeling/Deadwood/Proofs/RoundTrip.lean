/-
# There and back

A run followed by reverting it gives every file its bytes back. Whatever the
copies and writes of the run ran into, the files that it touched hold again what
they held before, and all that is added to the disk are backups. The touched files
come back also if other runs took place in between.

The premises on the touched files are those under which their backups are found
again: no backslash in their names and, if their bytes changed, no line break
either and no directory on the way in which backups are not looked for. Nor may
anything but a directory stand under the name of a backup before, be it a link.
-/

import Deadwood.Proofs.Fix.Job
import Deadwood.Proofs.Restore

namespace Deadwood

open Deadwood.Fix
open Deadwood.Revert (IsReachable Stands)
open Disk (NoNewLinks)

variable {before disk start last : Disk} {root : Path} {here location source : Location}
  {job : Job} {millis : Nat}

/-! ## Runs in between -/

/-- Disks that come about by runs of other times. Of the files that these touch
only the names must be plain, and no link may stand in the place of a backup. -/
inductive LaterRuns (root : Path) (here : Location) (millis : Nat) (start : Disk) : Disk → Prop
  | none : LaterRuns root here millis start start
  | more {disk : Disk} (job : Job) (other : Nat)
      (earlier : LaterRuns root here millis start disk) (fits : job.Fits disk root here other)
      (different : other ≠ millis)
      (plain : ∀ source, job.Touches disk source → IsPlain here source)
      (free : ∀ source, job.Touches disk source → ∀ target,
        disk.get? (backupPlace (toString other) source) ≠ some (.link target)) :
      LaterRuns root here millis start (job.after disk)

/-- What reverting a run needs of a disk behind it: the backups of the run are there,
and no link or directory has come into the place of a file. -/
structure Revertible (root : Path) (here : Location) (millis : Nat) (start last : Disk) : Prop where
  project : last.Project root here
  links : NoNewLinks start last
  backups : ∀ front own, last.get? (front ++ [backupName own (toString millis)]) =
    start.get? (front ++ [backupName own (toString millis)])
  free : ∀ location, start.get? location ≠ some .directory → last.get? location ≠ some .directory

theorem Revertible.refl (project : start.Project root here) :
    Revertible root here millis start start :=
  ⟨project, fun _ _ => id, fun _ _ => rfl, fun _ h => h⟩

/-- Runs of other times keep it so. -/
theorem LaterRuns.revertible (runs : LaterRuns root here millis start last)
    (project : start.Project root here) : Revertible root here millis start last := by
  induction runs with
  | none => exact .refl project
  | more job other earlier fits different plain free ih =>
    have leaves := job.leaves ih.project fits plain free
    refine ⟨leaves.project, ih.links.trans leaves.links, ?_, ?_⟩
    · intro front own
      rw [leaves.get?_backup (isDigits_toString millis)
        (fun hsame => different (toString_inj hsame).symm), ih.backups]
    · intro location hlocation
      exact leaves.get?_ne_directory (ih.free location hlocation)

/-! ## The round trip -/

/-- Nothing below a directory has the name of a backup of a run, except directories. -/
def NoBackups (disk : Disk) (here : Location) (millis : Nat) : Prop :=
  ∀ front name entry, entry ≠ .directory →
    disk.get? (here ++ (front ++ [backupName name (toString millis)])) ≠ some entry

/-- What is selected as a backup of the run is that of a file that the run touched. -/
theorem touches_of_stands (leaves : job.Leaves before root here millis)
    (hfresh : NoBackups before here millis)
    (revertible : Revertible root here millis (job.after before) last) {backup : Backup}
    {bytes : ByteArray}
    (hbackup : backup ∈ Revert.select (toString millis) (Revert.findBackups last.calmed root))
    (hstands : Stands last.calmed backup source bytes) :
    job.Touches before source ∧ before.get? source = some (.file bytes) := by
  obtain ⟨hfound, hstamp⟩ := (Revert.mem_select_digits (isDigits_toString millis)).mp hbackup
  obtain ⟨front, own, rfl, -, hfile⟩ :=
    Revert.exists_of_stands (revertible.project.alike last.alike_calmed) hfound hstands
  have hbefore := hfresh front own (.file bytes) (by simp)
  rw [hstamp, last.alike_calmed.get?, ← List.append_assoc, revertible.backups] at hfile
  rw [← List.append_assoc] at hbefore ⊢
  have htouch := leaves.touches_of_backup hbefore hfile
  obtain ⟨saved, hsource, -, hsaved⟩ := leaves.saved _ htouch
  rw [backupPlace_append_singleton, hfile] at hsaved
  exact ⟨htouch, hsource.trans hsaved.symm⟩

/-- The backup of a file that can be reached is among them. -/
theorem exists_stands (leaves : job.Leaves before root here millis)
    (revertible : Revertible root here millis (job.after before) last)
    (htouch : job.Touches before source) (hreachable : IsReachable here source) :
    ∃ backup ∈ Revert.select (toString millis) (Revert.findBackups last.calmed root), ∃ bytes,
      Stands last.calmed backup source bytes := by
  have hdigits := isDigits_toString millis
  have hsource := leaves.isSource source htouch
  obtain ⟨bytes, -, -, hsaved⟩ := leaves.saved source htouch
  obtain ⟨front, own, rfl⟩ := Path.exists_append_singleton hsource.ne_nil
  rw [backupPlace_append_singleton, ← revertible.backups, ← last.alike_calmed.get?,
    ← backupPlace_append_singleton] at hsaved
  obtain ⟨backup, hbackup, hstands, hstamp⟩ := Revert.exists_mem_findBackups
    (revertible.project.alike last.alike_calmed) hsource hreachable hdigits hsaved
  exact ⟨backup, (Revert.mem_select_digits hdigits).mpr ⟨hbackup, hstamp⟩, bytes, hstands⟩

/-- On a disk that has the backups of a run, reverting the run gives back what the
run saved, as far as it can be reached, and keeps the rest. -/
theorem revert_of_saved (leaves : job.Leaves before root here millis)
    (hfresh : NoBackups before here millis)
    (revertible : Revertible root here millis (job.after before) last) :
    (∀ location, ¬ job.Touches before location →
        (Revert.run last.calmed root (toString millis)).2.get? location = last.get? location) ∧
      ∀ source, job.Touches before source →
        (Revert.run last.calmed root (toString millis)).2.get? source = before.get? source ∨
          ¬ IsReachable here source ∧
            (Revert.run last.calmed root (toString millis)).2.get? source = last.get? source := by
  have halike := last.alike_calmed
  obtain ⟨hkept, hback⟩ := Revert.get?_run_sources (revertible.project.alike halike) rfl
    fun backup hbackup source bytes hstands => by
      obtain ⟨htouch, -⟩ := touches_of_stands leaves hfresh revertible hbackup hstands
      obtain ⟨held, hpresent⟩ := leaves.present source htouch
      refine ⟨leaves.isSource source htouch, fun target hlink => ?_⟩
      rw [halike.get?] at hlink
      simp [revertible.links _ target hlink] at hpresent
  refine ⟨?_, ?_⟩
  · intro location hnot
    rw [hkept location fun backup hbackup bytes hstands =>
      hnot (touches_of_stands leaves hfresh revertible hbackup hstands).1, halike.get?]
  · intro source htouch
    by_cases hfound : ∃ backup ∈ Revert.select (toString millis)
        (Revert.findBackups last.calmed root), ∃ bytes, Stands last.calmed backup source bytes
    · left
      obtain ⟨held, hpresent⟩ := leaves.present source htouch
      have hroom := revertible.free source (by simp [hpresent])
      rw [← halike.get?] at hroom
      obtain ⟨front, backup, back, bytes, hsplit, hstands, -, hget⟩ := hback source hroom hfound
      have hbackup : backup ∈ front ++ backup :: back := by simp
      rw [hget, (touches_of_stands leaves hfresh revertible (hsplit ▸ hbackup) hstands).2]
    · refine .inr ⟨fun hreachable => hfound (exists_stands leaves revertible htouch hreachable), ?_⟩
      rw [hkept source fun backup hbackup bytes hstands => hfound ⟨backup, hbackup, bytes, hstands⟩,
        halike.get?]

/-- A run with its troubles, reverted without, gives every file its bytes back and
adds nothing but backups. If other runs come in between, reverting it gives back
the files that it touched. -/
theorem revert_run_restores (project : before.Project root here)
    (fits : job.Fits before root here millis) (hfresh : NoBackups before here millis)
    (hplain : ∀ source, job.Touches before source → IsPlain here source)
    (hreachable : ∀ source, job.Touches before source →
      (job.after before).get? source ≠ before.get? source → IsReachable here source) :
    (∀ location,
        (Revert.run (job.after before).calmed root (toString millis)).2.get? location =
            before.get? location ∨
          before.get? location = none ∧ ∃ source bytes,
            location = backupPlace (toString millis) source ∧
            before.get? source = some (.file bytes) ∧
            (Revert.run (job.after before).calmed root (toString millis)).2.get? location =
              some (.file bytes)) ∧
      ∀ last, LaterRuns root here millis (job.after before) last →
        ∀ source, job.Touches before source → IsReachable here source →
          (Revert.run last.calmed root (toString millis)).2.get? source = before.get? source := by
  have leaves := job.leaves project fits hplain fun source htouches target => by
    obtain ⟨path, hpath, -⟩ := htouches
    obtain ⟨front, name, rfl, -, -⟩ := fits.isSource hpath
    rw [backupPlace_below]
    exact hfresh front name (.link target) (by simp)
  refine ⟨?_, ?_⟩
  · obtain ⟨hkept, hback⟩ := revert_of_saved leaves hfresh (.refl leaves.project)
    intro location
    by_cases htouches : job.Touches before location
    · left
      rcases hback location htouches with hsame | ⟨hunreachable, hsame⟩
      · exact hsame
      · rw [hsame]
        by_contra hchanged
        exact hunreachable (hreachable location htouches hchanged)
    · rw [hkept location htouches]
      by_cases hbackup : ∃ source, job.Touches before source ∧
          location = backupPlace (toString millis) source
      · obtain ⟨source, hsource, rfl⟩ := hbackup
        obtain ⟨bytes, hbefore, hfree, hsaved⟩ := leaves.saved source hsource
        refine .inr ⟨?_, source, bytes, rfl, hbefore, hsaved⟩
        obtain ⟨front, name, rfl, -, -⟩ := leaves.isSource source hsource
        rw [backupPlace_below] at hfree ⊢
        refine Option.eq_none_iff_forall_ne_some.mpr fun entry hentry => ?_
        exact hfresh front name entry (fun hdirectory => hfree (hdirectory ▸ hentry)) hentry
      · exact .inl (leaves.kept location htouches fun source h hsame => hbackup ⟨source, h, hsame⟩)
  · intro last runs source htouches hreachable
    obtain ⟨-, hback⟩ := revert_of_saved leaves hfresh (runs.revertible leaves.project)
    exact (hback source htouches).resolve_right fun h => h.1 hreachable

/-! ## The project with one script -/

theorem soloSource_isReachable : IsReachable [] ["app.js"] := by
  rintro names rfl
  decide

theorem soloDisk_names {front : Location} {name : String} {entry : Entry}
    (hother : entry ≠ .directory) (hentry : soloDisk.get? (front ++ [name]) = some entry) :
    ¬ IsBackupName name := by
  have hmem := Disk.mem_of_get?_of_ne hentry hother
  have hplace : front ++ [name] = [] ++ ["app.js"] := by
    simp only [soloDisk, List.mem_cons, Prod.mk.injEq, List.not_mem_nil, or_false] at hmem
    exact (hmem.resolve_right fun h => hother h.2).1
  obtain ⟨-, hname⟩ := List.append_inj' hplace rfl
  rw [List.singleton_inj.mp hname]
  exact EndsAsCode.not_isBackupName ⟨'s', by decide, by decide⟩

/-- The script is rewritten, and reverting brings it back. -/
theorem revert_run_restores_solo :
    soloJob.Rewrites soloDisk ["app.js"] ∧
      (Revert.run (soloJob.after soloDisk).calmed (.ofLocation []) (toString 100)).2.get?
        ["app.js"] = some (.file soloScript.toUTF8) := by
  refine ⟨soloJob_rewrites, ?_⟩
  have hround := revert_run_restores soloDisk_project (soloJob_fits fun _ _ => id)
    (fun _ name _ hother hentry =>
      soloDisk_names hother hentry ⟨name, _, isDigits_toString 100, rfl⟩)
    (fun _ htouches => soloJob_touches rfl htouches ▸ soloSource_isPlain)
    (fun _ htouches _ => soloJob_touches rfl htouches ▸ soloSource_isReachable)
  rcases hround.1 ["app.js"] with hsame | ⟨hnone, -⟩
  · exact hsame
  · exact absurd hnone (by decide)

end Deadwood
