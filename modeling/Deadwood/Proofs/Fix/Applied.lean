/-
# What applying removals comes to

Each removal reads one file and writes it behind a backup. What it reads and writes
at other analysed files it leaves alone, so every file of a run is read as it was
before the run. A run that skips no more than what it cannot read writes exactly
the files out of which something is to be taken, in order, and each of them holds
what is left of its text.
-/

import Deadwood.Proofs.Fix.Removals
import Deadwood.Proofs.Scanned
import Mathlib.Data.List.Basic

namespace Deadwood.Fix

open Disk (Alike NoNewLinks Stored)

variable {disk after : Disk} {root base : Path} {here source : Location} {editor : Editor}
  {removal : Removal} {items : List Removal}

/-! ## Reading sources -/

/-- Where no file is found, there is no text. -/
private theorem toOption_loadSource_eq_none {path : Path}
    (hnone : ∀ location bytes, disk.find path ≠ .ok (location, .file bytes)) :
    (disk.loadSource path).toOption = none := by
  unfold Disk.loadSource
  split
  · rfl
  · rename_i hfind
    exact absurd hfind (hnone _ _)
  · rfl

/-- What is read at a path depends on the file that is found there alone. -/
theorem loadSource_congr_find {path : Path}
    (hsame : ∀ location bytes, after.find path = .ok (location, .file bytes) ↔
      disk.find path = .ok (location, .file bytes)) :
    (after.loadSource path).toOption = (disk.loadSource path).toOption := by
  by_cases hfile : ∃ location bytes, disk.find path = .ok (location, .file bytes)
  · obtain ⟨location, bytes, hfind⟩ := hfile
    rw [Disk.loadSource, Disk.loadSource, hfind, (hsame location bytes).mpr hfind]
  · have hnone : ∀ location bytes, disk.find path ≠ .ok (location, .file bytes) :=
      fun location bytes hfind => hfile ⟨location, bytes, hfind⟩
    rw [toOption_loadSource_eq_none hnone, toOption_loadSource_eq_none fun location bytes hfind =>
      hnone location bytes ((hsame location bytes).mp hfind)]

/-- What is read at a source depends on the file that stands there alone. -/
theorem loadSource_congr (project : disk.Project root here) (hafter : after.Project root here)
    (hsource : IsSource here source) (hdirect : disk.Direct source) (links : NoNewLinks disk after)
    (hsame : ∀ bytes, after.get? source = some (.file bytes) ↔ disk.get? source = some (.file bytes)) :
    (after.loadSource (.ofLocation source)).toOption =
      (disk.loadSource (.ofLocation source)).toOption := by
  apply loadSource_congr_find
  intro location bytes
  rw [find_source hafter hsource (links.direct hdirect), find_source project hsource hdirect, hsame]

/-- A text that is stored somewhere is what is read there. -/
theorem readText?_of_find {path : Path} {location : Location} {text : String}
    (hfind : disk.find path = .ok (location, .file text.toUTF8)) :
    disk.readText? path = some text := by
  have hread : disk.read path = .ok text.toUTF8 := by simp [Disk.read, hfind, bind, Except.bind]
  rw [Disk.readText?, hread]
  exact fromUTF8?_toUTF8 text

/-- A text that can be analysed can be read. -/
theorem readText?_of_loadSource {path : Path} {text : String}
    (hload : (disk.loadSource path).toOption = some text) : disk.readText? path = some text := by
  unfold Disk.loadSource at hload
  cases hfind : disk.find path with
  | error error => simp [hfind, Except.toOption] at hload
  | ok found =>
    obtain ⟨location, entry⟩ := found
    cases entry with
    | directory => simp [hfind, Except.toOption] at hload
    | link target => simp [hfind, Except.toOption] at hload
    | file bytes =>
      have hread : disk.read path = .ok bytes := by simp [Disk.read, hfind, bind, Except.bind]
      rw [Disk.readText?, hread]
      simp only [hfind] at hload
      split at hload
      · simp [Except.toOption] at hload
      · cases htext : String.fromUTF8? bytes with
        | none => simp [htext, Except.toOption] at hload
        | some found => simpa [htext, Except.toOption] using hload

/-! ## Writing sources -/

/-- Seeing to a backup leaves all analysed files as they are. -/
private theorem ensureBackup_analysed (project : disk.Project root here)
    (heditable : IsEditable disk here editor.stamp.millis source)
    {result : Except DiskError Path} {editor' : Editor}
    (hresult : editor.ensureBackup disk (.ofLocation source) = (result, editor', after)) :
    after.Project root here ∧ NoNewLinks disk after ∧ editor'.stamp = editor.stamp ∧
      ∀ other, IsSource here other → after.get? other = disk.get? other := by
  rcases editor.ensureBackup_cases disk (.ofLocation source) with
    ⟨-, backup, hkept⟩ | ⟨error, failed, hfailed, halike⟩ |
      ⟨-, origin, bytes, location, stored, hmade, -, htarget, hstored⟩
  · obtain ⟨-, rfl, rfl⟩ : _ ∧ editor = editor' ∧ disk = after := by simpa [hkept] using hresult
    exact ⟨project, fun _ _ => id, rfl, fun _ _ => rfl⟩
  · obtain ⟨-, rfl, rfl⟩ : _ ∧ editor = editor' ∧ failed = after := by
      simpa [hfailed] using hresult
    exact ⟨project.alike halike, halike.noNewLinks, rfl, fun other _ => halike.get? other⟩
  · obtain ⟨-, rfl, rfl⟩ : _ ∧ _ = editor' ∧ stored = after := by simpa [hmade] using hresult
    have hsource := heditable.isSource
    obtain ⟨rfl, hhold⟩ := (target_backup project heditable).mp htarget
    refine ⟨project_stored_backup project heditable hhold hstored,
      hstored.noNewLinks hsource.backupPlace_ne_nil, rfl, ?_⟩
    intro other hother
    rw [hstored.get? hsource.backupPlace_ne_nil,
      if_neg (hother.ne_backupPlace heditable.digit hsource)]

/-- Writing an analysed file behind a backup leaves all other analysed files as they
are. -/
theorem overwrite_analysed (project : disk.Project root here)
    (heditable : IsEditable disk here editor.stamp.millis source)
    {content : String} {error : Option DiskError} {editor' : Editor}
    (hresult : editor.overwrite disk (.ofLocation source) content = (error, editor', after)) :
    after.Project root here ∧ NoNewLinks disk after ∧ editor'.stamp = editor.stamp ∧
      (∀ other, IsSource here other → other ≠ source → after.get? other = disk.get? other) ∧
      (error = none → after.get? source = some (.file content.toUTF8)) := by
  unfold Editor.overwrite at hresult
  rcases hensure : editor.ensureBackup disk (.ofLocation source) with ⟨backup, editing, middle⟩
  obtain ⟨hmiddle, links, hstamp, hkept⟩ := ensureBackup_analysed project heditable hensure
  rw [hensure] at hresult
  cases backup with
  | error failure =>
    obtain ⟨rfl, rfl, rfl⟩ : some failure = error ∧ editing = editor' ∧ middle = after := by
      simpa using hresult
    exact ⟨hmiddle, links, hstamp, fun other hother _ => hkept other hother, by simp⟩
  | ok backup =>
    dsimp only at hresult
    rcases middle.write_cases (.ofLocation source) content.toUTF8 with
      ⟨failure, failed, hwrite, halike⟩ | ⟨location, stored, hwrite, htarget, hstored⟩
    · rw [hwrite] at hresult
      obtain ⟨rfl, rfl, rfl⟩ : some failure = error ∧ editing = editor' ∧ failed = after := by
        simpa using hresult
      refine ⟨hmiddle.alike halike, links.trans halike.noNewLinks, hstamp, ?_, by simp⟩
      intro other hother _
      rw [halike.get?, hkept other hother]
    · rw [hwrite] at hresult
      obtain ⟨rfl, rfl, rfl⟩ : none = error ∧ editing = editor' ∧ stored = after := by
        simpa using hresult
      have hsource := heditable.isSource
      have hdirect := links.direct heditable.direct
      obtain ⟨rfl, hhold⟩ := (target_source hmiddle hsource hdirect).mp htarget
      have hget := hstored.get? hsource.ne_nil
      refine ⟨project_stored_source hmiddle hsource hdirect hhold hstored,
        links.trans (hstored.noNewLinks hsource.ne_nil), hstamp, ?_, ?_⟩
      · intro other hother hne
        rw [hget, if_neg hne, hkept other hother]
      · intro _
        rw [hget, if_pos rfl]

/-- On a calm disk with room for a backup, a file that has none yet is written. -/
theorem overwrite_calm (project : disk.Project root here) (hcalm : disk.Calm)
    (heditable : IsEditable disk here editor.stamp.millis source)
    (hnew : ¬ editor.Has (.ofLocation source)) {bytes : ByteArray} (hfile : disk.get? source = some (.file bytes))
    (hroom : disk.CanHold (backupPlace editor.stamp.millis source)) (content : String) :
    (editor.overwrite disk (.ofLocation source) content).1 = none := by
  have hsource := heditable.isSource
  have hfind := (find_source project hsource heditable.direct).mpr ⟨rfl, hfile⟩
  have hbackup := (target_backup project heditable).mpr ⟨rfl, hroom⟩
  have hensure := Editor.ensureBackup_calm hcalm hnew hfind hbackup (hsource.backupPlace_ne _)
  obtain ⟨hproject, links, -, hkept⟩ := ensureBackup_analysed project heditable hensure
  have hstill := (hkept source hsource).trans hfile
  have htarget := (target_source hproject hsource (links.direct heditable.direct)).mpr
    ⟨rfl, hproject.tree.canHold hsource.ne_nil hstill (by simp)⟩
  have hstillCalm : (disk.put (backupPlace editor.stamp.millis source) (.file bytes)).Calm := hcalm
  simp only [Editor.overwrite, hensure, hstillCalm.write htarget]

/-! ## One removal after the other -/

/-- What comes of some removals. -/
structure Applied (root : Path) (here : Location) (items : List Removal) (start final : Progress) :
    Prop where
  project : final.disk.Project root here
  links : NoNewLinks start.disk final.disk
  stamp : final.editor.stamp = start.editor.stamp
  kept : ∀ source, IsSource here source → (∀ removal ∈ items, removal.path ≠ .ofLocation source) →
    final.disk.get? source = start.disk.get? source
  /-- What cannot be read is skipped. -/
  skips : start.skipped.length + (items.filterMap (·.unread? start.disk)).length ≤
    final.skipped.length
  /-- If nothing else is skipped, everything that should be written is. -/
  written : final.skipped.length =
      start.skipped.length + (items.filterMap (·.unread? start.disk)).length →
    (∀ removal ∈ items, ∀ path ∈ start.changed, path.isSame removal.path = false) →
    final.changed = start.changed ++ (items.filterMap (·.proposal? start.disk)).map (·.path) ∧
      ∀ removal ∈ items, ∀ source proposal, IsSource here source →
        removal.path = .ofLocation source → removal.proposal? start.disk = some proposal →
        final.disk.get? source = some (.file proposal.new.toUTF8)

/-- Removals from sources that can be edited, no two from the same. -/
structure AreApart (disk : Disk) (here : Location) (millis : String) (items : List Removal) :
    Prop where
  editable : ∀ removal ∈ items, ∃ source, IsEditable disk here millis source ∧
    removal.path = .ofLocation source
  once : (items.map (·.path)).Nodup

namespace AreApart

variable {millis : String}

theorem tail (hapart : AreApart disk here millis (removal :: items)) (links : NoNewLinks disk after) :
    AreApart after here millis items := by
  refine ⟨fun item hitem => ?_, (List.nodup_cons.mp hapart.once).2⟩
  obtain ⟨source, heditable, hpath⟩ := hapart.editable item (List.mem_cons_of_mem _ hitem)
  exact ⟨source, heditable.later links, hpath⟩

theorem path_ne (hapart : AreApart disk here millis (removal :: items)) {item : Removal}
    (hitem : item ∈ items) : item.path ≠ removal.path := by
  intro hsame
  exact (List.nodup_cons.mp hapart.once).1 (List.mem_map.mpr ⟨item, hitem, hsame⟩)

theorem isSame_eq_false (hapart : AreApart disk here millis (removal :: items)) {item : Removal}
    (hitem : item ∈ items) : removal.path.isSame item.path = false := by
  obtain ⟨source, hsource, hpath⟩ := hapart.editable removal List.mem_cons_self
  obtain ⟨other, hother, hitempath⟩ := hapart.editable item (List.mem_cons_of_mem _ hitem)
  have hne := hapart.path_ne hitem
  rw [hpath, hitempath] at hne ⊢
  rw [← Bool.not_eq_true,
    Path.isSame_ofLocation_iff hsource.isSource.named hother.isSource.named]
  rintro rfl
  exact hne rfl

end AreApart

namespace Applied

variable {start middle final : Progress}

/-- A file that is written. -/
private theorem write (project : start.disk.Project root here)
    (heditable : IsEditable start.disk here start.editor.stamp.millis source)
    (hpath : removal.path = .ofLocation source) {proposal : Proposal}
    (hproposal : removal.proposal? start.disk = some proposal) :
    Applied root here [removal] start (start.write base removal.path proposal.new) := by
  have hunread : removal.unread? start.disk = none := by
    cases hload : (start.disk.loadSource removal.path).toOption with
    | none => simp [Removal.proposal?, hload] at hproposal
    | some text => simp [Removal.unread?, hload]
  unfold Progress.write
  rcases hresult : start.editor.overwrite start.disk removal.path proposal.new with
    ⟨error, editor, disk⟩
  obtain ⟨hproject, links, hstamp, hkept, hwritten⟩ :=
    overwrite_analysed project heditable (hpath ▸ hresult)
  have hothers : ∀ other, IsSource here other →
      (∀ item ∈ [removal], item.path ≠ .ofLocation other) →
      disk.get? other = start.disk.get? other := by
    intro other hother hne
    apply hkept other hother
    rintro rfl
    exact hne removal (by simp) hpath
  cases error with
  | some failure =>
    refine ⟨hproject, links, hstamp, hothers, by simp [hunread], ?_⟩
    intro hlength
    simp [hunread] at hlength
  | none =>
    refine ⟨hproject, links, hstamp, hothers, by simp [hunread], ?_⟩
    intro _ hfresh
    have hany : start.changed.any (·.isSame removal.path) = false := by
      rw [List.any_eq_false]
      intro path hmem
      simp [hfresh removal (by simp) path hmem]
    refine ⟨by simp [hany, hproposal, Removal.path_of_proposal? hproposal], ?_⟩
    intro item hitem there other hthere hitempath hother
    rw [List.mem_singleton.mp hitem] at hitempath hother
    obtain rfl : proposal = other := Option.some.inj (hproposal.symm.trans hother)
    rw [Path.ofLocation_inj hthere.named heditable.isSource.named (hitempath.symm.trans hpath)]
    exact hwritten rfl

/-- One removal. -/
theorem one (project : start.disk.Project root here)
    (heditable : IsEditable start.disk here start.editor.stamp.millis source)
    (hpath : removal.path = .ofLocation source) :
    Applied root here [removal] start (start.apply base removal) := by
  cases hload : (start.disk.loadSource removal.path).toOption with
  | none =>
    have hunread : removal.unread? start.disk = removal.listed := by simp [Removal.unread?, hload]
    have hproposal : removal.proposal? start.disk = none := by simp [Removal.proposal?, hload]
    rw [Progress.apply_unread hload]
    refine ⟨project, fun _ _ => id, rfl, fun _ _ _ => rfl, ?_, ?_⟩
    · cases hlisted : removal.listed <;> simp [hunread, hlisted]
    · intro _ _
      simp [hproposal]
  | some text =>
    cases hproposal : removal.proposal? start.disk with
    | none =>
      have hunread : removal.unread? start.disk = none := by simp [Removal.unread?, hload]
      rw [Progress.apply_idle hload hproposal]
      refine ⟨project, fun _ _ => id, rfl, fun _ _ _ => rfl, by simp [hunread], ?_⟩
      intro _ _
      simp [hproposal]
    | some proposal =>
      rw [Progress.apply_proposal hproposal]
      exact write project heditable hpath hproposal

/-- Removals from other files find these as they were before. -/
private theorem loadSource_eq (project : start.disk.Project root here)
    (hapart : AreApart start.disk here start.editor.stamp.millis (removal :: items))
    (first : Applied root here [removal] start middle) {item : Removal} (hitem : item ∈ items) :
    (middle.disk.loadSource item.path).toOption = (start.disk.loadSource item.path).toOption := by
  obtain ⟨source, heditable, hpath⟩ := hapart.editable item (List.mem_cons_of_mem _ hitem)
  have hne := hapart.path_ne hitem
  rw [hpath] at hne ⊢
  apply loadSource_congr project first.project heditable.isSource heditable.direct first.links
  intro bytes
  rw [first.kept source heditable.isSource]
  intro same hsame
  rw [List.mem_singleton.mp hsame]
  exact hne.symm

/-- One removal and more behind it. -/
theorem cons (project : start.disk.Project root here)
    (hapart : AreApart start.disk here start.editor.stamp.millis (removal :: items))
    (first : Applied root here [removal] start middle)
    (rest : Applied root here items middle final) :
    Applied root here (removal :: items) start final := by
  have hload : ∀ item ∈ items, (middle.disk.loadSource item.path).toOption =
      (start.disk.loadSource item.path).toOption := fun item => loadSource_eq project hapart first
  have hproposal : ∀ item ∈ items, item.proposal? middle.disk = item.proposal? start.disk := by
    intro item hitem
    rw [Removal.proposal?, Removal.proposal?, hload item hitem]
  have hunread : items.filterMap (·.unread? middle.disk) =
      items.filterMap (·.unread? start.disk) := by
    apply List.filterMap_congr
    intro item hitem
    rw [Removal.unread?, Removal.unread?, hload item hitem]
  have hlengths : ((removal :: items).filterMap (·.unread? start.disk)).length =
      ([removal].filterMap (·.unread? start.disk)).length +
        (items.filterMap (·.unread? start.disk)).length := by
    rw [← List.singleton_append, List.filterMap_append, List.length_append]
  have hskips := first.skips
  have hrest := rest.skips
  rw [hunread] at hrest
  refine ⟨rest.project, first.links.trans rest.links, rest.stamp.trans first.stamp, ?_, by omega, ?_⟩
  · intro other hother hne
    rw [rest.kept other hother fun item hitem => hne item (List.mem_cons_of_mem _ hitem)]
    apply first.kept other hother
    simpa using hne removal List.mem_cons_self
  · intro hlength hfresh
    -- Neither part skips more than what it cannot read.
    obtain ⟨hchanged, hstored⟩ := first.written (by omega)
      fun item hitem => hfresh item (by simp [List.mem_singleton.mp hitem])
    have hnew : ∀ item ∈ items, ∀ path ∈ middle.changed, path.isSame item.path = false := by
      intro item hitem path hmem
      rw [hchanged, List.mem_append, List.mem_map] at hmem
      rcases hmem with hold | ⟨proposal, hmem, rfl⟩
      · exact hfresh item (List.mem_cons_of_mem _ hitem) path hold
      · obtain ⟨same, hsame, hown⟩ := List.mem_filterMap.mp hmem
        rw [Removal.path_of_proposal? hown, List.mem_singleton.mp hsame]
        exact hapart.isSame_eq_false hitem
    obtain ⟨hchanged', hstored'⟩ := rest.written (by rw [hunread]; omega) hnew
    refine ⟨?_, ?_⟩
    · rw [hchanged', hchanged, List.filterMap_congr hproposal, List.append_assoc, ← List.map_append,
        ← List.filterMap_append, List.singleton_append]
    · intro item hitem there proposal hthere hpath hown
      rcases List.mem_cons.mp hitem with rfl | hitem
      · rw [rest.kept there hthere fun other hother => hpath ▸ hapart.path_ne hother]
        exact hstored item (by simp) there proposal hthere hpath hown
      · exact hstored' item hitem there proposal hthere hpath ((hproposal item hitem).trans hown)

end Applied

/-- What comes of removals from different files. -/
theorem applied_foldl {start : Progress} (project : start.disk.Project root here)
    (hapart : AreApart start.disk here start.editor.stamp.millis items) :
    Applied root here items start (items.foldl (Progress.apply base) start) := by
  induction items generalizing start with
  | nil => exact ⟨project, fun _ _ => id, rfl, fun _ _ _ => rfl, by simp, fun _ _ => by simp⟩
  | cons removal items ih =>
    obtain ⟨source, heditable, hpath⟩ := hapart.editable removal List.mem_cons_self
    have first : Applied root here [removal] start (start.apply base removal) :=
      .one project heditable hpath
    have htail := hapart.tail first.links
    rw [← first.stamp] at htail
    exact .cons project hapart first (ih first.project htail)

end Deadwood.Fix
