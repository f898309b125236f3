/-
# Kept snapshots and manifests

What is written into a file is found by the same path, on any disk. So a snapshot
that was kept is the one that is looked up later, and a manifest lists the patches
of its run to whoever reads it. Texts from elsewhere may come in other forms; to
write what was read from one and to read it again changes nothing.
-/

import Deadwood.Proofs.Fix.Proposed
import Deadwood.Proofs.Json.Records
import Deadwood.Snapshot.File

namespace Deadwood

open Deadwood.Fix

variable {disk after : Disk} {path : Path} {text : String}

/-- A text that was written is what is read. -/
theorem Disk.readText?_of_write (hwrite : disk.write path text.toUTF8 = (none, after)) :
    after.readText? path = some text := by
  rcases disk.write_cases path text.toUTF8 with
    ⟨error, failed, hfailed, -⟩ | ⟨location, stored, hdone, htarget, hstored⟩
  · rw [hfailed] at hwrite
    simp at hwrite
  · rw [hdone] at hwrite
    obtain ⟨-, rfl⟩ := Prod.mk.inj hwrite
    exact readText?_of_find (hstored.find htarget)

namespace Snapshot

theorem ofJson?_ofText?_toPretty {snapshot : Snapshot} (hsnapshot : snapshot.WellFormed) :
    (Json.ofText? snapshot.toJson.toPretty).bind Snapshot.ofJson? = some snapshot := by
  have hround := Snapshot.roundTrips hsnapshot
  rw [hround.exact.ofText?_toPretty, Option.bind_some, hround.read]

/-- A snapshot that was kept is looked up. -/
theorem load_of_save {snapshot : Snapshot} (hsnapshot : snapshot.WellFormed)
    (hsave : snapshot.save path disk = (none, after)) : load after path = .ok snapshot := by
  unfold save at hsave
  split at hsave
  · simp at hsave
  · rename_i middle hmade
    rcases hwrite : middle.write path snapshot.toJson.toPretty.toUTF8 with ⟨_ | error, stored⟩
    · rw [hwrite] at hsave
      obtain ⟨-, rfl⟩ := Prod.mk.inj hsave
      rw [load, Disk.readText?_of_write hwrite]
      simp only [ofJson?_ofText?_toPretty hsnapshot]
    · rw [hwrite] at hsave
      simp at hsave

end Snapshot

theorem Manifest.ofJson?_ofText?_toPretty (manifest : Manifest) :
    (Json.ofText? manifest.toJson.toPretty).bind Manifest.ofJson? = some manifest := by
  have hround := manifest.roundTrips
  rw [hround.exact.ofText?_toPretty, Option.bind_some, hround.read]

namespace Fix.PatchPlace

variable {place : PatchPlace} {patching done : Patching}

/-- Making the directory changes nothing about the patches. -/
theorem written_ensureDirectory (place : PatchPlace) (patching : Patching) :
    (place.ensureDirectory patching).2.written = patching.written := by
  unfold ensureDirectory
  split
  · rfl
  · split <;> rfl

/-- A manifest that was written is read where it is said to be. -/
theorem readText?_of_emitManifest (hsome : patching.written.suggestions ≠ [])
    (hemit : place.emitManifest patching = (none, done)) :
    ∃ path, done.written.manifest = some path ∧
      done.disk.readText? path = some
        (Manifest.mk place.stamp.millis patching.written.suggestions).toJson.toPretty := by
  unfold emitManifest at hemit
  rw [if_neg (by simpa using hsome)] at hemit
  rcases hmade : place.ensureDirectory patching with ⟨_ | error, made⟩
  · have hwritten : made.written = patching.written := by
      rw [← place.written_ensureDirectory patching, hmade]
    rw [hmade] at hemit
    simp only [writeInto, ← hwritten] at hemit ⊢
    generalize (Manifest.mk place.stamp.millis made.written.suggestions).toJson.toPretty =
      text at hemit ⊢
    rcases hwrite : made.disk.write (place.directory.join ⟨place.manifestName⟩) text.toUTF8 with
      ⟨_ | error, stored⟩
    · rw [hwrite] at hemit
      obtain ⟨-, rfl⟩ := Prod.mk.inj hemit
      exact ⟨_, rfl, Disk.readText?_of_write hwrite⟩
    · rw [hwrite] at hemit
      simp at hemit
  · rw [hmade] at hemit
    simp at hemit

end Fix.PatchPlace

/-- Reading undoes writing. Every snapshot is read back from its text, and looked up
where it was kept; every manifest is read back from its text, and read where a run
has put it. What is read from any other text is read again after writing it. -/
theorem reading_undoes_writing :
    (∀ snapshot : Snapshot, snapshot.WellFormed →
      (Json.ofText? snapshot.toJson.toPretty).bind Snapshot.ofJson? = some snapshot ∧
        ∀ path disk after, snapshot.save path disk = (none, after) →
          Snapshot.load after path = .ok snapshot) ∧
    (∀ manifest : Manifest,
      (Json.ofText? manifest.toJson.toPretty).bind Manifest.ofJson? = some manifest) ∧
    (∀ (place : PatchPlace) (patching done : Patching), patching.written.suggestions ≠ [] →
      place.emitManifest patching = (none, done) →
      ∃ path text, done.written.manifest = some path ∧ done.disk.readText? path = some text ∧
        (Json.ofText? text).bind Manifest.ofJson? =
          some ⟨place.stamp.millis, patching.written.suggestions⟩) ∧
    (∀ text snapshot, (Json.ofText? text).bind Snapshot.ofJson? = some snapshot →
      snapshot.WellFormed ∧
        (Json.ofText? snapshot.toJson.toPretty).bind Snapshot.ofJson? = some snapshot) ∧
    ∀ text manifest, (Json.ofText? text).bind Manifest.ofJson? = some manifest →
      (Json.ofText? manifest.toJson.toPretty).bind Manifest.ofJson? = some manifest := by
  refine ⟨fun snapshot hsnapshot => ⟨Snapshot.ofJson?_ofText?_toPretty hsnapshot,
    fun path disk after => Snapshot.load_of_save hsnapshot⟩,
    Manifest.ofJson?_ofText?_toPretty, ?_, ?_, fun _ manifest _ => manifest.ofJson?_ofText?_toPretty⟩
  · intro place patching done hsome hemit
    obtain ⟨path, hpath, hread⟩ := PatchPlace.readText?_of_emitManifest hsome hemit
    exact ⟨path, _, hpath, hread, Manifest.ofJson?_ofText?_toPretty _⟩
  · intro text snapshot hread
    obtain ⟨value, -, hvalue⟩ := Option.bind_eq_some_iff.mp hread
    have hsnapshot := Snapshot.wellFormed_of_ofJson? hvalue
    exact ⟨hsnapshot, Snapshot.ofJson?_ofText?_toPretty hsnapshot⟩

/-- A snapshot with whatever strings can hold. -/
def oddSnapshot : Snapshot :=
  ⟨0xFFFFFFFFFFFFFFFF, "\"\\\n", { tagAdvice := [("b", none)] }⟩

def oddPath : Path :=
  (Path.ofLocation []).join ⟨"kept"⟩

/-- A run on an empty disk, with a suggestion to write down. -/
def oddPlace : PatchPlace :=
  ⟨.ofLocation [], .ofLocation [], ⟨"100", ""⟩⟩

def oddPatching : Patching where
  disk := {}
  ready := true
  written := { suggestions := [⟨"a.js", .functionComment, "a.diff", "100"⟩] }

theorem oddPatching_ready : Ready oddPlace [] oddPatching :=
  ⟨rfl, .ofEntries .nil (by simp [oddPatching]) (by simp [oddPatching]), rfl⟩

theorem oddSnapshot_save : ∃ after, oddSnapshot.save oddPath {} = (none, after) := by
  obtain ⟨stored, hstored, -⟩ := oddPatching_ready.exists_writeInto
    (show Disk.FitsName "kept" by decide) rfl oddSnapshot.toJson.toPretty
  have hwrite := congrArg Prod.fst hstored
  simp only [PatchPlace.writeInto, Option.map_eq_none_iff] at hwrite
  have hparent : oddPath.parent? = some oddPlace.directory := by decide +kernel
  have hmade := Disk.makePath_eq_self oddPatching_ready.directory.rooted
  refine ⟨_, Prod.ext ?_ rfl⟩
  rw [Snapshot.save, Snapshot.makeAround, hparent]
  simp only [show ({} : Disk) = oddPatching.disk from rfl, hmade, Option.map_none,
    Option.map_eq_none_iff]
  exact hwrite

/-- The snapshot and a manifest are written to the empty disk and read again. Another
snapshot is read from a text whose fields are in an array, with the advice out of order
and the files left out missing. -/
theorem reading_undoes_writing_odd :
    ((Json.ofText? oddSnapshot.toJson.toPretty).bind Snapshot.ofJson? = some oddSnapshot ∧
      ∃ after, oddSnapshot.save oddPath {} = (none, after) ∧
        Snapshot.load after oddPath = .ok oddSnapshot) ∧
    (∃ done path text, oddPlace.emitManifest oddPatching = (none, done) ∧
      done.written.manifest = some path ∧ done.disk.readText? path = some text ∧
      (Json.ofText? text).bind Manifest.ofJson? =
        some ⟨"100", [⟨"a.js", .functionComment, "a.diff", "100"⟩]⟩) ∧
    (Snapshot.mk 7 "" { tagAdvice := [("b", none), ("u", some "x")] }).WellFormed := by
  obtain ⟨hsnapshots, -, hmanifests, hread, -⟩ := reading_undoes_writing
  refine ⟨?_, ?_, ?_⟩
  · obtain ⟨htext, hfile⟩ := hsnapshots oddSnapshot
      ⟨Nat.le_refl _, by simp [oddSnapshot], by simp [oddSnapshot], List.pairwise_singleton _ _⟩
    obtain ⟨after, hsave⟩ := oddSnapshot_save
    exact ⟨htext, after, hsave, hfile _ _ _ hsave⟩
  · obtain ⟨done, hemit⟩ := oddPatching_ready.exists_emitManifest (by decide) rfl
    obtain ⟨path, text, hpath, htext, hsame⟩ :=
      hmanifests oddPlace oddPatching done (List.cons_ne_nil _ _) hemit
    exact ⟨done, path, text, hemit, hpath, htext, hsame⟩
  · refine (hread "[7,\"\",[[],[],[],[],[],\x7b\"u\":\"x\",\"b\":null\x7d]]" _ ?_).1
    decide +kernel

end Deadwood
