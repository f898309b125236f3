/-
# Removals

A run that applies everything and one that proposes everything each have two loops
of their own, over the stylesheets and over the scripts. Both come to one loop over
the same removals: what is taken out of each file depends on its text alone. The
order in which the functions of a script are taken up does not matter, and a script
out of which something is taken is never the same text again.
-/

import Deadwood.Fix.Run
import Deadwood.Proofs.Names
import Deadwood.Proofs.Script.Removal

namespace Deadwood.Fix

variable {disk : Disk} {place : PatchPlace} {plan : Plan} {scan : Scan}
  {candidates : List Candidate}

/-! ## What is taken out -/

/-- What would become of a file. -/
structure Proposal where
  path : Path
  old : String
  new : String

/-- What is taken out of one file. -/
structure Removal where
  path : Path
  kind : PatchKind
  /-- What becomes of a text, if anything is taken out of it. -/
  rewrite? : String → Option String
  /-- What the file is listed as if it cannot be read. -/
  listed : Option String

namespace Removal

/-- Takes classes out of a stylesheet. -/
def ofSheet (classes : List String) (path : Path) : Removal where
  path
  kind := .classRemoval
  rewrite? source :=
    let outcome := Stylesheet.strip (Stylesheet.ruleSpans (Stylesheet.parse source)) source.toList
      fun name => classes.contains (String.ofList name)
    if outcome.changed then some (String.ofList outcome.content) else none
  listed := none

/-- Comments functions out of a script. -/
def ofScript (sources : Sources) (iso : String) (entry : String × List Symbol) : Removal where
  path := sources.resolve entry.1
  kind := .functionComment
  rewrite? source :=
    let (content, applied) := commentedScript source entry.2 iso
    if applied = 0 then none else some content
  listed := some entry.1

/-- What would become of the file, if anything is taken out. -/
def proposal? (removal : Removal) (disk : Disk) : Option Proposal :=
  (disk.loadSource removal.path).toOption.bind fun source =>
    (removal.rewrite? source).map (⟨removal.path, source, ·⟩)

/-- What the file is listed as, if it cannot be read. -/
def unread? (removal : Removal) (disk : Disk) : Option String :=
  if (disk.loadSource removal.path).toOption.isNone then removal.listed else none

theorem path_of_proposal? {removal : Removal} {proposal : Proposal}
    (hproposal : removal.proposal? disk = some proposal) : proposal.path = removal.path := by
  obtain ⟨source, -, hsource⟩ := Option.bind_eq_some_iff.mp hproposal
  obtain ⟨content, -, rfl⟩ := Option.map_eq_some_iff.mp hsource
  rfl

theorem proposal?_ofSheet (disk : Disk) (classes : List String) (path : Path) :
    (ofSheet classes path).proposal? disk =
      (strippedSheet? disk path classes).map fun (old, new) => ⟨path, old, new⟩ := by
  unfold proposal? strippedSheet?
  dsimp only [ofSheet]
  cases disk.loadSource path with
  | error error => rfl
  | ok source =>
    dsimp only [Except.toOption, Option.bind_some]
    split <;> rfl

/-- Only which classes there are counts. -/
theorem ofSheet_congr {classes others : List String} (hsame : ∀ name, name ∈ classes ↔ name ∈ others)
    (path : Path) : ofSheet classes path = ofSheet others path := by
  have hcontains : ∀ name : List Char,
      classes.contains (String.ofList name) = others.contains (String.ofList name) := by
    intro name
    rw [Bool.eq_iff_iff, List.contains_iff_mem, List.contains_iff_mem]
    exact hsame _
  simp only [ofSheet, hcontains]

end Removal

/-- All that a scan and its candidates give to take out, in order. -/
def removals (iso : String) (scan : Scan) (candidates : List Candidate) : List Removal :=
  (if scan.findings.unusedClasses.isEmpty then [] else scan.sources.stylesheets).map
      (.ofSheet scan.findings.unusedClasses) ++
    (safeByFile candidates).map (.ofScript scan.sources iso)

/-- No file is listed twice among those that have functions to go. -/
theorem nodup_map_fst_safeByFile (candidates : List Candidate) :
    ((safeByFile candidates).map (·.1)).Nodup := by
  unfold safeByFile
  dsimp only
  rw [List.map_map]
  exact (List.map_id _).symm ▸ nodup_sortedNames _

/-! ## Proposing -/

/-- Writes the patch for a removal, if there is anything to take out. -/
def PatchPlace.patch (place : PatchPlace) (removal : Removal) (patching : Patching) :
    Option FixError × Patching :=
  match removal.proposal? patching.disk with
  | some proposal => place.emit removal.kind proposal.path proposal.old proposal.new patching
  | none => (none, patching)

private theorem patchSheet_eq (place : PatchPlace) (classes : List String) (path : Path) :
    patchSheet place classes path = place.patch (.ofSheet classes path) := by
  funext patching
  rw [patchSheet, PatchPlace.patch, Removal.proposal?_ofSheet]
  cases strippedSheet? patching.disk path classes with
  | none => rfl
  | some stripped => rfl

theorem commentedScript_ne_self {source iso : String} {functions : List Symbol}
    (happlied : (commentedScript source functions iso).2 ≠ 0) :
    (commentedScript source functions iso).1 ≠ source := by
  intro hsame
  apply Script.commentOut_ne_self happlied
  have hchars := congrArg String.toList hsame
  rwa [commentedScript, String.toList_ofList] at hchars

private theorem patchScript_eq (place : PatchPlace) (sources : Sources)
    (entry : String × List Symbol) :
    patchScript place sources entry = place.patch (.ofScript sources place.stamp.iso entry) := by
  funext patching
  unfold patchScript PatchPlace.patch Removal.proposal?
  dsimp only [Removal.ofScript]
  cases patching.disk.loadSource (sources.resolve entry.1) with
  | error error => rfl
  | ok old =>
    dsimp only [Except.toOption, Option.bind_some]
    by_cases happlied : (commentedScript old entry.2 place.stamp.iso).2 = 0
    · simp [happlied]
    · have hne := commentedScript_ne_self happlied
      simp [happlied, hne]

private theorem each_append {α : Type} {step : α → Patching → Option FixError × Patching}
    (items others : List α) (patching : Patching) :
    Patching.each step (items ++ others) patching =
      match Patching.each step items patching with
      | (some error, patching) => (some error, patching)
      | (none, patching) => Patching.each step others patching := by
  induction items generalizing patching with
  | nil => rfl
  | cons item items ih =>
    rw [List.cons_append, Patching.each, Patching.each]
    rcases step item patching with ⟨_ | error, patching⟩
    · exact ih patching
    · rfl

private theorem each_map {α β : Type} {step : β → Patching → Option FixError × Patching}
    (f : α → β) (items : List α) (patching : Patching) :
    Patching.each step (items.map f) patching =
      Patching.each (fun item => step (f item)) items patching := by
  induction items generalizing patching with
  | nil => rfl
  | cons item items ih =>
    rw [List.map_cons, Patching.each, Patching.each]
    rcases step (f item) patching with ⟨_ | error, patching⟩
    · exact ih patching
    · rfl

/-- Proposing goes through the removals. -/
theorem propose_eq (place : PatchPlace) (scan : Scan) (candidates : List Candidate) (disk : Disk) :
    propose place scan candidates disk =
      match Patching.each place.patch (removals place.stamp.iso scan candidates) { disk } with
      | (some error, patching) => (some error, patching)
      | (none, patching) => place.emitManifest patching := by
  have hsheets : (fun path => place.patch (.ofSheet scan.findings.unusedClasses path)) =
      patchSheet place scan.findings.unusedClasses :=
    funext fun path => (patchSheet_eq place _ path).symm
  have hscripts : (fun entry => place.patch (.ofScript scan.sources place.stamp.iso entry)) =
      patchScript place scan.sources :=
    funext fun entry => (patchScript_eq place _ entry).symm
  rw [removals, each_append, each_map, hsheets, propose]
  rcases Patching.each (patchSheet place scan.findings.unusedClasses) _ { disk } with
    ⟨_ | error, patching⟩
  · dsimp only
    rewrite [each_map, hscripts]
    rfl
  · rfl

/-! ## Applying -/

/-- What of a run in progress tells where it will lead. -/
structure Progress where
  disk : Disk
  editor : Editor
  changed : List Path
  /-- The files that were skipped. -/
  skipped : List String

def Fixing.progress (fixing : Fixing) : Progress :=
  ⟨fixing.disk, fixing.editor, fixing.report.changed, fixing.report.skipped.map (·.file)⟩

/-- Writes a file behind a backup. -/
def Progress.write (progress : Progress) (root path : Path) (content : String) : Progress :=
  match progress.editor.overwrite progress.disk path content with
  | (none, editor, disk) =>
    let changed := progress.changed
    { progress with
      disk, editor
      changed := if changed.any (·.isSame path) then changed else changed ++ [path] }
  | (some _, editor, disk) =>
    { progress with disk, editor, skipped := progress.skipped ++ [path.shownIn root] }

/-- Takes out of a file what there is to take out. -/
def Progress.apply (root : Path) (progress : Progress) (removal : Removal) : Progress :=
  match (progress.disk.loadSource removal.path).toOption with
  | none => { progress with skipped := progress.skipped ++ removal.listed.toList }
  | some source =>
    match removal.rewrite? source with
    | none => progress
    | some content => progress.write root removal.path content

namespace Progress

variable {progress : Progress} {removal : Removal}

theorem apply_unread (hload : (progress.disk.loadSource removal.path).toOption = none)
    (root : Path) :
    progress.apply root removal =
      { progress with skipped := progress.skipped ++ removal.listed.toList } := by
  rw [apply, hload]

theorem apply_idle {source : String}
    (hload : (progress.disk.loadSource removal.path).toOption = some source)
    (hproposal : removal.proposal? progress.disk = none) (root : Path) :
    progress.apply root removal = progress := by
  have hrewrite : removal.rewrite? source = none := by
    simpa [Removal.proposal?, hload] using hproposal
  simp only [apply, hload, hrewrite]

theorem apply_proposal {proposal : Proposal}
    (hproposal : removal.proposal? progress.disk = some proposal) (root : Path) :
    progress.apply root removal = progress.write root removal.path proposal.new := by
  obtain ⟨source, hload, hsource⟩ := Option.bind_eq_some_iff.mp hproposal
  obtain ⟨content, hrewrite, rfl⟩ := Option.map_eq_some_iff.mp hsource
  simp only [apply, hload, hrewrite]

end Progress

theorem progress_writeFile (plan : Plan) (path : Path) (content : String) (fixing : Fixing) :
    (plan.writeFile path content fixing).2.progress =
      fixing.progress.write plan.root path content := by
  unfold Plan.writeFile Progress.write Fixing.progress
  dsimp only
  rcases fixing.editor.overwrite fixing.disk path content with ⟨_ | error, editor, disk⟩
  · rfl
  · simp

private theorem progress_fixSheet (plan : Plan) (classes : List String) (fixing : Fixing)
    (path : Path) :
    (plan.fixSheet classes fixing path).progress =
      fixing.progress.apply plan.root (.ofSheet classes path) := by
  have hproposal : (Removal.ofSheet classes path).proposal? fixing.progress.disk =
      (strippedSheet? fixing.disk path classes).map fun (old, new) => ⟨path, old, new⟩ :=
    Removal.proposal?_ofSheet fixing.disk classes path
  unfold Plan.fixSheet
  cases hstripped : strippedSheet? fixing.disk path classes with
  | some stripped =>
    rw [hstripped, Option.map_some] at hproposal
    rw [Progress.apply_proposal hproposal]
    exact progress_writeFile plan path stripped.2 fixing
  | none =>
    rw [hstripped, Option.map_none] at hproposal
    cases hload : (fixing.progress.disk.loadSource (Removal.ofSheet classes path).path).toOption with
    | none =>
      rw [Progress.apply_unread hload]
      simp [Removal.ofSheet]
    | some source => rw [Progress.apply_idle hload hproposal]

/-- Whether a declaration comes first, as functions are put in order. -/
def comesFirst (a b : Symbol) : Bool :=
  match a.span, b.span with
  | none, _ => true
  | some _, none => false
  | some a, some b => a.start ≤ b.start

theorem isRanking_comesFirst : IsRanking comesFirst where
  trans a b c hab hbc := by
    unfold comesFirst at *
    cases ha : a.span <;> cases hb : b.span <;> cases hc : c.span <;> simp_all
    omega
  total a b := by
    unfold comesFirst
    cases ha : a.span <;> cases hb : b.span <;> simp
    omega

/-- Putting functions in order makes no difference to what is commented out. -/
theorem commentedScript_inOrder (source : String) (functions : List Symbol) (iso : String) :
    commentedScript source (Plan.inOrder functions) iso = commentedScript source functions iso := by
  have hsame : ∀ offset, (Plan.inOrder functions).filter (Script.startsAt offset) =
      functions.filter (Script.startsAt offset) := by
    intro offset
    -- Functions that begin at one place are tied with any that begins there.
    have hstarts : Script.startsAt offset =
        isTied comesFirst ⟨.jsFunction, "", none, some ⟨offset, 0, 0, 0⟩⟩ := by
      funext function
      unfold Script.startsAt isTied comesFirst
      cases function.span with
      | none => rfl
      | some span =>
        rw [Bool.eq_iff_iff]
        simp
        omega
    rw [hstarts]
    exact isRanking_comesFirst.filter_mergeSort _ functions
  simp only [commentedScript, Script.commentOut_congr source.toList iso.toList hsame]

private theorem commentedScript_nil (source iso : String) :
    (commentedScript source [] iso).2 = 0 := by
  simp [commentedScript, Script.commentOut, Text.splice?, Text.chosenEdits, Text.Edit.choose,
    Text.applyEdits?]

private theorem progress_fixScript {σ : Type} (hpolicy : plan.policy = .applyAll)
    (decider : Decider σ) (sources : Sources) (progress : Fixing × σ)
    (entry : String × List Symbol) :
    (plan.fixScript decider sources progress entry).1.progress =
      progress.1.progress.apply plan.root (.ofScript sources plan.stamp.iso entry) := by
  obtain ⟨fixing, state⟩ := progress
  unfold Plan.fixScript Progress.apply
  dsimp only [Removal.ofScript, Fixing.progress]
  cases fixing.disk.loadSource (sources.resolve entry.1) with
  | error error => simp [Except.toOption]
  | ok source =>
    dsimp only [Except.toOption]
    rw [Plan.acceptFunctions, if_pos hpolicy]
    dsimp only
    rw [commentedScript_inOrder]
    by_cases happlied : (commentedScript source entry.2 plan.stamp.iso).2 = 0
    · simp [happlied]
    · have hchosen : (Plan.inOrder entry.2).isEmpty = false := by
        rw [List.isEmpty_eq_false_iff]
        intro hnone
        rw [← commentedScript_inOrder, hnone] at happlied
        exact happlied (commentedScript_nil source plan.stamp.iso)
      rw [if_neg (by simp [hchosen, happlied]), if_neg happlied]
      dsimp only
      have hwritten := progress_writeFile plan (sources.resolve entry.1)
        (commentedScript source entry.2 plan.stamp.iso).1 fixing
      revert hwritten
      generalize plan.writeFile (sources.resolve entry.1)
        (commentedScript source entry.2 plan.stamp.iso).1 fixing = result
      intro hwritten
      obtain ⟨worked, written⟩ := result
      cases worked with
      | false => exact hwritten
      | true => exact hwritten

private theorem isEmpty_sortedNames (names : List String) :
    (sortedNames names).isEmpty = names.isEmpty := by
  rw [Bool.eq_iff_iff, List.isEmpty_iff, List.isEmpty_iff, List.eq_nil_iff_forall_not_mem,
    List.eq_nil_iff_forall_not_mem]
  simp

/-- Applying everything goes through the removals. -/
theorem progress_apply {σ : Type} (hpolicy : plan.policy = .applyAll) (decider : Decider σ)
    (scan : Scan) (candidates : List Candidate) (disk : Disk) (state : σ) :
    (plan.apply decider scan candidates disk state).1.progress =
      (removals plan.stamp.iso scan candidates).foldl (Progress.apply plan.root)
        ⟨disk, { stamp := plan.stamp }, [], []⟩ := by
  have hsheets : ∀ fixing : Fixing,
      (plan.fixSheets scan (sortedNames scan.findings.unusedClasses) fixing).progress =
        ((if scan.findings.unusedClasses.isEmpty then [] else scan.sources.stylesheets).map
          (.ofSheet scan.findings.unusedClasses)).foldl (Progress.apply plan.root)
            fixing.progress := by
    intro fixing
    unfold Plan.fixSheets
    rw [isEmpty_sortedNames]
    split
    · rfl
    · rw [List.foldl_map]
      refine (List.foldl_hom Fixing.progress ?_).symm
      intro fixing path
      rw [progress_fixSheet, Removal.ofSheet_congr fun name => mem_sortedNames]
  have hscripts : ∀ progress : Fixing × σ,
      ((safeByFile candidates).foldl (plan.fixScript decider scan.sources) progress).1.progress =
        ((safeByFile candidates).map (.ofScript scan.sources plan.stamp.iso)).foldl
          (Progress.apply plan.root) progress.1.progress := by
    intro progress
    rw [List.foldl_map]
    refine (List.foldl_hom (fun progress : Fixing × σ => progress.1.progress) ?_).symm
    intro progress entry
    exact (progress_fixScript hpolicy decider scan.sources progress entry).symm
  unfold Plan.apply
  rw [Plan.acceptClasses, if_pos hpolicy, removals, List.foldl_append]
  refine (hscripts _).trans ?_
  dsimp only
  rw [hsheets]
  rfl

end Deadwood.Fix
