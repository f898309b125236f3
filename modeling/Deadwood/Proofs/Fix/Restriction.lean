/-
# Asking and applying

A fix that asks does the same as one that applies everything, on a scan without the
classes that were not accepted and on candidates without the functions that were
kept. The notes on the answers tell which these are.

Scripts that cannot be read are not asked about. They are listed by both fixes.
-/

import Deadwood.Proofs.Fix.Interview
import Deadwood.Proofs.Fix.Job
import Mathlib.Data.List.Nodup

namespace Deadwood.Fix

variable {σ τ : Type} {plan : Plan} {decider : Decider σ} {sources : Sources}
  {fixing : Fixing} {state : σ} {entry : String × List Symbol}

/-! ## One script -/

namespace Plan

/-- Comments chosen functions out of a script that was read. -/
def commentChosen (plan : Plan) (path : Path) (source : String) (chosen : List Symbol)
    (fixing : Fixing) : Fixing :=
  let (content, applied) := commentedScript source chosen plan.stamp.iso
  if chosen.isEmpty || applied = 0 then fixing
  else
    match plan.writeFile path content fixing with
    | (true, fixing) =>
      let functions := fixing.report.functions ++ chosen.map (·.id)
      { fixing with report := { fixing.report with functions } }
    | (false, fixing) => fixing

theorem fixScript_of_read {source : String} {chosen : List Symbol} {after : σ}
    (hload : fixing.disk.loadSource (sources.resolve entry.1) = .ok source)
    (haccept : plan.acceptFunctions decider source entry.2 state = (chosen, after)) :
    plan.fixScript decider sources (fixing, state) entry =
      (plan.commentChosen (sources.resolve entry.1) source chosen fixing, after) := by
  unfold fixScript commentChosen
  dsimp only
  rw [hload]
  dsimp only
  rw [haccept]
  dsimp only
  split
  · rfl
  · rcases plan.writeFile _ _ fixing with ⟨worked, written⟩
    cases worked <;> rfl

/-- Notes that a script could not be read. -/
def noteUnread (fixing : Fixing) (file : String) (error : SourceError) : Fixing :=
  let fault : FileFault := ⟨file, error.message⟩
  { fixing with report := { fixing.report with skipped := fixing.report.skipped ++ [fault] } }

theorem fixScript_of_unread {error : SourceError}
    (hload : fixing.disk.loadSource (sources.resolve entry.1) = .error error) :
    plan.fixScript decider sources (fixing, state) entry =
      (noteUnread fixing entry.1 error, state) := by
  unfold fixScript noteUnread
  dsimp only
  rw [hload]

/-- The same fix, which asks. -/
def asking (plan : Plan) : Plan :=
  { plan with policy := .interactive }

/-- The same fix, which applies everything. -/
def applying (plan : Plan) : Plan :=
  { plan with policy := .applyAll }

@[simp]
theorem policy_asking (plan : Plan) : plan.asking.policy = .interactive := rfl

@[simp]
theorem policy_applying (plan : Plan) : plan.applying.policy = .applyAll := rfl

/-- What was skipped stays listed. -/
theorem keeps_mem_skipped (plan : Plan) (fault : FileFault) :
    plan.Keeps (fun _ => True) fun fixing => fault ∈ fixing.report.skipped where
  write {fixing path} content hfault _ := by
    unfold writeFile
    rcases fixing.editor.overwrite fixing.disk path content with ⟨_ | error, editor, disk⟩
    · exact hfault
    · exact List.mem_append_left _ hfault
  skip other hfault := List.mem_append_left _ hfault
  note report _ hskipped hfault := hskipped ▸ hfault

end Plan

/-- What is left of the functions of a script after answers, if any are. -/
def restricted? (answers : List (Symbol × FunctionDecision)) (entry : String × List Symbol) :
    Option (String × List Symbol) :=
  let functions := withoutKept some (answersOn answers) entry.2
  if functions.isEmpty then none else some (entry.1, functions)

/-- The functions of a script were gone through, or the script could not be read and
nothing was asked. -/
def Questioned (report : Report) (entry : String × List Symbol)
    (answers : List (Symbol × FunctionDecision)) : Prop :=
  Interview .commentAllInFile (Plan.inOrder entry.2) answers ∨
    answers = [] ∧ ∃ fault ∈ report.skipped, fault.file = entry.1

/-- Asking about a script does what applying does to what is left of its functions. -/
theorem exists_fixScript_asking (plan : Plan) (decider : Decider σ) (sources : Sources)
    (fixing : Fixing) (state : σ) (hne : entry.2 ≠ []) :
    ∃ answers final after,
      Questioned after.report entry answers ∧
      plan.asking.fixScript decider sources (fixing, state) entry = (after, final) ∧
      (∀ transcript, plan.asking.fixScript decider.recording sources
        (fixing, state, transcript) entry = (after, final, transcript.addFunctions answers)) ∧
      ∀ {τ : Type} (other : Decider τ) (idle : τ),
        (restricted? answers entry).toList.foldl (plan.applying.fixScript other sources)
          (fixing, idle) = (after, idle) := by
  cases hload : fixing.disk.loadSource (sources.resolve entry.1) with
  | error error =>
    refine ⟨[], state, Plan.noteUnread fixing entry.1 error, ?_, ?_, ?_, ?_⟩
    · exact .inr ⟨rfl, ⟨entry.1, error.message⟩, List.mem_append_right _ List.mem_cons_self, rfl⟩
    · exact Plan.fixScript_of_unread hload
    · intro transcript
      rw [Plan.fixScript_of_unread hload, Transcript.addFunctions_nil]
    · intro τ other idle
      have hall : restricted? [] entry = some entry := by
        have hnone : answersOn [] = fun _ => [] := rfl
        rw [restricted?, hnone, withoutKept_of_none]
        simp [hne]
      rw [hall]
      show plan.applying.fixScript other sources (fixing, idle) entry = _
      exact Plan.fixScript_of_unread hload
  | ok source =>
    obtain ⟨answers, final, interview, hplain, hrecorded⟩ := askFunctions_recording decider
      (fun function => String.ofList
        (Script.excerpt source.toList function plan.settings.excerptContext))
      (Plan.inOrder entry.2) state
    rw [withoutKept_inOrder] at hplain
    refine ⟨answers, final, _, .inl interview, Plan.fixScript_of_read hload hplain, ?_, ?_⟩
    · intro transcript
      apply Plan.fixScript_of_read hload
      rw [← withoutKept_inOrder]
      exact hrecorded transcript
    · intro τ other idle
      rw [restricted?]
      split
      · rename_i hempty
        rw [List.isEmpty_iff.mp hempty, Plan.inOrder, List.mergeSort_nil]
        rfl
      · show plan.applying.fixScript other sources (fixing, idle)
          (entry.1, withoutKept some (answersOn answers) entry.2) = _
        exact Plan.fixScript_of_read hload rfl

/-! ## All scripts -/

/-- The answers on the functions of a file. -/
def answersIn (file : String) (answers : List (Symbol × FunctionDecision)) :
    List (Symbol × FunctionDecision) :=
  answers.filter (·.1.file == some file)

theorem answersIn_append (file : String) (first rest : List (Symbol × FunctionDecision)) :
    answersIn file (first ++ rest) = answersIn file first ++ answersIn file rest :=
  List.filter_append _ _

theorem answersIn_eq_self {file : String} {answers : List (Symbol × FunctionDecision)}
    (hfile : ∀ answer ∈ answers, answer.1.file = some file) : answersIn file answers = answers :=
  List.filter_eq_self.mpr fun answer hanswer => by simp [hfile answer hanswer]

theorem answersIn_eq_nil {file : String} {answers : List (Symbol × FunctionDecision)}
    (hfile : ∀ answer ∈ answers, answer.1.file ≠ some file) : answersIn file answers = [] :=
  List.filter_eq_nil_iff.mpr fun answer hanswer => by simp [hfile answer hanswer]

/-- Functions grouped by the files that declare them. -/
structure IsGrouped (entries : List (String × List Symbol)) : Prop where
  apart : (entries.map (·.1)).Nodup
  inhabited : ∀ entry ∈ entries, entry.2 ≠ []
  own : ∀ entry ∈ entries, ∀ function ∈ entry.2, function.file = some entry.1

theorem IsGrouped.tail {entries : List (String × List Symbol)}
    (hgrouped : IsGrouped (entry :: entries)) : IsGrouped entries where
  apart := (List.nodup_cons.mp hgrouped.apart).2
  inhabited other hother := hgrouped.inhabited other (List.mem_cons_of_mem _ hother)
  own other hother := hgrouped.own other (List.mem_cons_of_mem _ hother)

theorem IsGrouped.ne_of_mem {entries : List (String × List Symbol)}
    (hgrouped : IsGrouped (entry :: entries)) {other : String × List Symbol}
    (hother : other ∈ entries) : other.1 ≠ entry.1 := fun hsame =>
  (List.nodup_cons.mp hgrouped.apart).1 (List.mem_map.mpr ⟨other, hother, hsame⟩)

/-- The answers on a function are among those on its file. -/
theorem answersOn_answersIn {file : String} {function : Symbol}
    (hfile : function.file = some file) (answers : List (Symbol × FunctionDecision)) :
    answersOn (answersIn file answers) function = answersOn answers function := by
  rw [answersOn, answersIn, List.filter_filter, answersOn]
  congr 1
  apply List.filter_congr
  intro answer _
  by_cases hanswer : answer.1 = function
  · simp [hanswer, hfile]
  · simp [hanswer]

/-- What is left of the functions of a script depends on the answers on them alone. -/
theorem restricted?_answersIn (hown : ∀ function ∈ entry.2, function.file = some entry.1)
    (answers : List (Symbol × FunctionDecision)) :
    restricted? (answersIn entry.1 answers) entry = restricted? answers entry := by
  have hsame : withoutKept some (answersOn (answersIn entry.1 answers)) entry.2 =
      withoutKept some (answersOn answers) entry.2 := by
    apply withoutKept_congr
    intro function hfunction subject hsubject
    obtain rfl := Option.some.inj hsubject
    exact answersOn_answersIn (hown function hfunction) answers
  simp only [restricted?, hsame]

/-- The answers on the functions of a script are about these. -/
theorem Questioned.file_eq {report : Report} {answers : List (Symbol × FunctionDecision)}
    (hquestioned : Questioned report entry answers)
    (hown : ∀ function ∈ entry.2, function.file = some entry.1) :
    ∀ answer ∈ answers, answer.1.file = some entry.1 := by
  intro answer hanswer
  rcases hquestioned with interview | ⟨rfl, -⟩
  · exact hown _ (List.mem_mergeSort.mp (interview.mem_of_mem hanswer))
  · simp at hanswer

section Parted

variable {entries : List (String × List Symbol)} {first rest : List (Symbol × FunctionDecision)}
  (hgrouped : IsGrouped (entry :: entries))
  (hfirst : ∀ answer ∈ first, answer.1.file = some entry.1)
  (hrest : rest = entries.flatMap fun other => answersIn other.1 rest)

include hgrouped hfirst

/-- The answers on the other scripts are found behind those on the first. -/
theorem answersIn_append_of_mem {other : String × List Symbol} (hother : other ∈ entries) :
    answersIn other.1 (first ++ rest) = answersIn other.1 rest := by
  rw [answersIn_append, answersIn_eq_nil, List.nil_append]
  intro answer hanswer hfile
  exact hgrouped.ne_of_mem hother (Option.some.inj (hfile.symm.trans (hfirst answer hanswer)))

include hrest

/-- The answers on the first script are found before those on the others. -/
theorem answersIn_append_of_head : answersIn entry.1 (first ++ rest) = first := by
  rw [answersIn_append, answersIn_eq_self hfirst, answersIn_eq_nil, List.append_nil]
  intro answer hanswer hfile
  rw [hrest] at hanswer
  obtain ⟨other, hother, hanswer⟩ := List.mem_flatMap.mp hanswer
  have hfile' : answer.1.file = some other.1 := by simpa using (List.mem_filter.mp hanswer).2
  exact hgrouped.ne_of_mem hother (Option.some.inj (hfile'.symm.trans hfile))

/-- What is left of each script is decided by the answers on it. -/
theorem filterMap_restricted?_append :
    (entry :: entries).filterMap (restricted? (first ++ rest)) =
      (restricted? first entry).toList ++ entries.filterMap (restricted? rest) := by
  have hentry : restricted? (first ++ rest) entry = restricted? first entry := by
    rw [← restricted?_answersIn (hgrouped.own entry List.mem_cons_self),
      answersIn_append_of_head hgrouped hfirst hrest]
  have hentries : entries.filterMap (restricted? (first ++ rest)) =
      entries.filterMap (restricted? rest) := by
    apply List.filterMap_congr
    intro other hother
    have hown := hgrouped.tail.own other hother
    rw [← restricted?_answersIn hown, answersIn_append_of_mem hgrouped hfirst hother,
      restricted?_answersIn hown]
  rw [List.filterMap_cons, hentry, hentries]
  cases restricted? first entry <;> rfl

end Parted

/-- Asking about all scripts does what applying does to what is left of their
functions. -/
theorem exists_scripts_asking (plan : Plan) (decider : Decider σ) (sources : Sources)
    {entries : List (String × List Symbol)} (hgrouped : IsGrouped entries)
    (fixing : Fixing) (state : σ) :
    ∃ answers final after,
      answers = entries.flatMap (fun entry => answersIn entry.1 answers) ∧
      (∀ entry ∈ entries, Questioned after.report entry (answersIn entry.1 answers)) ∧
      entries.foldl (plan.asking.fixScript decider sources) (fixing, state) = (after, final) ∧
      (∀ transcript, entries.foldl (plan.asking.fixScript decider.recording sources)
        (fixing, state, transcript) = (after, final, transcript.addFunctions answers)) ∧
      ∀ {τ : Type} (other : Decider τ) (idle : τ),
        (entries.filterMap (restricted? answers)).foldl (plan.applying.fixScript other sources)
          (fixing, idle) = (after, idle) := by
  induction entries generalizing fixing state with
  | nil => exact ⟨[], state, fixing, by simp⟩
  | cons entry entries ih =>
    obtain ⟨first, between, middle, hfirst, hplain, hrecorded, happlied⟩ :=
      exists_fixScript_asking plan decider sources fixing state
        (hgrouped.inhabited entry List.mem_cons_self)
    obtain ⟨rest, final, after, hrest, hquestioned, hplain', hrecorded', happlied'⟩ :=
      ih hgrouped.tail middle between
    -- The answers on this script and those on the others are apart.
    have hhere := hfirst.file_eq (hgrouped.own entry List.mem_cons_self)
    have hanswers := answersIn_append_of_head hgrouped hhere hrest
    have hanswers' : ∀ other ∈ entries,
        answersIn other.1 (first ++ rest) = answersIn other.1 rest := fun _ =>
      answersIn_append_of_mem hgrouped hhere
    refine ⟨first ++ rest, final, after, ?_, ?_, ?_, ?_, ?_⟩
    · rw [List.flatMap_cons, hanswers, List.append_cancel_left_eq, List.flatMap_congr hanswers']
      exact hrest
    · intro other hother
      rcases List.mem_cons.mp hother with rfl | hother
      · rw [hanswers]
        apply hfirst.imp_right
        rintro ⟨hnone, fault, hfault, hfile⟩
        have hlisted : fault ∈ (entries.foldl (plan.asking.fixScript decider sources)
            (middle, between)).1.report.skipped :=
          (plan.asking.keeps_mem_skipped fault).scripts hfault fun _ _ => trivial
        rw [hplain'] at hlisted
        exact ⟨hnone, fault, hlisted, hfile⟩
      · rw [hanswers' other hother]
        exact hquestioned other hother
    · rw [List.foldl_cons, hplain, hplain']
    · intro transcript
      rw [List.foldl_cons, hrecorded, hrecorded', Transcript.addFunctions_addFunctions]
    · intro τ other idle
      rw [filterMap_restricted?_append hgrouped hhere hrest, List.foldl_append, happlied, happlied']

/-! ## Candidates -/

/-- The function of a candidate that can go. -/
def removable? (candidate : Candidate) : Option Symbol :=
  if candidate.verdict.isSafe then some candidate.symbol else none

theorem safeByFile_eq (candidates : List Candidate) :
    safeByFile candidates =
      (sortedNames ((candidates.filterMap removable?).filterMap (·.file))).map fun file =>
        (file, (candidates.filterMap removable?).filter (·.file == some file)) := by
  have hsafe : (candidates.filter (·.verdict.isSafe)).map (·.symbol) =
      candidates.filterMap removable? := by
    rw [← List.filterMap_eq_map, List.filterMap_filter]
    rfl
  rw [safeByFile, hsafe]

theorem isGrouped_safeByFile (candidates : List Candidate) :
    IsGrouped (safeByFile candidates) where
  apart := nodup_map_fst_safeByFile candidates
  inhabited entry hentry := by
    rw [safeByFile_eq, List.mem_map] at hentry
    obtain ⟨file, hfile, rfl⟩ := hentry
    obtain ⟨function, hfunction, hown⟩ := List.mem_filterMap.mp (mem_sortedNames.mp hfile)
    apply List.ne_nil_of_mem
    exact List.mem_filter.mpr ⟨hfunction, by simpa using hown⟩
  own entry hentry function hfunction := by
    rw [safeByFile_eq, List.mem_map] at hentry
    obtain ⟨file, -, rfl⟩ := hentry
    simpa using (List.mem_filter.mp hfunction).2

/-- The candidates that are left have what is left of the functions of each file. -/
theorem safeByFile_withoutKept (answers : List (Symbol × FunctionDecision))
    (candidates : List Candidate) :
    safeByFile (withoutKept removable? (answersOn answers) candidates) =
      (safeByFile candidates).filterMap (restricted? answers) := by
  rw [safeByFile_eq, safeByFile_eq, filterMap_withoutKept, List.filterMap_map]
  generalize candidates.filterMap removable? = functions
  have hgroup : ∀ file,
      (withoutKept some (answersOn answers) functions).filter (·.file == some file) =
        withoutKept some (answersOn answers) (functions.filter (·.file == some file)) := fun file =>
    filter_withoutKept _ _ functions
  -- Only the files of which something is left are still listed.
  have hfiles : sortedNames ((withoutKept some (answersOn answers) functions).filterMap (·.file)) =
      (sortedNames (functions.filterMap (·.file))).filter fun file =>
        !(withoutKept some (answersOn answers)
          (functions.filter (·.file == some file))).isEmpty := by
    apply (ascending_sortedNames _).eq_of_mem_iff ((ascending_sortedNames _).filter _)
    intro file
    rw [mem_sortedNames, List.mem_filter, mem_sortedNames, ← hgroup, Bool.not_eq_true',
      List.isEmpty_eq_false_iff_exists_mem]
    simp only [List.mem_filterMap, List.mem_filter, beq_iff_eq]
    constructor
    · rintro ⟨function, hfunction, hfile⟩
      have hlisted := (withoutKept_sublist some _ functions).subset hfunction
      exact ⟨⟨function, hlisted, hfile⟩, function, hfunction, hfile⟩
    · rintro ⟨-, function, hfunction, hfile⟩
      exact ⟨function, hfunction, hfile⟩
  rw [hfiles, ← List.filterMap_eq_map, List.filterMap_filter]
  apply List.filterMap_congr
  intro file _
  simp only [hgroup, Function.comp_apply, restricted?]
  cases (withoutKept some (answersOn answers) _).isEmpty <;> rfl

/-! ## Whole fixes -/

namespace Transcript

/-- A scan with the classes alone that were accepted. -/
def restrictScan (transcript : Transcript) (scan : Scan) : Scan :=
  let unusedClasses := scan.findings.unusedClasses.filter (· ∈ processed transcript.classes)
  { scan with findings := { scan.findings with unusedClasses } }

/-- Candidates without the functions that were kept. -/
def restrictCandidates (transcript : Transcript) (candidates : List Candidate) :
    List Candidate :=
  withoutKept removable? (answersOn transcript.functions) candidates

/-- Whether a function that can go was answered to be kept. -/
def keeps (transcript : Transcript) (candidate : Candidate) : Bool :=
  candidate.verdict.isSafe &&
    transcript.functions.any fun answer => answer.1 = candidate.symbol ∧ answer.2 = .keep

theorem keeps_iff {transcript : Transcript} {candidate : Candidate} :
    transcript.keeps candidate = true ↔
      candidate.verdict.isSafe = true ∧ (candidate.symbol, .keep) ∈ transcript.functions := by
  simp [keeps]

end Transcript

/-- A run comes to what is accepted of the classes and to going through the scripts. -/
theorem Plan.run_eq_of_scripts {scan : Scan} {candidates : List Candidate} {disk : Disk}
    {classes : List String} {between final : σ} {after : Fixing}
    (hpolicy : plan.policy ≠ .patchOnly)
    (hclasses : plan.acceptClasses decider scan.findings.unusedClasses state = (classes, between))
    (hscripts : (safeByFile candidates).foldl (plan.fixScript decider scan.sources)
      (plan.fixSheets scan classes { disk, editor := { stamp := plan.stamp } }, between) =
        (after, final)) :
    plan.run decider scan candidates disk state =
      (.ok { after.report with backups := after.editor.backups.length }, after.disk, final) := by
  simp only [run, if_neg hpolicy, apply, hclasses, hscripts]

/-- The classes that were accepted are left of a scan. -/
theorem sortedNames_processed {names : List String} {answers : List (String × ClassDecision)}
    (interview : Interview .skipAll names answers) :
    sortedNames (names.filter (· ∈ processed answers)) = sortedNames (processed answers) := by
  apply sortedNames_congr
  intro name
  rw [List.mem_filter, decide_eq_true_eq]
  exact ⟨And.right, fun hname => ⟨mem_of_mem_processed interview hname, hname⟩⟩

/-- At most one answer is on a function that is listed once. -/
theorem length_answersOn_le {settling : FunctionDecision} {functions : List Symbol}
    {answers : List (Symbol × FunctionDecision)} (interview : Interview settling functions answers)
    (hnodup : functions.Nodup) (function : Symbol) : (answersOn answers function).length ≤ 1 := by
  have honce : ((answers.filter (·.1 = function)).map (·.1)).Nodup :=
    (hnodup.sublist interview.sublist).sublist (List.filter_sublist.map _)
  have hsame : ∀ other ∈ (answers.filter (·.1 = function)).map (·.1), other = function := by
    intro other hother
    obtain ⟨answer, hanswer, rfl⟩ := List.mem_map.mp hother
    simpa using (List.mem_filter.mp hanswer).2
  rw [List.eq_replicate_of_mem hsame, List.nodup_replicate, List.length_map] at honce
  rwa [answersOn, List.length_map]

theorem head?_answersOn_eq_some_iff {answers : List (Symbol × FunctionDecision)}
    {function : Symbol} (hone : (answersOn answers function).length ≤ 1)
    (decision : FunctionDecision) :
    (answersOn answers function).head? = some decision ↔ (function, decision) ∈ answers := by
  have hmem : (function, decision) ∈ answers ↔ decision ∈ answersOn answers function := by
    simp [answersOn]
  rw [hmem]
  cases hleft : answersOn answers function with
  | nil => simp
  | cons first others =>
    rw [hleft] at hone
    obtain rfl : others = [] := by simpa using hone
    simp [eq_comm]

/-- If no function that can go is listed twice, the candidates that are left are those
whose functions cannot go or were not kept. -/
theorem Transcript.restrictCandidates_of_nodup {transcript : Transcript}
    {candidates : List Candidate} {report : Report}
    (hnodup : (candidates.filterMap removable?).Nodup)
    (hanswers : transcript.functions =
      (safeByFile candidates).flatMap (fun entry => answersIn entry.1 transcript.functions))
    (hquestioned : ∀ entry ∈ safeByFile candidates,
      Questioned report entry (answersIn entry.1 transcript.functions)) :
    transcript.restrictCandidates candidates = candidates.filter (!transcript.keeps ·) := by
  have hone : ∀ candidate ∈ candidates, candidate.verdict.isSafe = true →
      (answersOn transcript.functions candidate.symbol).length ≤ 1 := by
    intro candidate hcandidate hsafe
    cases hfile : candidate.symbol.file with
    | none =>
      have hnone : answersOn transcript.functions candidate.symbol = [] := by
        rw [answersOn, List.map_eq_nil_iff, List.filter_eq_nil_iff]
        intro answer hanswer
        rw [hanswers] at hanswer
        obtain ⟨entry, -, hanswer⟩ := List.mem_flatMap.mp hanswer
        rw [decide_eq_true_eq]
        intro hsame
        rw [answersIn, List.mem_filter, hsame, hfile] at hanswer
        simp at hanswer
      simp [hnone]
    | some file =>
      have hlisted : candidate.symbol ∈ candidates.filterMap removable? :=
        List.mem_filterMap.mpr ⟨candidate, hcandidate, if_pos hsafe⟩
      have hentry : (file, (candidates.filterMap removable?).filter (·.file == some file)) ∈
          safeByFile candidates := by
        rw [safeByFile_eq]
        apply List.mem_map_of_mem
        exact mem_sortedNames.mpr (List.mem_filterMap.mpr ⟨_, hlisted, hfile⟩)
      rw [← answersOn_answersIn hfile]
      rcases hquestioned _ hentry with interview | ⟨hnone, -⟩
      · apply length_answersOn_le interview
        exact (List.mergeSort_perm _ _).nodup_iff.mpr (hnodup.filter _)
      · rw [hnone]
        simp [answersOn]
  rw [restrictCandidates, withoutKept_of_nodup hnodup]
  apply List.filter_congr
  intro candidate hcandidate
  rw [Bool.eq_iff_iff, Bool.not_eq_true', ← Bool.not_eq_true, keeps_iff]
  by_cases hsafe : candidate.verdict.isSafe = true
  · have hkept := head?_answersOn_eq_some_iff (hone candidate hcandidate hsafe) .keep
    simp [removable?, hsafe, hkept]
  · simp [removable?, hsafe]

/-- A fix that asks does what applying everything does to what was accepted. -/
theorem run_asking_eq_run_applying (plan : Plan) (decider : Decider σ) (scan : Scan)
    (candidates : List Candidate) (disk : Disk) (state : σ) :
    ∃ report after final transcript,
      plan.asking.run decider scan candidates disk state = (.ok report, after, final) ∧
      plan.asking.run decider.recording scan candidates disk (state, {}) =
        (.ok report, after, final, transcript) ∧
      (∀ {τ : Type} (other : Decider τ) (idle : τ),
        plan.applying.run other (transcript.restrictScan scan)
          (transcript.restrictCandidates candidates) disk idle = (.ok report, after, idle)) ∧
      Interview .skipAll scan.findings.unusedClasses transcript.classes ∧
      transcript.functions =
        (safeByFile candidates).flatMap (fun entry => answersIn entry.1 transcript.functions) ∧
      (∀ entry ∈ safeByFile candidates,
        Questioned report entry (answersIn entry.1 transcript.functions)) ∧
      ((candidates.filterMap removable?).Nodup →
        transcript.restrictCandidates candidates = candidates.filter (!transcript.keeps ·)) := by
  obtain ⟨classes, between, interview, hplain, hrecorded⟩ :=
    askClasses_recording decider scan.findings.unusedClasses state
  obtain ⟨functions, final, after, hanswers, hquestioned, hscripts, hscripts', happlied⟩ :=
    exists_scripts_asking plan decider scan.sources (isGrouped_safeByFile candidates)
      (plan.fixSheets scan (sortedNames (processed classes))
        { disk, editor := { stamp := plan.stamp } }) between
  rw [← safeByFile_withoutKept] at happlied
  refine ⟨{ after.report with backups := after.editor.backups.length }, after.disk, final,
    ⟨classes, functions⟩, ?_, ?_, ?_, interview, hanswers, hquestioned, ?_⟩
  · have hclasses : plan.asking.acceptClasses decider scan.findings.unusedClasses state =
        (sortedNames (processed classes), between) := by
      rw [Plan.acceptClasses, if_neg (by simp), hplain]
    exact Plan.run_eq_of_scripts (by simp) hclasses hscripts
  · have hclasses : plan.asking.acceptClasses decider.recording scan.findings.unusedClasses
        (state, {}) = (sortedNames (processed classes), between, ⟨classes, []⟩) := by
      rw [Plan.acceptClasses, if_neg (by simp), hrecorded]
      rfl
    exact Plan.run_eq_of_scripts (by simp) hclasses (hscripts' ⟨classes, []⟩)
  · intro τ other idle
    have hclasses : plan.applying.acceptClasses other
        (scan.findings.unusedClasses.filter (· ∈ processed classes)) idle =
          (sortedNames (processed classes), idle) := by
      rw [Plan.acceptClasses, if_pos plan.policy_applying, sortedNames_processed interview]
    exact Plan.run_eq_of_scripts (by simp) hclasses (happlied other idle)
  · intro hnodup
    exact Transcript.restrictCandidates_of_nodup hnodup hanswers hquestioned

/-! ## A fix that was told to keep one function -/

/-- A script that declares two functions. -/
def pairScript : String :=
  "function first()\x7b\x7dfunction second()\x7b\x7d"

def pairDisk : Disk where
  entries := [(["app.js"], .file pairScript.toUTF8)]

def firstFunction : Symbol :=
  .ofFunction "first" "app.js" ⟨0, 18, 1, 1⟩

def secondFunction : Symbol :=
  .ofFunction "second" "app.js" ⟨18, 37, 1, 1⟩

def pairPlan : Plan :=
  ⟨.ofLocation [], {}, ⟨"100", "1970-01-01T00:00:00.100Z"⟩, .interactive⟩

def pairScan (classes : List String) : Scan where
  sources := { root := .ofLocation [], scripts := [.ofLocation ["app.js"]] }
  findings := { unusedClasses := classes }

/-- Takes out the class `menu` alone, and keeps the function `first`. -/
def pairDecider : Decider Unit where
  onClass name state := (if name = "menu" then .process else .skipAll, state)
  onFunction function _ state :=
    (if function.name = "first" then .keep else .commentAllInFile, state)

theorem pairDisk_loadSource :
    pairDisk.loadSource ((Path.ofLocation []).down ["app.js"]) = .ok pairScript := by
  have hproject : pairDisk.Project (.ofLocation []) [] :=
    .ofEntries (by decide) (by decide) (by simp [pairDisk])
  apply hproject.loadSource_down
  · rfl
  · decide +kernel

theorem safeByFile_pair :
    safeByFile [⟨firstFunction, .safe⟩, ⟨secondFunction, .safe⟩] =
      [("app.js", [firstFunction, secondFunction])] := by
  have hfiles : sortedNames ["app.js", "app.js"] = ["app.js"] := by
    rw [← sortedNames_singleton "app.js"]
    exact sortedNames_congr (by simp)
  exact congrArg (List.map _) hfiles

/-- What is noted down when it is asked about the two functions and two classes. -/
def pairTranscript : Transcript where
  classes := [("menu", .process), ("tab", .skipAll)]
  functions := [(firstFunction, .keep), (secondFunction, .commentAllInFile)]

theorem run_recording_pair :
    (pairPlan.asking.run pairDecider.recording (pairScan ["menu", "tab"])
      [⟨firstFunction, .safe⟩, ⟨secondFunction, .safe⟩] pairDisk ((), {})).2.2 =
        ((), pairTranscript) := by
  have hsorted : Plan.inOrder [firstFunction, secondFunction] = [firstFunction, secondFunction] :=
    List.mergeSort_of_pairwise (by decide)
  have haccepted : pairPlan.asking.acceptFunctions pairDecider.recording pairScript
      [firstFunction, secondFunction] ((), ⟨pairTranscript.classes, []⟩) =
        ([secondFunction], (), pairTranscript) := by
    rw [Plan.acceptFunctions, if_neg (by simp), hsorted]
    rfl
  have hclasses : pairPlan.asking.acceptClasses pairDecider.recording ["menu", "tab"] ((), {}) =
      (["menu"], (), ⟨pairTranscript.classes, []⟩) :=
    congrArg (·, (), _) (sortedNames_singleton "menu")
  have hload : pairDisk.loadSource ((pairScan ["menu", "tab"]).sources.resolve "app.js") =
      .ok pairScript := pairDisk_loadSource
  have hsheets : pairPlan.asking.fixSheets (pairScan ["menu", "tab"]) ["menu"]
      { disk := pairDisk, editor := { stamp := pairPlan.stamp } } =
        ⟨pairDisk, { stamp := pairPlan.stamp }, { classes := ["menu"] }⟩ := rfl
  have hscript : ∃ after, pairPlan.asking.fixScript pairDecider.recording
      (pairScan ["menu", "tab"]).sources
      (⟨pairDisk, { stamp := pairPlan.stamp }, { classes := ["menu"] }⟩, (),
        ⟨pairTranscript.classes, []⟩) ("app.js", [firstFunction, secondFunction]) =
      (after, (), pairTranscript) := ⟨_, Plan.fixScript_of_read hload haccepted⟩
  obtain ⟨after, hscript⟩ := hscript
  have hscripts : (safeByFile [⟨firstFunction, .safe⟩, ⟨secondFunction, .safe⟩]).foldl
      (pairPlan.asking.fixScript pairDecider.recording (pairScan ["menu", "tab"]).sources)
      (pairPlan.asking.fixSheets (pairScan ["menu", "tab"]) ["menu"]
        { disk := pairDisk, editor := { stamp := pairPlan.stamp } }, (),
          ⟨pairTranscript.classes, []⟩) = (after, (), pairTranscript) := by
    rw [safeByFile_pair, hsheets, List.foldl_cons, hscript, List.foldl_nil]
  rw [Plan.run_eq_of_scripts (by simp) hclasses hscripts]

/-- The first function and the second class stay, as if they had not been found. -/
theorem run_asking_eq_run_applying_pair :
    ∃ report after,
      pairPlan.asking.run pairDecider (pairScan ["menu", "tab"])
        [⟨firstFunction, .safe⟩, ⟨secondFunction, .safe⟩] pairDisk () =
          (.ok report, after, ()) ∧
      pairPlan.applying.run scripted (pairScan ["menu"]) [⟨secondFunction, .safe⟩] pairDisk {} =
        (.ok report, after, {}) := by
  obtain ⟨report, after, final, transcript, hasking, hrecorded, happlying, -⟩ :=
    run_asking_eq_run_applying pairPlan pairDecider (pairScan ["menu", "tab"])
      [⟨firstFunction, .safe⟩, ⟨secondFunction, .safe⟩] pairDisk ()
  have htranscript := run_recording_pair
  rw [hrecorded] at htranscript
  obtain rfl : transcript = pairTranscript := (Prod.mk.inj htranscript).2
  exact ⟨report, after, hasking, happlying scripted {}⟩

end Deadwood.Fix
