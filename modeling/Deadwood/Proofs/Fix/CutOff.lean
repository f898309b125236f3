/-
# Answers that are cut off

One who answers may stop before all questions were asked. On a console the input ends. What is
asked from then on is left as it is: a class is not taken out, and a function is kept.

So if the input of one run is that of another up to the end of some line, both do the same as
long as the lines last. Then the first only goes on through the scripts without choosing
anything, whatever the other does.
-/

import Deadwood.Fix.Console
import Deadwood.Proofs.Fix.Reported
import Deadwood.Proofs.Fix.Restriction

namespace Deadwood.Fix

open Deadwood.Script (removalEdit?)
open Deadwood.Text (chosenEdits mem_of_mem_chosenEdits)

variable {σ α : Type} {plan : Plan} {decider : Decider σ} {sources : Sources} {fixing : Fixing}
  {follows : σ → σ → Prop} {spent : σ → Prop} {state short long : σ}

/-! ## Two who answer -/

/-- One who answers follows another: both give the same answers, except that the first may be
spent. Then nothing is removed for it any more. -/
structure Decider.CutsOff (decider : Decider σ) (follows : σ → σ → Prop) (spent : σ → Prop) :
    Prop where
  sameClass {short long : σ} (name : String) (hfollows : follows short long)
    (hlasts : ¬ spent short) : ∃ decision short' long',
      decider.onClass name short = (decision, short') ∧
      decider.onClass name long = (decision, long') ∧ follows short' long'
  sameFunction {short long : σ} (function : Symbol) (excerpt : String)
    (hfollows : follows short long) (hlasts : ¬ spent short) : ∃ decision short' long',
      decider.onFunction function excerpt short = (decision, short') ∧
      decider.onFunction function excerpt long = (decision, long') ∧ follows short' long'
  noClass {state : σ} (name : String) (hspent : spent state) : ∃ decision state',
    decider.onClass name state = (decision, state') ∧ decision ≠ .process ∧ spent state'
  noFunction {state : σ} (function : Symbol) (excerpt : String) (hspent : spent state) :
    ∃ state', decider.onFunction function excerpt state = (.keep, state') ∧ spent state'

/-- What two who answer have accepted: the same if the first still follows, and otherwise the
other has accepted more behind it. -/
inductive Trails (follows : σ → σ → Prop) (spent : σ → Prop) : List α × σ → List α × σ → Prop
  | abreast (items : List α) {short long : σ} (hfollows : follows short long) :
      Trails follows spent (items, short) (items, long)
  | behind {items others : List α} {short : σ} (long : σ) (hitems : items <+: others)
      (hspent : spent short) : Trails follows spent (items, short) (others, long)

theorem Trails.cons {first second : List α × σ} (trails : Trails follows spent first second)
    (item : α) : Trails follows spent (item :: first.1, first.2) (item :: second.1, second.2) := by
  cases trails with
  | abreast items hfollows => exact .abreast (item :: items) hfollows
  | behind long hitems hspent =>
    exact .behind long (List.cons_prefix_cons.mpr ⟨rfl, hitems⟩) hspent

theorem Trails.isPrefix {first second : List α × σ} (trails : Trails follows spent first second) :
    first.1 <+: second.1 := by
  cases trails with
  | abreast items _ => exact List.prefix_refl items
  | behind _ hitems _ => exact hitems

namespace Decider.CutsOff

theorem askClasses_of_spent (cutsOff : decider.CutsOff follows spent) (hspent : spent state)
    (names : List String) :
    ∃ final, askClasses decider names state = ([], final) ∧ spent final := by
  induction names generalizing state with
  | nil => exact ⟨state, rfl, hspent⟩
  | cons name names ih =>
    obtain ⟨decision, after, hanswer, hnot, hafter⟩ := cutsOff.noClass name hspent
    cases decision with
    | process => exact absurd rfl hnot
    | skip =>
      obtain ⟨final, hrest, hfinal⟩ := ih hafter
      exact ⟨final, by rw [askClasses, hanswer, ← hrest], hfinal⟩
    | skipAll => exact ⟨after, by rw [askClasses, hanswer], hafter⟩

theorem askFunctions_of_spent (cutsOff : decider.CutsOff follows spent) (hspent : spent state)
    (excerptOf : Symbol → String) (functions : List Symbol) :
    ∃ final, askFunctions decider excerptOf functions state = ([], final) ∧ spent final := by
  induction functions generalizing state with
  | nil => exact ⟨state, rfl, hspent⟩
  | cons function functions ih =>
    obtain ⟨after, hanswer, hafter⟩ := cutsOff.noFunction function (excerptOf function) hspent
    obtain ⟨final, hrest, hfinal⟩ := ih hafter
    exact ⟨final, by rw [askFunctions, hanswer, ← hrest], hfinal⟩

theorem trails_askClasses (cutsOff : decider.CutsOff follows spent) (hfollows : follows short long)
    (names : List String) :
    Trails follows spent (askClasses decider names short)
      (askClasses decider names long) := by
  induction names generalizing short long with
  | nil => exact .abreast [] hfollows
  | cons name names ih =>
    by_cases hspent : spent short
    · obtain ⟨final, hnone, hfinal⟩ := cutsOff.askClasses_of_spent hspent (name :: names)
      rw [hnone]
      exact .behind _ List.nil_prefix hfinal
    · obtain ⟨decision, short', long', hshort, hlong, hfollows'⟩ :=
        cutsOff.sameClass name hfollows hspent
      rw [askClasses, askClasses, hshort, hlong]
      cases decision with
      | process => exact (ih hfollows').cons name
      | skip => exact ih hfollows'
      | skipAll => exact .abreast [] hfollows'

theorem trails_askFunctions (cutsOff : decider.CutsOff follows spent)
    (hfollows : follows short long) (excerptOf : Symbol → String) (functions : List Symbol) :
    Trails follows spent (askFunctions decider excerptOf functions short)
      (askFunctions decider excerptOf functions long) := by
  induction functions generalizing short long with
  | nil => exact .abreast [] hfollows
  | cons function functions ih =>
    by_cases hspent : spent short
    · obtain ⟨final, hnone, hfinal⟩ :=
        cutsOff.askFunctions_of_spent hspent excerptOf (function :: functions)
      rw [hnone]
      exact .behind _ List.nil_prefix hfinal
    · obtain ⟨decision, short', long', hshort, hlong, hfollows'⟩ :=
        cutsOff.sameFunction function (excerptOf function) hfollows hspent
      rw [askFunctions, askFunctions, hshort, hlong]
      cases decision with
      | comment => exact (ih hfollows').cons function
      | keep => exact ih hfollows'
      | commentAllInFile => exact .abreast (function :: functions) hfollows'

end Decider.CutsOff

/-! ## Functions chosen and reported -/

namespace Plan

/-- The functions that are chosen in a script. If it cannot be read, there are none. -/
def chosenIn (plan : Plan) (decider : Decider σ) (sources : Sources) (progress : Fixing × σ)
    (entry : String × List Symbol) : List Symbol :=
  match progress.1.disk.loadSource (sources.resolve entry.1) with
  | .error _ => []
  | .ok source => (plan.acceptFunctions decider source entry.2 progress.2).1

/-- The functions that are chosen in several scripts, one after the other. -/
def chosen (plan : Plan) (decider : Decider σ) (sources : Sources) :
    List (String × List Symbol) → Fixing × σ → List Symbol
  | [], _ => []
  | entry :: entries, progress =>
    plan.chosenIn decider sources progress entry ++
      plan.chosen decider sources entries (plan.fixScript decider sources progress entry)

theorem chosenIn_of_read (entry : String × List Symbol) {source : String}
    (hload : fixing.disk.loadSource (sources.resolve entry.1) = .ok source) :
    plan.chosenIn decider sources (fixing, state) entry =
      (plan.acceptFunctions decider source entry.2 state).1 := by
  unfold chosenIn
  dsimp only
  rw [hload]

theorem chosenIn_of_unread {entry : String × List Symbol} {error : SourceError}
    (hload : fixing.disk.loadSource (sources.resolve entry.1) = .error error) :
    plan.chosenIn decider sources (fixing, state) entry = [] := by
  unfold chosenIn
  dsimp only
  rw [hload]

theorem chosen_cons (plan : Plan) (decider : Decider σ) (sources : Sources)
    (entry : String × List Symbol) (entries : List (String × List Symbol))
    (progress : Fixing × σ) :
    plan.chosen decider sources (entry :: entries) progress =
      plan.chosenIn decider sources progress entry ++
        plan.chosen decider sources entries (plan.fixScript decider sources progress entry) := rfl

/-- The classes that a run accepts. -/
def acceptedBy (plan : Plan) (decider : Decider σ) (scan : Scan) (state : σ) : List String :=
  (plan.acceptClasses decider scan.findings.unusedClasses state).1

/-- The functions that a run chooses. -/
def chosenBy (plan : Plan) (decider : Decider σ) (scan : Scan) (candidates : List Candidate)
    (disk : Disk) (state : σ) : List Symbol :=
  plan.chosen decider scan.sources (safeByFile candidates)
    (plan.beforeScripts decider scan disk state)

/-- Whether a file can be written does not depend on the text. -/
theorem writeFile_congr (plan : Plan) (path : Path) (content other : String) (fixing : Fixing) :
    (plan.writeFile path content fixing).1 = (plan.writeFile path other fixing).1 := by
  have hattempt : ∀ disk : Disk, (disk.write path content.toUTF8).1.isNone =
      (disk.write path other.toUTF8).1.isNone := by
    intro disk
    unfold Disk.write Disk.attempt
    dsimp only
    split
    · rfl
    · cases Disk.target _ path <;> rfl
  have hwrite : ∀ content, (plan.writeFile path content fixing).1 =
      (fixing.editor.overwrite fixing.disk path content).1.isNone := fun content =>
    takes_writeFile plan fixing ⟨path, "", [], content⟩
  rw [hwrite, hwrite]
  unfold Editor.overwrite
  split
  · rfl
  · exact hattempt _

/-- The functions that are reported, if the text has changed and can be written. -/
theorem functions_commentChosen (plan : Plan) (path : Path) (source : String)
    (chosen : List Symbol) (fixing : Fixing) :
    (plan.commentChosen path source chosen fixing).report.functions =
      fixing.report.functions ++
        if (commentedScript source chosen plan.stamp.iso).2 ≠ 0 ∧
          (plan.writeFile path "" fixing).1 = true then chosen.map (·.id) else [] := by
  unfold commentChosen
  dsimp only
  split
  · rename_i hidle
    rcases (by simpa using hidle : chosen = [] ∨ (commentedScript source chosen _).2 = 0) with
      rfl | hnone
    · simp
    · simp [hnone]
  · rename_i hactive
    have happlied : (commentedScript source chosen plan.stamp.iso).2 ≠ 0 :=
      fun hnone => hactive (by simp [hnone])
    generalize (commentedScript source chosen plan.stamp.iso).1 = content
    have hworks := plan.writeFile_congr path content "" fixing
    have hkept := (functions_writeFile plan path content fixing).1
    rw [← hworks, ← hkept]
    generalize plan.writeFile path content fixing = result
    obtain ⟨worked, after⟩ := result
    cases worked <;> simp [happlied]

end Plan

/-- Nothing is replaced in a script only if no function can be cut out of it. -/
theorem applied_eq_zero_iff {source iso : String} {functions : List Symbol} :
    (commentedScript source functions iso).2 = 0 ↔
      functions.filterMap (removalEdit? source.toList iso.toList) = [] := by
  have happlied : (commentedScript source functions iso).2 =
      (chosenEdits source.toList
        (functions.filterMap (removalEdit? source.toList iso.toList))).length :=
    (Script.commentOut_spec source.toList functions iso.toList).1
  rw [happlied, List.length_eq_zero_iff]
  constructor
  · intro hnone
    refine List.eq_nil_iff_forall_not_mem.mpr fun edit hedit => ?_
    obtain ⟨function, hfunction, hremoval⟩ := List.mem_filterMap.mp hedit
    rcases mem_or_exists_of_removalEdit? hfunction hremoval with hmade | ⟨other, hmade, -⟩
    · simp [hnone] at hmade
    · simp [hnone] at hmade
  · intro hnone
    refine List.eq_nil_iff_forall_not_mem.mpr fun edit hedit => ?_
    have hmem := mem_of_mem_chosenEdits hedit
    simp [hnone] at hmem

/-- If more is chosen in a script, then more is reported. -/
theorem functions_commentChosen_isPrefix {chosen others : List Symbol} (hchosen : chosen <+: others)
    (plan : Plan) (path : Path) (source : String) (fixing : Fixing) :
    (plan.commentChosen path source chosen fixing).report.functions <+:
      (plan.commentChosen path source others fixing).report.functions := by
  rw [Plan.functions_commentChosen, Plan.functions_commentChosen, List.prefix_append_right_inj]
  split
  · rename_i hreported
    have happlied : (commentedScript source others plan.stamp.iso).2 ≠ 0 := by
      intro hnone
      apply hreported.1
      rw [applied_eq_zero_iff] at hnone ⊢
      exact List.prefix_nil.mp (hnone ▸ hchosen.filterMap _)
    rw [if_pos ⟨happlied, hreported.2⟩]
    exact hchosen.map _
  · exact List.nil_prefix

/-! ## Runs -/

namespace Decider.CutsOff

/-- Once it is spent, a run goes through the scripts and only notes which it cannot read. -/
theorem scripts_of_spent (cutsOff : decider.CutsOff follows spent) (plan : Plan)
    (sources : Sources) (entries : List (String × List Symbol)) (fixing : Fixing)
    (hspent : spent state) :
    plan.asking.chosen decider sources entries (fixing, state) = [] ∧
      ∃ skipped final,
        entries.foldl (plan.asking.fixScript decider sources) (fixing, state) =
          ({ fixing with report := { fixing.report with skipped } }, final) := by
  induction entries generalizing fixing state with
  | nil => exact ⟨rfl, fixing.report.skipped, state, rfl⟩
  | cons entry entries ih =>
    rw [Plan.chosen_cons, List.foldl_cons]
    cases hload : fixing.disk.loadSource (sources.resolve entry.1) with
    | error error =>
      rw [Plan.chosenIn_of_unread hload, Plan.fixScript_of_unread hload]
      exact ih _ hspent
    | ok source =>
      obtain ⟨final, hnone, hfinal⟩ := cutsOff.askFunctions_of_spent hspent
        (fun function => String.ofList
          (Script.excerpt source.toList function plan.settings.excerptContext))
        (Plan.inOrder entry.2)
      have haccept : plan.asking.acceptFunctions decider source entry.2 state = ([], final) := hnone
      rw [Plan.chosenIn_of_read entry hload, Plan.fixScript_of_read hload haccept, haccept]
      exact ih fixing hfinal

/-- What is chosen in the scripts, and what is reported of it, is a beginning of what the other
has. -/
theorem scripts (cutsOff : decider.CutsOff follows spent) (plan : Plan) (sources : Sources)
    (entries : List (String × List Symbol)) (fixing : Fixing) (hfollows : follows short long) :
    plan.asking.chosen decider sources entries (fixing, short) <+:
        plan.asking.chosen decider sources entries (fixing, long) ∧
      (entries.foldl (plan.asking.fixScript decider sources) (fixing, short)).1.report.functions
        <+: (entries.foldl (plan.asking.fixScript decider sources)
          (fixing, long)).1.report.functions := by
  induction entries generalizing fixing short long with
  | nil => exact ⟨List.prefix_refl _, List.prefix_refl _⟩
  | cons entry entries ih =>
    rw [Plan.chosen_cons, Plan.chosen_cons, List.foldl_cons, List.foldl_cons]
    cases hload : fixing.disk.loadSource (sources.resolve entry.1) with
    | error error =>
      rw [Plan.chosenIn_of_unread hload, Plan.chosenIn_of_unread hload,
        Plan.fixScript_of_unread hload, Plan.fixScript_of_unread hload]
      exact ih _ hfollows
    | ok source =>
      have htrails : Trails follows spent
          (plan.asking.acceptFunctions decider source entry.2 short)
          (plan.asking.acceptFunctions decider source entry.2 long) :=
        cutsOff.trails_askFunctions hfollows _ _
      rcases hshort : plan.asking.acceptFunctions decider source entry.2 short with ⟨chosen, short'⟩
      rcases hlong : plan.asking.acceptFunctions decider source entry.2 long with ⟨others, long'⟩
      rw [Plan.chosenIn_of_read entry hload, Plan.chosenIn_of_read entry hload,
        Plan.fixScript_of_read hload hshort, Plan.fixScript_of_read hload hlong]
      rw [hshort, hlong] at htrails ⊢
      cases htrails with
      | abreast _ hfollows' =>
        obtain ⟨hchosen, hreported⟩ :=
          ih (plan.asking.commentChosen (sources.resolve entry.1) source chosen fixing) hfollows'
        exact ⟨(List.prefix_append_right_inj chosen).mpr hchosen, hreported⟩
      | behind _ hchosen hspent =>
        -- The first chooses nothing more, and what the other reports only grows.
        obtain ⟨hnone, skipped, final, hrest⟩ := cutsOff.scripts_of_spent plan sources entries
          (plan.asking.commentChosen (sources.resolve entry.1) source chosen fixing) hspent
        have hbooks := plan.asking.books_scripts decider sources entries
          (plan.asking.commentChosen (sources.resolve entry.1) source others fixing, long')
        rw [hnone, hrest, hbooks.functions, List.append_nil]
        exact ⟨hchosen.trans (List.prefix_append _ _),
          (functions_commentChosen_isPrefix hchosen plan.asking _ source fixing).trans
            (List.prefix_append _ _)⟩

end Decider.CutsOff

/-- Behind the stylesheets no function is reported. -/
theorem functions_fixSheets (plan : Plan) (scan : Scan) (classes : List String) (disk : Disk) :
    (plan.fixSheets scan classes { disk, editor := { stamp := plan.stamp } }).report.functions =
      [] := by
  obtain ⟨fixing, hbooks, hsheets⟩ := plan.books_fixSheets scan classes disk
  rw [hsheets]
  show fixing.report.functions = []
  rw [hbooks.functions, flatMap_functions_sheetsOf]
  rfl

theorem beforeScripts_asking (plan : Plan) (decider : Decider σ) (scan : Scan) (disk : Disk)
    (state : σ) :
    plan.asking.beforeScripts decider scan disk state =
      (plan.asking.fixSheets scan
        (sortedNames (askClasses decider scan.findings.unusedClasses state).1)
        { disk, editor := { stamp := plan.asking.stamp } },
      (askClasses decider scan.findings.unusedClasses state).2) := rfl

/-- A run that asks has a report, which tells the classes that were accepted. -/
theorem exists_run_asking (plan : Plan) (decider : Decider σ) (scan : Scan)
    (candidates : List Candidate) (disk : Disk) (state : σ) :
    ∃ fixing final,
      (safeByFile candidates).foldl (plan.asking.fixScript decider scan.sources)
        (plan.asking.beforeScripts decider scan disk state) = (fixing, final) ∧
      plan.asking.run decider scan candidates disk state =
        (.ok { fixing.report with backups := fixing.editor.backups.length }, fixing.disk, final) ∧
      fixing.report.classes = plan.asking.acceptedBy decider scan state := by
  refine ⟨_, _, rfl, Plan.run_eq_of_scripts (by simp) rfl rfl, ?_⟩
  obtain ⟨fixing, -, hsheets⟩ := plan.asking.books_fixSheets scan
    (plan.asking.acceptedBy decider scan state) disk
  rw [(plan.asking.books_scripts decider scan.sources (safeByFile candidates) _).classes]
  exact congrArg (·.report.classes) hsheets

namespace Decider.CutsOff

/-- Who is spent from the beginning changes nothing. The run only notes which scripts it cannot
read. -/
theorem run_of_spent (cutsOff : decider.CutsOff follows spent) (hspent : spent state)
    (plan : Plan) (scan : Scan) (candidates : List Candidate) (disk : Disk) :
    ∃ skipped final,
      plan.asking.run decider scan candidates disk state = (.ok { skipped }, disk, final) := by
  obtain ⟨between, hnone, hbetween⟩ :=
    cutsOff.askClasses_of_spent hspent scan.findings.unusedClasses
  have hclasses : plan.asking.acceptClasses decider scan.findings.unusedClasses state =
      ([], between) := by
    rw [Plan.acceptClasses, if_neg (by simp), hnone]
    exact congrArg (·, between) sortedNames_nil
  obtain ⟨-, skipped, final, hscripts⟩ := cutsOff.scripts_of_spent plan scan.sources
    (safeByFile candidates) { disk, editor := { stamp := plan.asking.stamp } } hbetween
  exact ⟨skipped, final, Plan.run_eq_of_scripts (by simp) hclasses hscripts⟩

/-- The functions that a run chooses and reports are the first of those of the other, whether or
not it was spent on the classes. -/
theorem chosenBy (cutsOff : decider.CutsOff follows spent) (hfollows : follows short long)
    (plan : Plan) (scan : Scan) (candidates : List Candidate) (disk : Disk) :
    plan.asking.chosenBy decider scan candidates disk short <+:
        plan.asking.chosenBy decider scan candidates disk long ∧
      ((safeByFile candidates).foldl (plan.asking.fixScript decider scan.sources)
        (plan.asking.beforeScripts decider scan disk short)).1.report.functions <+:
      ((safeByFile candidates).foldl (plan.asking.fixScript decider scan.sources)
        (plan.asking.beforeScripts decider scan disk long)).1.report.functions := by
  have htrails := cutsOff.trails_askClasses hfollows scan.findings.unusedClasses
  rw [Plan.chosenBy, Plan.chosenBy, beforeScripts_asking, beforeScripts_asking]
  generalize askClasses decider scan.findings.unusedClasses short = first at *
  generalize askClasses decider scan.findings.unusedClasses long = second at *
  cases htrails with
  | abreast accepted hfollows' =>
    exact cutsOff.scripts plan scan.sources (safeByFile candidates) _ hfollows'
  | behind between _ hspent =>
    obtain ⟨hnone, skipped, last, hscripts⟩ :=
      cutsOff.scripts_of_spent plan scan.sources (safeByFile candidates) _ hspent
    rw [hnone, hscripts]
    dsimp only
    rw [functions_fixSheets]
    exact ⟨List.nil_prefix, List.nil_prefix⟩

/-- A run removes what the other removes as long as it is not spent, and nothing more. -/
theorem run (cutsOff : decider.CutsOff follows spent) (hfollows : follows short long)
    (plan : Plan) (scan : Scan) (candidates : List Candidate) (disk : Disk) :
    ∃ part whole after after' final final',
      plan.asking.run decider scan candidates disk short = (.ok part, after, final) ∧
      plan.asking.run decider scan candidates disk long = (.ok whole, after', final') ∧
      plan.asking.acceptedBy decider scan short ⊆ plan.asking.acceptedBy decider scan long ∧
      plan.asking.chosenBy decider scan candidates disk short <+:
        plan.asking.chosenBy decider scan candidates disk long ∧
      part.classes ⊆ whole.classes ∧ part.functions <+: whole.functions := by
  obtain ⟨part, final, hpart, hrun, hclasses⟩ :=
    exists_run_asking plan decider scan candidates disk short
  obtain ⟨whole, final', hwhole, hrun', hclasses'⟩ :=
    exists_run_asking plan decider scan candidates disk long
  have haccepted : plan.asking.acceptedBy decider scan short ⊆
      plan.asking.acceptedBy decider scan long := by
    have htrails := cutsOff.trails_askClasses hfollows scan.findings.unusedClasses
    exact fun name hname =>
      mem_sortedNames.mpr (htrails.isPrefix.subset (mem_sortedNames.mp hname))
  obtain ⟨hchosen, hfunctions⟩ := cutsOff.chosenBy hfollows plan scan candidates disk
  rw [hpart, hwhole] at hfunctions
  refine ⟨_, _, _, _, _, _, hrun, hrun', haccepted, hchosen, ?_, hfunctions⟩
  show part.report.classes ⊆ whole.report.classes
  rw [hclasses, hclasses']
  exact haccepted

end Decider.CutsOff

/-! ## Consoles -/

/-- The input ends with the end of a line, if it is not empty. -/
def IsWholeLines (input : List UInt8) : Prop :=
  ∀ b ∈ input.getLast?, b = 0x0A

instance (input : List UInt8) : Decidable (IsWholeLines input) :=
  decidable_of_iff (input.getLast?.all (· == 0x0A) = true)
    (by cases hlast : input.getLast? <;> simp [IsWholeLines, hlast])

namespace Console

theorem takeLine_eq (input : List UInt8) : (takeLine input).1 ++ (takeLine input).2 = input := by
  induction input with
  | nil => rfl
  | cons b rest ih =>
    rw [takeLine]
    split
    · rfl
    · exact congrArg (b :: ·) ih

/-- What comes behind a line that has an end is not read with it. -/
theorem takeLine_append {input : List UInt8} (hline : 0x0A ∈ input) (more : List UInt8) :
    takeLine (input ++ more) = ((takeLine input).1, (takeLine input).2 ++ more) := by
  induction input with
  | nil => exact absurd hline List.not_mem_nil
  | cons b rest ih =>
    rw [List.cons_append, takeLine, takeLine]
    by_cases hend : b = 0x0A
    · simp [hend]
    · have hrest : 0x0A ∈ rest := (List.mem_cons.mp hline).resolve_left (Ne.symm hend)
      simp [hend, ih hrest]

/-- A console with a part of another's input: the first lines, and these whole. -/
structure CutsOff (short long : Console) : Prop where
  lines : IsWholeLines short.input
  begins : short.input <+: long.input

variable {console short long : Console}

theorem ask_of_empty (hempty : console.input = []) (prompt : String) :
    ∃ after, console.ask prompt = (none, after) ∧ after.input = [] := by
  have hended : (console.write prompt).input.isEmpty = true := List.isEmpty_iff.mpr hempty
  unfold ask
  dsimp only
  rw [if_pos hended]
  exact ⟨_, rfl, hempty⟩

theorem ask_of_ne_nil (hlasts : console.input ≠ []) (prompt : String) :
    console.ask prompt =
      ((String.fromUTF8? ⟨(takeLine console.input).1.toArray⟩).map answerOf,
        { console.write prompt with input := (takeLine console.input).2 }) := by
  have hopen : (console.write prompt).input.isEmpty = false := List.isEmpty_eq_false_iff.mpr hlasts
  unfold ask
  dsimp only
  rw [if_neg (by rw [hopen]; exact Bool.false_ne_true)]
  rfl

namespace CutsOff

theorem write (cutsOff : short.CutsOff long) (text : String) :
    (short.write text).CutsOff (long.write text) :=
  ⟨cutsOff.lines, cutsOff.begins⟩

/-- The next line is the same. -/
theorem ask (cutsOff : short.CutsOff long) (hlasts : short.input ≠ []) (prompt : String) :
    ∃ answer short' long', short.ask prompt = (answer, short') ∧
      long.ask prompt = (answer, long') ∧ short'.CutsOff long' := by
  obtain ⟨hlines, more, hmore⟩ := cutsOff
  have hend : 0x0A ∈ short.input := by
    rw [← hlines _ (List.getLast?_eq_some_getLast hlasts)]
    exact List.getLast_mem hlasts
  have hline := takeLine_append hend more
  rw [hmore] at hline
  have hlasts' : long.input ≠ [] := by simp [← hmore, hlasts]
  have hlong := ask_of_ne_nil hlasts' prompt
  rw [hline] at hlong
  have hrest : IsWholeLines (takeLine short.input).2 := by
    intro b hb
    apply hlines
    rw [← takeLine_eq short.input, List.getLast?_append, Option.mem_def.mp hb]
    rfl
  exact ⟨_, _, _, ask_of_ne_nil hlasts prompt, hlong, hrest, List.prefix_append _ more⟩

end CutsOff

/-- A class is asked about behind a heading. -/
theorem exists_onClass (name : String) : ∃ heading prompt, ∀ console : Console,
    Console.decider.onClass name console =
      (classDecision ((console.write heading).ask prompt).1,
        ((console.write heading).ask prompt).2) :=
  ⟨_, _, fun _ => rfl⟩

/-- A function is asked about behind a heading and its lines. -/
theorem exists_onFunction (function : Symbol) (excerpt : String) :
    ∃ heading lines prompt, ∀ console : Console,
      Console.decider.onFunction function excerpt console =
        (functionDecision (((console.write heading).write lines).ask prompt).1,
          (((console.write heading).write lines).ask prompt).2) :=
  ⟨_, _, _, fun _ => rfl⟩

/-- Consoles answer alike as long as the lines last. Behind them no class is taken out and each
function is kept. -/
theorem decider_cutsOff : Console.decider.CutsOff CutsOff (·.input = []) where
  sameClass name cutsOff hlasts := by
    obtain ⟨heading, prompt, honClass⟩ := exists_onClass name
    obtain ⟨answer, short', long', hshort, hlong, cutsOff'⟩ :=
      (cutsOff.write heading).ask hlasts prompt
    refine ⟨classDecision answer, short', long', ?_, ?_, cutsOff'⟩
    · rw [honClass, hshort]
    · rw [honClass, hlong]
  sameFunction function excerpt cutsOff hlasts := by
    obtain ⟨heading, lines, prompt, honFunction⟩ := exists_onFunction function excerpt
    obtain ⟨answer, short', long', hshort, hlong, cutsOff'⟩ :=
      ((cutsOff.write heading).write lines).ask hlasts prompt
    refine ⟨functionDecision answer, short', long', ?_, ?_, cutsOff'⟩
    · rw [honFunction, hshort]
    · rw [honFunction, hlong]
  noClass {console} name hempty := by
    obtain ⟨heading, prompt, honClass⟩ := exists_onClass name
    have hempty' : (console.write heading).input = [] := hempty
    obtain ⟨after, hask, hafter⟩ := ask_of_empty hempty' prompt
    refine ⟨.skipAll, after, ?_, by decide, hafter⟩
    rw [honClass, hask]
    rfl
  noFunction {console} function excerpt hempty := by
    obtain ⟨heading, lines, prompt, honFunction⟩ := exists_onFunction function excerpt
    have hempty' : ((console.write heading).write lines).input = [] := hempty
    obtain ⟨after, hask, hafter⟩ := ask_of_empty hempty' prompt
    refine ⟨after, ?_, hafter⟩
    rw [honFunction, hask]
    rfl

end Console

/-- Input that is cut off behind a line never removes more. The classes that are accepted are
among those that are accepted with all of the input, and the functions that are chosen are the
first of those, and it is reported like that. Without any input nothing is changed, and no
backup is taken. -/
theorem run_cutsOff (plan : Plan) (scan : Scan) (candidates : List Candidate) (disk : Disk)
    {short long : Console} (cutsOff : short.CutsOff long) :
    ∃ part whole after after' final final',
      plan.asking.run Console.decider scan candidates disk short = (.ok part, after, final) ∧
      plan.asking.run Console.decider scan candidates disk long = (.ok whole, after', final') ∧
      plan.asking.acceptedBy Console.decider scan short ⊆
        plan.asking.acceptedBy Console.decider scan long ∧
      plan.asking.chosenBy Console.decider scan candidates disk short <+:
        plan.asking.chosenBy Console.decider scan candidates disk long ∧
      part.classes ⊆ whole.classes ∧ part.functions <+: whole.functions ∧
      (short.input = [] → part = { skipped := part.skipped } ∧ after = disk) := by
  obtain ⟨part, whole, after, after', final, final', hpart, hwhole, haccepted, hchosen, hclasses,
    hfunctions⟩ := Console.decider_cutsOff.run cutsOff plan scan candidates disk
  refine ⟨part, whole, after, after', final, final', hpart, hwhole, haccepted, hchosen, hclasses,
    hfunctions, fun hempty => ?_⟩
  obtain ⟨skipped, last, hrun⟩ :=
    Console.decider_cutsOff.run_of_spent hempty plan scan candidates disk
  obtain ⟨hreport, hbehind⟩ := Prod.mk.inj (hpart.symm.trans hrun)
  obtain rfl := Except.ok.inj hreport
  exact ⟨rfl, (Prod.mk.inj hbehind).1⟩

/-- The first class is accepted, a line that is no text ends the questions on classes, and the
first function is accepted. -/
def brokenConsole : Console where
  input := [0x79, 0x0A, 0xFF, 0x0A, 0x79, 0x0A]

/-- With one line more, which accepts all the functions that follow. -/
def mendedConsole : Console where
  input := brokenConsole.input ++ [0x61, 0x0A]

def pairCandidates : List Candidate :=
  [⟨firstFunction, .safe⟩, ⟨secondFunction, .safe⟩]

theorem chosenBy_pair (console : Console) :
    pairPlan.asking.chosenBy Console.decider (pairScan ["menu", "tab"]) pairCandidates pairDisk
        console =
      (askFunctions Console.decider
        (fun function => String.ofList
          (Script.excerpt pairScript.toList function pairPlan.settings.excerptContext))
        [firstFunction, secondFunction]
        (askClasses Console.decider ["menu", "tab"] console).2).1 := by
  have hload : ∀ classes, (pairPlan.asking.fixSheets (pairScan ["menu", "tab"]) classes
      { disk := pairDisk, editor := { stamp := pairPlan.asking.stamp } }).disk.loadSource
        ((pairScan ["menu", "tab"]).sources.resolve "app.js") = .ok pairScript := by
    intro classes
    unfold Plan.fixSheets
    split <;> exact pairDisk_loadSource
  have hsorted : Plan.inOrder [firstFunction, secondFunction] = [firstFunction, secondFunction] :=
    List.mergeSort_of_pairwise (by decide)
  rw [Plan.chosenBy, pairCandidates, safeByFile_pair, beforeScripts_asking, Plan.chosen_cons,
    Plan.chosenIn_of_read ("app.js", [firstFunction, secondFunction]) (hload _),
    Plan.acceptFunctions, if_neg (by simp), hsorted]
  exact List.append_nil _

/-- The second function is chosen only with the line that was cut off. -/
theorem run_cutsOff_broken :
    brokenConsole.CutsOff mendedConsole ∧
    pairPlan.asking.chosenBy Console.decider (pairScan ["menu", "tab"]) pairCandidates pairDisk
      brokenConsole = [firstFunction] ∧
    pairPlan.asking.chosenBy Console.decider (pairScan ["menu", "tab"]) pairCandidates pairDisk
      mendedConsole = [firstFunction, secondFunction] ∧
    ∃ part whole,
      (pairPlan.asking.run Console.decider (pairScan ["menu", "tab"]) pairCandidates pairDisk
        brokenConsole).1 = .ok part ∧
      (pairPlan.asking.run Console.decider (pairScan ["menu", "tab"]) pairCandidates pairDisk
        mendedConsole).1 = .ok whole ∧
      part.classes ⊆ whole.classes ∧ part.functions <+: whole.functions := by
  have cutsOff : brokenConsole.CutsOff mendedConsole := ⟨by decide, List.prefix_append _ _⟩
  obtain ⟨part, whole, _, _, _, _, hpart, hwhole, -, -, hclasses, hfunctions, -⟩ :=
    run_cutsOff pairPlan (pairScan ["menu", "tab"]) pairCandidates pairDisk cutsOff
  exact ⟨cutsOff, (chosenBy_pair brokenConsole).trans (by decide +kernel),
    (chosenBy_pair mendedConsole).trans (by decide +kernel), part, whole,
    congrArg Prod.fst hpart, congrArg Prod.fst hwhole, hclasses, hfunctions⟩

end Deadwood.Fix
