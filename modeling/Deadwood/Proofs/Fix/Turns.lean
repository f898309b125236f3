/-
# Turn by turn

A run goes through the stylesheets and then through the scripts that have functions to go.
When the turn of a file comes, it is read as it stands by then; it is left alone, or it is
to become another text, which is then written or not. What a run reports is said here in
terms of these turns.
-/

import Deadwood.Proofs.Fix.Rewrites
import Deadwood.Proofs.Kept
import Mathlib.Data.List.Induction

namespace Deadwood.Fix

open Deadwood.Disk (Alike)

variable {σ : Type} {plan : Plan} {decider : Decider σ} {sources : Sources} {fixing : Fixing}
  {progress : Fixing × σ} {entry : String × List Symbol} {classes : List String} {path : Path}

/-! ## Turns -/

/-- Whether the disk takes what a file is to become. -/
def Workspace.takes (workspace : Workspace) (rewrite : Rewrite) : Bool :=
  (workspace.editor.overwrite workspace.disk rewrite.path rewrite.written).1.isNone

/-- What is written is read there. Otherwise nothing has become of the disk, except that
a backup may have been taken. -/
theorem Workspace.write_cases (workspace : Workspace) (rewrite : Rewrite) :
    workspace.takes rewrite = true ∧
        (workspace.write rewrite).disk.readText? rewrite.path = some rewrite.written ∨
      workspace.takes rewrite = false ∧ (Alike workspace.disk (workspace.write rewrite).disk ∨
        ∃ copied, workspace.disk.copy rewrite.path
            (rewrite.path.backup workspace.editor.stamp.millis) = (none, copied) ∧
          Alike copied (workspace.write rewrite).disk) := by
  obtain ⟨disk, editor⟩ := workspace
  obtain ⟨path, _, _, written⟩ := rewrite
  unfold takes write Editor.overwrite Editor.ensureBackup
  dsimp only
  have hwrite : ∀ ready : Disk,
      (ready.write path written.toUTF8).1.isNone = true ∧
          (ready.write path written.toUTF8).2.readText? path = some written ∨
        (ready.write path written.toUTF8).1.isNone = false ∧
          Alike ready (ready.write path written.toUTF8).2 := by
    intro ready
    rcases ready.write_cases path written.toUTF8 with
      ⟨error, failed, hfailed, halike⟩ | ⟨location, stored, hdone, -, -⟩
    · rw [hfailed]
      exact .inr ⟨rfl, halike⟩
    · rw [hdone]
      exact .inl ⟨rfl, Disk.readText?_of_write hdone⟩
  cases editor.backupOf? path with
  | some backup => exact (hwrite disk).imp id (And.imp id .inl)
  | none =>
    rcases disk.copy_cases path (path.backup editor.stamp.millis) with
      ⟨error, failed, hfailed, halike⟩ | ⟨_, _, _, copied, hcopied, -, -, -⟩
    · rw [hfailed]
      exact .inr ⟨rfl, .inl halike⟩
    · rw [hcopied]
      exact (hwrite copied).imp id (And.imp id fun halike => .inr ⟨copied, rfl, halike⟩)

/-- The turn of a file: what disk and editor are by then, and what the file is to become,
if anything. -/
structure Turn where
  path : Path
  workspace : Workspace
  rewrite : Option Rewrite
  reads : ∀ own ∈ rewrite, own.path = path ∧ workspace.disk.loadSource path = .ok own.read

namespace Turn

/-- Disk and editor behind a turn. -/
def after (turn : Turn) : Workspace :=
  turn.rewrite.elim turn.workspace turn.workspace.write

/-- What was written. -/
def done (turn : Turn) : Option Rewrite :=
  turn.rewrite.filter turn.workspace.takes

/-- What a turn does to the disk: the new text is read where it was written, or all is as it
was, or but for a backup. -/
inductive Effect (turn : Turn) : Prop
  | written (rewrite : Rewrite) (hdone : turn.done = some rewrite)
      (hread : turn.after.disk.readText? turn.path = some rewrite.written)
  | spared (hdone : turn.done = none) (halike : Alike turn.workspace.disk turn.after.disk)
  | backedUp (copied : Disk) (hdone : turn.done = none)
      (hcopy : turn.workspace.disk.copy turn.path
        (turn.path.backup turn.workspace.editor.stamp.millis) = (none, copied))
      (halike : Alike copied turn.after.disk)

theorem effect (turn : Turn) : turn.Effect := by
  obtain ⟨path, workspace, rewrite, reads⟩ := turn
  cases rewrite with
  | none => exact .spared rfl (.refl _)
  | some rewrite =>
    obtain ⟨rfl, -⟩ := reads rewrite rfl
    rcases workspace.write_cases rewrite with ⟨htakes, hread⟩ | ⟨htakes, halike | hcopied⟩
    · exact .written rewrite (by simp [done, Option.filter, htakes]) hread
    · exact .spared (by simp [done, Option.filter, htakes]) halike
    · obtain ⟨copied, hcopy, halike⟩ := hcopied
      exact .backedUp copied (by simp [done, Option.filter, htakes]) hcopy halike

/-- Turns follow one another, each on the disk that the one before has left. -/
inductive Chain : Workspace → List Turn → Workspace → Prop
  | nil (workspace : Workspace) : Chain workspace [] workspace
  | cons (turn : Turn) {turns : List Turn} {last : Workspace} (rest : Chain turn.after turns last) :
      Chain turn.workspace (turn :: turns) last

theorem Chain.append {first between last : Workspace} {turns others : List Turn}
    (hturns : Chain first turns between) (hothers : Chain between others last) :
    Chain first (turns ++ others) last := by
  induction hturns with
  | nil => exact hothers
  | cons turn _ ih => exact .cons turn (ih hothers)

end Turn

/-! ## What is noted of a turn -/

/-- Adds paths to a list, except those that it has. -/
def listed (paths added : List Path) : List Path :=
  added.foldl (fun paths path => if paths.any (·.isSame path) then paths else paths ++ [path]) paths

theorem listed_append (paths added more : List Path) :
    listed (listed paths added) more = listed paths (added ++ more) :=
  List.foldl_append.symm

/-- A list of paths names others once each, in their order. -/
structure Names (named paths : List Path) : Prop where
  sublist : named.Sublist paths
  apart : named.Pairwise fun first second => first.isSame second = false
  complete : ∀ path ∈ paths, ∃ other ∈ named, other.isSame path = true

theorem names_listed (paths : List Path) : Names (listed [] paths) paths := by
  -- From behind: the last path is added unless the list has it by then.
  induction paths using List.reverseRecOn with
  | nil => exact ⟨.slnil, .nil, by simp⟩
  | append_singleton paths path ih =>
    have hlisted : listed [] (paths ++ [path]) = if (listed [] paths).any (·.isSame path) then
        listed [] paths else listed [] paths ++ [path] := by
      rw [← listed_append]
      rfl
    rw [hlisted]
    split
    · rename_i hany
      refine ⟨ih.sublist.trans (List.sublist_append_left _ _), ih.apart, ?_⟩
      intro other hother
      rcases List.mem_append.mp hother with hother | hother
      · exact ih.complete other hother
      · rw [List.mem_singleton.mp hother]
        exact List.any_eq_true.mp hany
    · rename_i hnone
      rw [Bool.not_eq_true, List.any_eq_false] at hnone
      refine ⟨ih.sublist.append_right [path], ?_, ?_⟩
      · refine List.pairwise_append.mpr ⟨ih.apart, List.pairwise_singleton _ _, ?_⟩
        intro other hother last hlast
        rw [List.mem_singleton.mp hlast]
        exact Bool.not_eq_true _ ▸ hnone other hother
      · intro other hother
        rcases List.mem_append.mp hother with hother | hother
        · obtain ⟨found, hfound, hsame⟩ := ih.complete other hother
          exact ⟨found, List.mem_append_left _ hfound, hsame⟩
        · rw [List.mem_singleton.mp hother]
          exact ⟨path, by simp, by simp [Path.isSame]⟩

/-- What a fix has noted behind some turns. -/
structure Books (before after : Fixing) (turns : List Turn) : Prop where
  chain : Turn.Chain before.workspace turns after.workspace
  changed : after.report.changed =
    listed before.report.changed ((turns.filterMap Turn.done).map (·.path))
  functions : after.report.functions = before.report.functions ++
    (turns.filterMap Turn.done).flatMap fun rewrite => rewrite.functions.map (·.id)
  classes : after.report.classes = before.report.classes

namespace Books

variable {before between after : Fixing} {turns others : List Turn}

theorem refl (fixing : Fixing) : Books fixing fixing [] where
  chain := .nil _
  changed := rfl
  functions := by simp
  classes := rfl

theorem append (hturns : Books before between turns) (hothers : Books between after others) :
    Books before after (turns ++ others) where
  chain := hturns.chain.append hothers.chain
  changed := by
    rw [hothers.changed, hturns.changed, listed_append, List.filterMap_append, List.map_append]
  functions := by
    rw [hothers.functions, hturns.functions, List.filterMap_append, List.flatMap_append,
      List.append_assoc]
  classes := hothers.classes.trans hturns.classes

end Books

theorem takes_writeFile (plan : Plan) (fixing : Fixing) (rewrite : Rewrite) :
    (plan.writeFile rewrite.path rewrite.written fixing).1 = fixing.workspace.takes rewrite := by
  unfold Plan.writeFile Workspace.takes Fixing.workspace
  dsimp only
  rcases fixing.editor.overwrite fixing.disk rewrite.path rewrite.written with
    ⟨_ | error, editor, disk⟩ <;> rfl

theorem changed_writeFile (plan : Plan) (fixing : Fixing) (rewrite : Rewrite) :
    (plan.writeFile rewrite.path rewrite.written fixing).2.report.changed =
      listed fixing.report.changed
        (if fixing.workspace.takes rewrite then [rewrite.path] else []) := by
  unfold Plan.writeFile Workspace.takes Fixing.workspace
  dsimp only
  rcases fixing.editor.overwrite fixing.disk rewrite.path rewrite.written with
    ⟨_ | error, editor, disk⟩ <;> rfl

theorem functions_writeFile (plan : Plan) (path : Path) (content : String) (fixing : Fixing) :
    (plan.writeFile path content fixing).2.report.functions = fixing.report.functions ∧
      (plan.writeFile path content fixing).2.report.classes = fixing.report.classes := by
  unfold Plan.writeFile
  rcases fixing.editor.overwrite fixing.disk path content with ⟨_ | error, editor, disk⟩
  · exact ⟨rfl, rfl⟩
  · exact ⟨rfl, rfl⟩

namespace Turn

/-- What is noted of a turn at which a file is left alone. -/
theorem books_idle {turn : Turn} {after : Fixing} (hturn : turn.workspace = fixing.workspace)
    (hrewrite : turn.rewrite = none) (hworkspace : after.workspace = fixing.workspace)
    (hchanged : after.report.changed = fixing.report.changed)
    (hfunctions : after.report.functions = fixing.report.functions)
    (hclasses : after.report.classes = fixing.report.classes) : Books fixing after [turn] := by
  have hdone : [turn].filterMap done = [] := by simp [done, hrewrite]
  refine ⟨?_, by rw [hdone, hchanged]; rfl, by rw [hdone, hfunctions]; simp, hclasses⟩
  have hafter : turn.after = after.workspace := by
    rw [Turn.after, hrewrite, hworkspace, ← hturn]
    rfl
  rw [← hturn, ← hafter]
  exact .cons turn (.nil _)

/-- What is noted of a turn at which a file is to become another text. -/
theorem books_write {turn : Turn} {after : Fixing} {rewrite : Rewrite}
    (hturn : turn.workspace = fixing.workspace) (hrewrite : turn.rewrite = some rewrite)
    (hworkspace : after.workspace = fixing.workspace.write rewrite)
    (hchanged : after.report.changed = listed fixing.report.changed
      (if fixing.workspace.takes rewrite then [rewrite.path] else []))
    (hfunctions : after.report.functions = fixing.report.functions ++
      if fixing.workspace.takes rewrite then rewrite.functions.map (·.id) else [])
    (hclasses : after.report.classes = fixing.report.classes) : Books fixing after [turn] := by
  have hdone : [turn].filterMap done =
      if fixing.workspace.takes rewrite then [rewrite] else [] := by
    simp only [List.filterMap_cons, List.filterMap_nil, done, hrewrite, hturn]
    cases htakes : fixing.workspace.takes rewrite <;> simp [Option.filter, htakes]
  refine ⟨?_, ?_, ?_, hclasses⟩
  · have hafter : turn.after = after.workspace := by
      rw [Turn.after, hrewrite, hworkspace, ← hturn]
      rfl
    rw [← hturn, ← hafter]
    exact .cons turn (.nil _)
  · rw [hdone, hchanged]
    cases fixing.workspace.takes rewrite <;> rfl
  · rw [hdone, hfunctions]
    cases fixing.workspace.takes rewrite <;> simp

end Turn

/-! ## The turns of a run -/

theorem loadSource_of_strippedSheet? {disk : Disk} {stripped : String × String}
    (hstripped : strippedSheet? disk path classes = some stripped) :
    disk.loadSource path = .ok stripped.1 := by
  unfold strippedSheet? at hstripped
  split at hstripped
  · simp at hstripped
  · rename_i source hload
    dsimp only at hstripped
    split at hstripped
    · obtain rfl := Option.some.inj hstripped
      exact hload
    · simp at hstripped

namespace Plan

/-- The turn of a stylesheet. -/
def sheetTurn (classes : List String) (fixing : Fixing) (path : Path) : Turn where
  path := path
  workspace := fixing.workspace
  rewrite := (strippedSheet? fixing.disk path classes).map fun stripped =>
    ⟨path, stripped.1, [], stripped.2⟩
  reads := by
    intro own hown
    obtain ⟨stripped, hstripped, rfl⟩ := Option.map_eq_some_iff.mp hown
    exact ⟨rfl, loadSource_of_strippedSheet? hstripped⟩

/-- The turns of several stylesheets. -/
def sheetTurns (plan : Plan) (classes : List String) : List Path → Fixing → List Turn
  | [], _ => []
  | path :: paths, fixing =>
    sheetTurn classes fixing path ::
      plan.sheetTurns classes paths (plan.fixSheet classes fixing path)

theorem reads_rewrite? {rewrite : Rewrite}
    (hrewrite : plan.rewrite? decider sources progress entry = some rewrite) :
    rewrite.path = sources.resolve entry.1 ∧
      progress.1.disk.loadSource (sources.resolve entry.1) = .ok rewrite.read := by
  refine ⟨(rewrite?_spec hrewrite).1, ?_⟩
  unfold rewrite? at hrewrite
  cases hload : progress.1.disk.loadSource (sources.resolve entry.1) with
  | error error => simp [hload, Except.toOption] at hrewrite
  | ok source =>
    simp only [hload, Except.toOption, Option.bind_some] at hrewrite
    split at hrewrite
    · simp at hrewrite
    · obtain rfl := Option.some.inj hrewrite
      rfl

/-- The turn of a script with functions to go. -/
def scriptTurn (plan : Plan) (decider : Decider σ) (sources : Sources) (progress : Fixing × σ)
    (entry : String × List Symbol) : Turn where
  path := sources.resolve entry.1
  workspace := progress.1.workspace
  rewrite := plan.rewrite? decider sources progress entry
  reads _ hown := reads_rewrite? hown

/-- The turns of several scripts. -/
def scriptTurns (plan : Plan) (decider : Decider σ) (sources : Sources) :
    List (String × List Symbol) → Fixing × σ → List Turn
  | [], _ => []
  | entry :: entries, progress =>
    plan.scriptTurn decider sources progress entry ::
      plan.scriptTurns decider sources entries (plan.fixScript decider sources progress entry)

theorem books_fixSheet (plan : Plan) (classes : List String) (fixing : Fixing) (path : Path) :
    Books fixing (plan.fixSheet classes fixing path) [sheetTurn classes fixing path] := by
  unfold fixSheet
  cases hstripped : strippedSheet? fixing.disk path classes with
  | none =>
    have hrewrite : (sheetTurn classes fixing path).rewrite = none := by
      simp [sheetTurn, hstripped]
    exact Turn.books_idle rfl hrewrite rfl rfl rfl rfl
  | some stripped =>
    obtain ⟨old, new⟩ := stripped
    have hrewrite : (sheetTurn classes fixing path).rewrite = some ⟨path, old, [], new⟩ := by
      simp [sheetTurn, hstripped]
    have hworkspace := plan.workspace_writeFile fixing ⟨path, old, [], new⟩
    have hchanged := changed_writeFile plan fixing ⟨path, old, [], new⟩
    obtain ⟨hfunctions, hclasses⟩ := functions_writeFile plan path new fixing
    refine Turn.books_write rfl hrewrite hworkspace hchanged ?_ hclasses
    rw [hfunctions]
    simp

theorem books_fixScript (plan : Plan) (decider : Decider σ) (sources : Sources)
    (progress : Fixing × σ) (entry : String × List Symbol) :
    Books progress.1 (plan.fixScript decider sources progress entry).1
      [plan.scriptTurn decider sources progress entry] := by
  obtain ⟨fixing, state⟩ := progress
  cases hload : fixing.disk.loadSource (sources.resolve entry.1) with
  | error error =>
    have hrewrite : plan.rewrite? decider sources (fixing, state) entry = none := by
      simp [rewrite?, hload, Except.toOption]
    unfold fixScript
    simp only [hload]
    exact Turn.books_idle rfl hrewrite rfl rfl rfl rfl
  | ok source =>
    unfold fixScript
    simp only [hload]
    split
    · rename_i hidle
      have hrewrite : plan.rewrite? decider sources (fixing, state) entry = none := by
        simp only [rewrite?, hload, Except.toOption, Option.bind_some]
        exact if_pos hidle
      exact Turn.books_idle rfl hrewrite rfl rfl rfl rfl
    · rename_i hactive
      generalize hchosen : (plan.acceptFunctions decider source entry.2 state).1 = chosen at *
      generalize hwritten : (commentedScript source chosen plan.stamp.iso).1 = written
      have hrewrite : plan.rewrite? decider sources (fixing, state) entry =
          some ⟨sources.resolve entry.1, source, chosen, written⟩ := by
        simp only [rewrite?, hload, Except.toOption, Option.bind_some, hchosen, hwritten]
        exact if_neg hactive
      have htakes := takes_writeFile plan fixing
        ⟨sources.resolve entry.1, source, chosen, written⟩
      have hworkspace := plan.workspace_writeFile fixing
        ⟨sources.resolve entry.1, source, chosen, written⟩
      have hchanged := changed_writeFile plan fixing
        ⟨sources.resolve entry.1, source, chosen, written⟩
      obtain ⟨hfunctions, hclasses⟩ :=
        functions_writeFile plan (sources.resolve entry.1) written fixing
      dsimp only at htakes hworkspace hchanged
      generalize plan.writeFile (sources.resolve entry.1) written fixing = result at *
      obtain ⟨worked, result⟩ := result
      cases worked with
      | true =>
        refine Turn.books_write rfl hrewrite hworkspace hchanged ?_ hclasses
        rw [← htakes, ← hfunctions]
        rfl
      | false =>
        refine Turn.books_write rfl hrewrite hworkspace hchanged ?_ hclasses
        rw [← htakes, ← hfunctions]
        exact (List.append_nil _).symm

theorem books_sheets (plan : Plan) (classes : List String) (paths : List Path) (fixing : Fixing) :
    Books fixing (paths.foldl (plan.fixSheet classes) fixing)
      (plan.sheetTurns classes paths fixing) := by
  induction paths generalizing fixing with
  | nil => exact .refl fixing
  | cons path paths ih => exact (plan.books_fixSheet classes fixing path).append (ih _)

theorem books_scripts (plan : Plan) (decider : Decider σ) (sources : Sources)
    (entries : List (String × List Symbol)) (progress : Fixing × σ) :
    Books progress.1 (entries.foldl (plan.fixScript decider sources) progress).1
      (plan.scriptTurns decider sources entries progress) := by
  induction entries generalizing progress with
  | nil => exact .refl progress.1
  | cons entry entries ih =>
    exact (plan.books_fixScript decider sources progress entry).append (ih _)

/-- The turns of the stylesheets, if there are classes to go. -/
def sheetsOf (plan : Plan) (scan : Scan) (classes : List String) (disk : Disk) : List Turn :=
  if classes.isEmpty then []
  else plan.sheetTurns classes scan.sources.stylesheets { disk, editor := { stamp := plan.stamp } }

theorem books_fixSheets (plan : Plan) (scan : Scan) (classes : List String) (disk : Disk) :
    ∃ fixing, Books { disk, editor := { stamp := plan.stamp } } fixing
        (plan.sheetsOf scan classes disk) ∧
      plan.fixSheets scan classes { disk, editor := { stamp := plan.stamp } } =
        { fixing with report := { fixing.report with classes } } := by
  unfold sheetsOf fixSheets
  split
  · rename_i hempty
    rw [List.isEmpty_iff.mp hempty]
    exact ⟨_, .refl _, rfl⟩
  · exact ⟨_, plan.books_sheets classes scan.sources.stylesheets _, rfl⟩

theorem map_path_sheetTurns (plan : Plan) (classes : List String) (paths : List Path)
    (fixing : Fixing) : (plan.sheetTurns classes paths fixing).map (·.path) = paths := by
  induction paths generalizing fixing with
  | nil => rfl
  | cons path paths ih => exact congrArg (path :: ·) (ih _)

theorem mem_sheetTurns {paths : List Path} {turn : Turn}
    (hturn : turn ∈ plan.sheetTurns classes paths fixing) :
    ∃ path fixing, turn = sheetTurn classes fixing path := by
  induction paths generalizing fixing with
  | nil => simp [sheetTurns] at hturn
  | cons path paths ih =>
    rcases List.mem_cons.mp hturn with rfl | hturn
    · exact ⟨path, fixing, rfl⟩
    · exact ih hturn

theorem mem_scriptTurns {entries : List (String × List Symbol)} {turn : Turn}
    (hturn : turn ∈ plan.scriptTurns decider sources entries progress) :
    ∃ entry ∈ entries, ∃ progress, turn = plan.scriptTurn decider sources progress entry := by
  induction entries generalizing progress with
  | nil => simp [scriptTurns] at hturn
  | cons entry entries ih =>
    rcases List.mem_cons.mp hturn with rfl | hturn
    · exact ⟨entry, List.mem_cons_self, progress, rfl⟩
    · obtain ⟨other, hother, hfound⟩ := ih hturn
      exact ⟨other, List.mem_cons_of_mem _ hother, hfound⟩

end Plan

end Deadwood.Fix
