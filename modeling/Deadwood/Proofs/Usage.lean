/-
# What a fold of files finds dead

A pass folds the files of a project one after the other into tables: a file adds
what it contributes, or is noted as left out. This module says what the tables and
the findings are without the fold. The tables of some outcomes are their `total`:
sets of names, lists in the order of the files, and of several declarations of one
name in one file the first.

That a file which is left out changes nothing else, and that the order of the files
matters to the order of lists only, is then read off what the findings are.
-/

import Deadwood.Proofs.Names
import Deadwood.Scan
import Mathlib.Data.List.Induction

namespace Deadwood

/-! ## Outcomes -/

/-- What became of a file: what it contributes, or why it was left out. -/
structure Outcome where
  file : String
  result : Except SourceError Contribution

namespace Outcome

/-- What a file contributes, unless it was left out. -/
def contribution? (outcome : Outcome) : Option Contribution :=
  outcome.result.toOption

/-- What is noted of a file that was left out. -/
def fault? (outcome : Outcome) : Option FileFault :=
  match outcome.result with
  | .ok _ => none
  | .error error => some ⟨outcome.file, error.message⟩

/-- What becomes of a file of a project. -/
def ofFile (disk : Disk) (sources : Sources) (kind : FileKind) (path : Path) : Outcome where
  file := sources.shown path
  result := (disk.loadSource path).map (Contribution.ofSource kind · (sources.shown path))

/-- What becomes of all files of a project, in order. -/
def all (disk : Disk) (sources : Sources) : List Outcome :=
  sources.all.map fun (kind, path) => ofFile disk sources kind path

end Outcome

/-- What tells declarations apart: the file and the name. -/
def Symbol.key (function : Symbol) : Option String × String :=
  (function.file, function.name)

/-- What files contribute, in order. -/
def contributions (outcomes : List Outcome) : List Contribution :=
  outcomes.filterMap (·.contribution?)

/-- The functions that files declare, in order. -/
def declared (outcomes : List Outcome) : List Symbol :=
  (contributions outcomes).flatMap (·.functions)

/-- No file mentions a name. -/
def NoneMentions (outcomes : List Outcome) (name : String) : Prop :=
  ∀ contribution ∈ contributions outcomes, name ∉ contribution.mentions

instance (outcomes : List Outcome) (name : String) : Decidable (NoneMentions outcomes name) :=
  inferInstanceAs
    (Decidable (∀ contribution ∈ contributions outcomes, name ∉ contribution.mentions))

variable {outcomes others : List Outcome}

theorem contributions_perm (hperm : outcomes.Perm others) :
    (contributions outcomes).Perm (contributions others) :=
  hperm.filterMap _

theorem declared_perm (hperm : outcomes.Perm others) : (declared outcomes).Perm (declared others) :=
  (contributions_perm hperm).flatMap_right _

theorem noneMentions_congr (hperm : outcomes.Perm others) (name : String) :
    NoneMentions outcomes name ↔ NoneMentions others name := by
  apply forall_congr'
  intro contribution
  rw [(contributions_perm hperm).mem_iff]

namespace Usage

/-! ## First declarations -/

/-- The functions that are kept of some declarations. -/
def firsts (functions : List Symbol) : List Symbol :=
  functions.foldl addFunction []

theorem firsts_append (functions more : List Symbol) :
    firsts (functions ++ more) = more.foldl addFunction (firsts functions) :=
  List.foldl_append

private theorem addFunction_eq (functions : List Symbol) (function : Symbol) :
    addFunction functions function =
      if function.key ∈ functions.map Symbol.key then functions else functions ++ [function] := by
  have hany : (functions.any fun other =>
      other.name == function.name && other.file == function.file) = true ↔
        function.key ∈ functions.map Symbol.key := by
    simp only [List.any_eq_true, Bool.and_eq_true, beq_iff_eq, List.mem_map, Symbol.key,
      Prod.mk.injEq]
    exact exists_congr fun other => and_congr_right fun _ => and_comm
  simp only [addFunction, hany]

/-- Each name of a file is kept once, in the order of the first declarations. -/
theorem keys_firsts (functions : List Symbol) :
    (firsts functions).map Symbol.key = (functions.map Symbol.key).eraseDups := by
  induction functions using List.reverseRecOn with
  | nil => rfl
  | append_singleton functions function ih =>
    rw [firsts_append, List.foldl_cons, List.foldl_nil, addFunction_eq, ih, List.map_append,
      List.eraseDups_append]
    by_cases hkey : function.key ∈ functions.map Symbol.key
    · have hknown : [function.key].removeAll (functions.map Symbol.key) = [] := by
        rw [List.removeAll, List.filter_cons_of_neg (by simpa using hkey), List.filter_nil]
      rw [if_pos (List.mem_eraseDups.mpr hkey), ih, List.map_singleton, hknown]
      simp
    · have hnew : [function.key].removeAll (functions.map Symbol.key) = [function.key] := by
        rw [List.removeAll, List.filter_cons_of_pos (by simpa using hkey), List.filter_nil]
      rw [if_neg (mt List.mem_eraseDups.mp hkey), List.map_append, ih, List.map_singleton, hnew]
      rfl

/-- What is kept are the declarations that come first of their name in their
file. -/
theorem mem_firsts_iff {functions : List Symbol} {function : Symbol} :
    function ∈ firsts functions ↔ functions.find? (·.key == function.key) = some function := by
  induction functions using List.reverseRecOn with
  | nil => simp [firsts]
  | append_singleton functions last ih =>
    have hknown : last.key ∈ (firsts functions).map Symbol.key ↔
        (functions.find? (·.key == last.key)).isSome = true := by
      simp [keys_firsts]
    rw [firsts_append, List.foldl_cons, List.foldl_nil, addFunction_eq, List.find?_append]
    by_cases hkey : last.key = function.key
    · -- The last declaration counts only if there is none before it.
      rw [hkey] at hknown ⊢
      cases hfind : functions.find? (·.key == function.key) with
      | some first =>
        rw [if_pos (hknown.mpr (by simp [hfind])), ih, hfind, Option.some_or]
      | none =>
        rw [hfind] at hknown ih
        rw [if_neg (by simp [hknown]), List.mem_append, ih]
        simp [hkey, eq_comm]
    · have hne : function ≠ last := by
        rintro rfl
        exact hkey rfl
      have hlast : [last].find? (·.key == function.key) = none := by simp [hkey]
      rw [hlast, Option.or_none, ← ih]
      split
      · rfl
      · simp [hne]

theorem nodup_keys_firsts (functions : List Symbol) :
    ((firsts functions).map Symbol.key).Nodup := by
  induction functions using List.reverseRecOn with
  | nil => exact List.nodup_nil
  | append_singleton functions function ih =>
    rw [firsts_append, List.foldl_cons, List.foldl_nil, addFunction_eq]
    split
    · exact ih
    · rename_i hnew
      rw [List.map_append, List.nodup_append]
      refine ⟨ih, by simp, ?_⟩
      rintro key hkey other hother rfl
      rw [List.map_singleton, List.mem_singleton] at hother
      exact hnew (hother ▸ hkey)

/-! ## Totals -/

/-- Adds what became of a file. -/
def fold (usage : Usage) (outcome : Outcome) : Usage :=
  match outcome.result with
  | .ok contribution => usage.add contribution
  | .error error => usage.skip outcome.file error.message

/-- The tables of some outcomes. -/
def ofOutcomes (outcomes : List Outcome) : Usage :=
  outcomes.foldl fold {}

/-- What some outcomes add up to. -/
def total (outcomes : List Outcome) : Usage where
  defined := sortedNames ((contributions outcomes).flatMap (·.defined))
  used := sortedNames ((contributions outcomes).flatMap (·.used))
  tags := sortedNames ((contributions outcomes).flatMap (·.tags.filter Advice.isDeprecated))
  functions := firsts (declared outcomes)
  mentions := sortedNames ((contributions outcomes).flatMap (·.mentions))
  diagnostics := (contributions outcomes).flatMap (·.diagnostics)
  skipped := outcomes.filterMap (·.fault?)

/-- One more outcome adds to the total. -/
theorem fold_total (outcomes : List Outcome) (outcome : Outcome) :
    (total outcomes).fold outcome = total (outcomes ++ [outcome]) := by
  obtain ⟨file, result⟩ := outcome
  cases result with
  | ok contribution =>
    simp [fold, add, total, declared, contributions, Outcome.contribution?, Outcome.fault?,
      Except.toOption, sortedNames_sortedNames_append, firsts_append]
  | error error =>
    simp [fold, skip, total, declared, contributions, Outcome.contribution?, Outcome.fault?,
      Except.toOption]

/-- The tables of some outcomes are what they add up to. -/
theorem ofOutcomes_eq_total (outcomes : List Outcome) : ofOutcomes outcomes = total outcomes := by
  induction outcomes using List.reverseRecOn with
  | nil => simp [ofOutcomes, total, contributions, declared, firsts]
  | append_singleton outcomes outcome ih =>
    rw [ofOutcomes, List.foldl_append, List.foldl_cons, List.foldl_nil, ← fold_total, ← ih]
    rfl

/-- A scan folds what becomes of its files. -/
theorem usageOf_eq_ofOutcomes (disk : Disk) (sources : Sources) :
    Scan.usageOf disk sources = ofOutcomes (Outcome.all disk sources) := by
  rw [ofOutcomes, Outcome.all, List.foldl_map, Scan.usageOf]
  congr
  funext usage ⟨kind, path⟩
  simp only [Scan.addFile, fold, Outcome.ofFile]
  cases disk.loadSource path with
  | ok source => rfl
  | error error => rfl

/-- Files that are left out change nothing but the list of such files. -/
theorem total_filter (outcomes : List Outcome) :
    total (outcomes.filter (·.contribution?.isSome)) = { total outcomes with skipped := [] } := by
  have hsame :
      contributions (outcomes.filter (·.contribution?.isSome)) = contributions outcomes := by
    rw [contributions, List.filterMap_filter]
    apply List.filterMap_congr
    intro outcome _
    cases outcome.contribution? <;> rfl
  have hnone : (outcomes.filter (·.contribution?.isSome)).filterMap (·.fault?) = [] := by
    rw [List.filterMap_eq_nil_iff]
    rintro ⟨file, result⟩ houtcome
    have hread := (List.mem_filter.mp houtcome).2
    cases result with
    | ok contribution => rfl
    | error error => simp [Outcome.contribution?, Except.toOption] at hread
  simp only [total, declared, hsame, hnone]

/-- The functions that are unused are those kept whose name no file mentions. -/
theorem unusedFunctions_total (outcomes : List Outcome) :
    (total outcomes).unusedFunctions =
      (firsts (declared outcomes)).filter fun function => NoneMentions outcomes function.name := by
  apply List.filter_congr
  intro function _
  rw [Bool.eq_iff_iff, decide_eq_true_iff]
  simp [total, NoneMentions]

end Usage

/-! ## Findings -/

/-- The findings and the unused functions of some outcomes, told by what the files
contribute. -/
structure Resolves (findings : Findings) (unused : List Symbol) (outcomes : List Outcome)
    (ignored : IgnoreSet) : Prop where
  classes_ascending : findings.unusedClasses.Pairwise (· < ·)
  mem_classes : ∀ name, name ∈ findings.unusedClasses ↔
    (∃ contribution ∈ contributions outcomes, name ∈ contribution.defined) ∧
      (∀ contribution ∈ contributions outcomes, name ∉ contribution.used) ∧
      ∀ pattern ∈ ignored.patterns, Wildcard.matchesName pattern.toList name.toList = false
  tags_ascending : findings.deprecatedTags.Pairwise (· < ·)
  mem_tags : ∀ tag, tag ∈ findings.deprecatedTags ↔
    (∃ contribution ∈ contributions outcomes, tag ∈ contribution.tags) ∧
      Path.lowerAscii tag ∈ Advice.deprecatedTags.map (·.1)
  advice : findings.tagAdvice = findings.deprecatedTags.map fun tag => (tag, Advice.forTag? tag)
  advised : ∀ tag ∈ findings.deprecatedTags,
    ∃ text, Advice.forTag? tag = some text ∧ (Path.lowerAscii tag, text) ∈ Advice.deprecatedTags
  inStep : findings.unusedFunctions = unused.map fun function =>
    ⟨function.name, function.file.getD ""⟩
  /-- One for each name in a file, in the order of the first declarations. -/
  keys : unused.map Symbol.key = ((declared outcomes).map Symbol.key).eraseDups.filter fun key =>
    NoneMentions outcomes key.2
  once : (unused.map Symbol.key).Nodup
  mem_unused : ∀ function, function ∈ unused ↔
    (declared outcomes).find? (·.key == function.key) = some function ∧
      NoneMentions outcomes function.name
  errors : findings.errors =
    ((contributions outcomes).flatMap (·.diagnostics)).filter (·.severity == .error)
  warnings : findings.warnings =
    ((contributions outcomes).flatMap (·.diagnostics)).filter (·.severity == .warning)
  skipped : findings.skipped = outcomes.filterMap (·.fault?)

theorem Advice.isDeprecated_iff {tag : String} :
    isDeprecated tag = true ↔ Path.lowerAscii tag ∈ deprecatedTags.map (·.1) := by
  rw [isDeprecated, forTag?, List.lookup_isSome_iff]
  simp [Path.lowerAscii]

theorem Advice.exists_forTag? {tag : String} (htag : isDeprecated tag = true) :
    ∃ text, forTag? tag = some text ∧ (Path.lowerAscii tag, text) ∈ deprecatedTags := by
  obtain ⟨text, htext⟩ := Option.isSome_iff_exists.mp htag
  obtain ⟨before, after, htable, -⟩ := List.lookup_eq_some_iff.mp htext
  refine ⟨text, htext, ?_⟩
  rw [htable]
  exact List.mem_append_right _ List.mem_cons_self

theorem IgnoreSet.ignores_eq_false_iff {ignored : IgnoreSet} {name : String} :
    ignored.ignores name = false ↔
      ∀ pattern ∈ ignored.patterns, Wildcard.matchesName pattern.toList name.toList = false := by
  simp [ignores]

/-- The findings of the total are those of the outcomes. -/
theorem Usage.resolves_total (outcomes : List Outcome) (ignored : IgnoreSet) :
    Resolves ((total outcomes).findings ignored) (total outcomes).unusedFunctions outcomes
      ignored := by
  have hkeys : (total outcomes).unusedFunctions.map Symbol.key =
      ((firsts (declared outcomes)).map Symbol.key).filter fun key =>
        NoneMentions outcomes key.2 := by
    rw [unusedFunctions_total, List.filter_map]
    rfl
  have htags : ∀ tag ∈ (total outcomes).tags, Advice.isDeprecated tag = true := by
    intro tag htag
    obtain ⟨contribution, -, hmem⟩ := List.mem_flatMap.mp (mem_sortedNames.mp htag)
    exact (List.mem_filter.mp hmem).2
  refine
    { classes_ascending := (ascending_sortedNames _).filter _
      mem_classes := ?_
      tags_ascending := ascending_sortedNames _
      mem_tags := ?_
      advice := rfl
      advised := fun tag htag => Advice.exists_forTag? (htags tag htag)
      inStep := rfl
      keys := by rw [hkeys, keys_firsts]
      once := by rw [hkeys]; exact (nodup_keys_firsts _).filter _
      mem_unused := ?_
      errors := rfl
      warnings := ?_
      skipped := rfl }
  · intro name
    simp only [findings, List.mem_filter, Bool.and_eq_true, Bool.not_eq_true',
      IgnoreSet.ignores_eq_false_iff, total, mem_sortedNames, List.mem_flatMap]
    simp
  · intro tag
    simp only [findings, total, mem_sortedNames, List.mem_flatMap, List.mem_filter,
      Advice.isDeprecated_iff]
    constructor
    · rintro ⟨contribution, hmem, htag, htable⟩
      exact ⟨⟨contribution, hmem, htag⟩, htable⟩
    · rintro ⟨⟨contribution, hmem, htag⟩, htable⟩
      exact ⟨contribution, hmem, htag, htable⟩
  · intro function
    rw [unusedFunctions_total, List.mem_filter, mem_firsts_iff]
    simp
  · apply List.filter_congr
    intro diagnostic _
    cases diagnostic.severity <;> rfl

/-- Findings that differ in the order of lists only, and unused functions that
differ in which of several declarations is kept. -/
structure Rearranges (findings other : Findings) (unused rest : List Symbol) : Prop where
  classes : other.unusedClasses = findings.unusedClasses
  tags : other.deprecatedTags = findings.deprecatedTags
  advice : other.tagAdvice = findings.tagAdvice
  functions : other.unusedFunctions.Perm findings.unusedFunctions
  keys : (rest.map Symbol.key).Perm (unused.map Symbol.key)
  errors : other.errors.Perm findings.errors
  warnings : other.warnings.Perm findings.warnings
  skipped : other.skipped.Perm findings.skipped

namespace Resolves

variable {findings other : Findings} {unused rest : List Symbol} {ignored : IgnoreSet}

theorem mem_keys (resolves : Resolves findings unused outcomes ignored)
    (key : Option String × String) :
    key ∈ unused.map Symbol.key ↔
      key ∈ (declared outcomes).map Symbol.key ∧ NoneMentions outcomes key.2 := by
  rw [resolves.keys, List.mem_filter, List.mem_eraseDups, decide_eq_true_iff]

theorem functions_eq (resolves : Resolves findings unused outcomes ignored) :
    findings.unusedFunctions = (unused.map Symbol.key).map fun key => ⟨key.2, key.1.getD ""⟩ := by
  rw [resolves.inStep, List.map_map]
  rfl

/-- The order of the files matters to the order of lists only. -/
theorem rearranges (resolves : Resolves findings unused outcomes ignored)
    (resolves' : Resolves other rest others ignored) (hperm : outcomes.Perm others) :
    Rearranges findings other unused rest := by
  have hsame := contributions_perm hperm
  have hclasses : other.unusedClasses = findings.unusedClasses := by
    apply resolves'.classes_ascending.eq_of_mem_iff resolves.classes_ascending
    intro name
    simp only [resolves'.mem_classes, resolves.mem_classes, hsame.mem_iff]
  have htags : other.deprecatedTags = findings.deprecatedTags := by
    apply resolves'.tags_ascending.eq_of_mem_iff resolves.tags_ascending
    intro tag
    simp only [resolves'.mem_tags, resolves.mem_tags, hsame.mem_iff]
  have hkeys : (rest.map Symbol.key).Perm (unused.map Symbol.key) := by
    rw [List.perm_ext_iff_of_nodup resolves'.once resolves.once]
    intro key
    rw [resolves'.mem_keys, resolves.mem_keys, noneMentions_congr hperm,
      ((declared_perm hperm).map _).mem_iff]
  have hdiagnostics := hsame.symm.flatMap_right (·.diagnostics)
  refine ⟨hclasses, htags, ?_, ?_, hkeys, ?_, ?_, ?_⟩
  · rw [resolves'.advice, resolves.advice, htags]
  · rw [resolves'.functions_eq, resolves.functions_eq]
    exact hkeys.map _
  · rw [resolves'.errors, resolves.errors]
    exact hdiagnostics.filter _
  · rw [resolves'.warnings, resolves.warnings]
    exact hdiagnostics.filter _
  · rw [resolves'.skipped, resolves.skipped]
    exact hperm.symm.filterMap _

end Resolves

/-- What a fold of outcomes finds is told by what the files contribute. Files that
are left out are listed and change nothing else, and the order of the files matters
to the order of lists only. A scan finds what the fold of its files does. -/
theorem findings_of_outcomes (outcomes : List Outcome) (ignored : IgnoreSet) :
    Resolves ((Usage.ofOutcomes outcomes).findings ignored)
        (Usage.ofOutcomes outcomes).unusedFunctions outcomes ignored ∧
      Usage.ofOutcomes (outcomes.filter (·.contribution?.isSome)) =
        { Usage.ofOutcomes outcomes with skipped := [] } ∧
      (∀ others, outcomes.Perm others →
        Rearranges ((Usage.ofOutcomes outcomes).findings ignored)
          ((Usage.ofOutcomes others).findings ignored)
          (Usage.ofOutcomes outcomes).unusedFunctions (Usage.ofOutcomes others).unusedFunctions) ∧
      ∀ disk sources settings,
        (Scan.ofSources disk sources settings).findings =
            (Usage.ofOutcomes (Outcome.all disk sources)).findings settings.ignoreClasses ∧
          (Scan.ofSources disk sources settings).unused =
            (Usage.ofOutcomes (Outcome.all disk sources)).unusedFunctions := by
  have hresolves : ∀ outcomes : List Outcome,
      Resolves ((Usage.ofOutcomes outcomes).findings ignored)
        (Usage.ofOutcomes outcomes).unusedFunctions outcomes ignored := by
    intro outcomes
    rw [Usage.ofOutcomes_eq_total]
    exact Usage.resolves_total outcomes ignored
  refine ⟨hresolves outcomes, ?_, ?_, ?_⟩
  · rw [Usage.ofOutcomes_eq_total, Usage.ofOutcomes_eq_total, Usage.total_filter]
  · intro others hperm
    exact (hresolves outcomes).rearranges (hresolves others) hperm
  · intro disk sources settings
    rw [← Usage.usageOf_eq_ofOutcomes]
    exact ⟨rfl, rfl⟩

/-! ## Two scripts with a function each -/

/-- A script that declares `help` on its first lines. -/
def helpOutcome (lines : Nat) : Outcome where
  file := "help.js"
  result := .ok {
    defined := ["dead", "live"]
    used := ["live"]
    tags := ["Center", "p"]
    functions := [.ofFunction "help" "help.js" ⟨0, 10, 1, lines⟩] }

/-- A file that could not be read. -/
def brokenOutcome : Outcome := ⟨"broken.js", .error .notText⟩

/-- Whichever of the two declarations comes first, one is found unused. -/
theorem findings_of_outcomes_help :
    [helpOutcome 1, brokenOutcome, helpOutcome 2].Perm
        [helpOutcome 2, brokenOutcome, helpOutcome 1] ∧
      Rearranges
        ((Usage.ofOutcomes [helpOutcome 1, brokenOutcome, helpOutcome 2]).findings {})
        ((Usage.ofOutcomes [helpOutcome 2, brokenOutcome, helpOutcome 1]).findings {})
        (Usage.ofOutcomes [helpOutcome 1, brokenOutcome, helpOutcome 2]).unusedFunctions
        (Usage.ofOutcomes [helpOutcome 2, brokenOutcome, helpOutcome 1]).unusedFunctions ∧
      (Usage.ofOutcomes [helpOutcome 1, brokenOutcome, helpOutcome 2]).unusedFunctions =
        [.ofFunction "help" "help.js" ⟨0, 10, 1, 1⟩] ∧
      (Usage.ofOutcomes [helpOutcome 2, brokenOutcome, helpOutcome 1]).unusedFunctions =
        [.ofFunction "help" "help.js" ⟨0, 10, 1, 2⟩] := by
  have hperm : [helpOutcome 1, brokenOutcome, helpOutcome 2].Perm
      [helpOutcome 2, brokenOutcome, helpOutcome 1] :=
    (List.reverse_perm _).symm
  refine ⟨hperm, (findings_of_outcomes _ {}).2.2.1 _ hperm, ?_, ?_⟩
  · rw [Usage.ofOutcomes_eq_total, Usage.unusedFunctions_total]
    decide
  · rw [Usage.ofOutcomes_eq_total, Usage.unusedFunctions_total]
    decide

end Deadwood
