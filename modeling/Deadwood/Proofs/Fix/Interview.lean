/-
# Interviews

A fix that asks takes up what was accepted. Its questions go through the unused
classes, and then through the functions of each script in order, up to an answer
that settles the rest. The answers can be noted down while they are given, which
changes nothing, and afterwards the notes alone tell what was accepted.

A function may be listed more than once and get different answers. So the notes are
used up: each time that it is listed it takes the next answer on it.
-/

import Deadwood.Proofs.Fix.Removals
import Mathlib.Logic.Function.Basic

namespace Deadwood.Fix

variable {σ α δ : Type} {decider : Decider σ}

/-! ## Notes -/

/-- The answers of a run, each with what it was about. -/
structure Transcript where
  classes : List (String × ClassDecision) := []
  functions : List (Symbol × FunctionDecision) := []

namespace Transcript

/-- Notes down answers on classes. -/
def addClasses (transcript : Transcript) (answers : List (String × ClassDecision)) : Transcript :=
  { transcript with classes := transcript.classes ++ answers }

/-- Notes down answers on functions. -/
def addFunctions (transcript : Transcript) (answers : List (Symbol × FunctionDecision)) :
    Transcript :=
  { transcript with functions := transcript.functions ++ answers }

@[simp]
theorem addClasses_nil (transcript : Transcript) : transcript.addClasses [] = transcript := by
  simp [addClasses]

@[simp]
theorem addClasses_addClasses (transcript : Transcript)
    (answers others : List (String × ClassDecision)) :
    (transcript.addClasses answers).addClasses others =
      transcript.addClasses (answers ++ others) := by
  simp [addClasses]

@[simp]
theorem addFunctions_nil (transcript : Transcript) : transcript.addFunctions [] = transcript := by
  simp [addFunctions]

@[simp]
theorem addFunctions_addFunctions (transcript : Transcript)
    (answers others : List (Symbol × FunctionDecision)) :
    (transcript.addFunctions answers).addFunctions others =
      transcript.addFunctions (answers ++ others) := by
  simp [addFunctions]

end Transcript

/-- Somebody who gives the same answers and notes them down. -/
def Decider.recording (decider : Decider σ) : Decider (σ × Transcript) where
  onClass name state :=
    let (decision, after) := decider.onClass name state.1
    (decision, after, state.2.addClasses [(name, decision)])
  onFunction function excerpt state :=
    let (decision, after) := decider.onFunction function excerpt state.1
    (decision, after, state.2.addFunctions [(function, decision)])

/-- Each item in turn gets an answer, up to one that settles the rest. -/
inductive Interview (settling : δ) : List α → List (α × δ) → Prop
  | done : Interview settling [] []
  | next {item : α} {items : List α} {decision : δ} {answers : List (α × δ)}
      (isOpen : decision ≠ settling) (rest : Interview settling items answers) :
      Interview settling (item :: items) ((item, decision) :: answers)
  | settled {item : α} {items : List α} : Interview settling (item :: items) [(item, settling)]

/-- The answers are on the first items, in order. -/
theorem Interview.sublist {settling : δ} {items : List α} {answers : List (α × δ)}
    (interview : Interview settling items answers) : (answers.map (·.1)).Sublist items := by
  induction interview with
  | done => exact List.Sublist.refl []
  | next isOpen rest ih => exact ih.cons_cons _
  | settled => exact (List.nil_sublist _).cons_cons _

theorem Interview.mem_of_mem {settling : δ} {items : List α} {answers : List (α × δ)}
    (interview : Interview settling items answers) {answer : α × δ} (hanswer : answer ∈ answers) :
    answer.1 ∈ items :=
  interview.sublist.subset (List.mem_map_of_mem hanswer)

/-! ## Classes -/

/-- The classes that were accepted, up to an answer that skips all. -/
def processed (answers : List (String × ClassDecision)) : List String :=
  ((answers.takeWhile (·.2 ≠ .skipAll)).filter (·.2 = .process)).map (·.1)

/-- The notes on classes tell which were accepted. -/
theorem askClasses_recording (decider : Decider σ) (names : List String) (state : σ) :
    ∃ answers final, Interview .skipAll names answers ∧
      askClasses decider names state = (processed answers, final) ∧
      ∀ transcript, askClasses decider.recording names (state, transcript) =
        (processed answers, final, transcript.addClasses answers) := by
  induction names generalizing state with
  | nil => exact ⟨[], state, .done, rfl, fun transcript => by simp [askClasses, processed]⟩
  | cons name names ih =>
    rcases hanswer : decider.onClass name state with ⟨decision, after⟩
    have hnoted : ∀ transcript, decider.recording.onClass name (state, transcript) =
        (decision, after, transcript.addClasses [(name, decision)]) := by
      intro transcript
      simp [Decider.recording, hanswer]
    obtain ⟨answers, final, interview, hplain, hrecorded⟩ := ih after
    cases decision with
    | process =>
      refine ⟨(name, .process) :: answers, final, .next (by decide) interview, ?_, ?_⟩
      · simp [askClasses, hanswer, hplain, processed]
      · intro transcript
        simp [askClasses, hnoted, hrecorded, processed]
    | skip =>
      refine ⟨(name, .skip) :: answers, final, .next (by decide) interview, ?_, ?_⟩
      · simp [askClasses, hanswer, hplain, processed]
      · intro transcript
        simp [askClasses, hnoted, hrecorded, processed]
    | skipAll =>
      refine ⟨[(name, .skipAll)], after, .settled, ?_, ?_⟩
      · simp [askClasses, hanswer, processed]
      · intro transcript
        simp [askClasses, hnoted, processed]

/-- The classes that were accepted are among those asked about. -/
theorem mem_of_mem_processed {names : List String} {answers : List (String × ClassDecision)}
    (interview : Interview .skipAll names answers) {name : String}
    (hname : name ∈ processed answers) : name ∈ names := by
  obtain ⟨answer, hanswer, rfl⟩ := List.mem_map.mp hname
  apply interview.mem_of_mem
  exact List.takeWhile_subset _ (List.mem_of_mem_filter hanswer)

/-! ## Functions -/

/-- The answers on each function, in order. -/
def answersOn (answers : List (Symbol × FunctionDecision)) (function : Symbol) :
    List FunctionDecision :=
  (answers.filter (·.1 = function)).map (·.2)

/-- Leaves out what was answered to be kept. Each item that is about a function takes
the next answer on it, if one is left. -/
def withoutKept (subject? : α → Option Symbol) :
    (Symbol → List FunctionDecision) → List α → List α
  | _, [] => []
  | left, item :: items =>
    match subject? item with
    | none => item :: withoutKept subject? left items
    | some function =>
      let others := withoutKept subject?
        (Function.update left function (left function).tail) items
      if (left function).head? = some .keep then others else item :: others

section

variable {subject? : α → Option Symbol} {left right : Symbol → List FunctionDecision}
  {items : List α} {functions : List Symbol}

theorem withoutKept_sublist (subject? : α → Option Symbol)
    (left : Symbol → List FunctionDecision) (items : List α) :
    (withoutKept subject? left items).Sublist items := by
  induction items generalizing left with
  | nil => exact List.Sublist.refl []
  | cons item items ih =>
    rw [withoutKept]
    split
    · exact (ih left).cons_cons item
    · dsimp only
      split
      · exact (ih _).cons item
      · exact (ih _).cons_cons item

/-- Only the answers on what is listed count. -/
theorem withoutKept_congr
    (hsame : ∀ item ∈ items, ∀ function, subject? item = some function →
      left function = right function) :
    withoutKept subject? left items = withoutKept subject? right items := by
  induction items generalizing left right with
  | nil => rfl
  | cons item items ih =>
    rw [withoutKept, withoutKept]
    cases hsubject : subject? item with
    | none =>
      dsimp only
      rw [ih fun other hother => hsame other (List.mem_cons_of_mem _ hother)]
    | some function =>
      have hfunction := hsame item List.mem_cons_self function hsubject
      dsimp only
      rw [hfunction, ih]
      intro other hother subject hother'
      by_cases heq : subject = function
      · subst heq
        simp
      · simp [heq, hsame other (List.mem_cons_of_mem _ hother) subject hother']

/-- Without answers everything stays. -/
theorem withoutKept_of_none (subject? : α → Option Symbol) (items : List α) :
    withoutKept subject? (fun _ => []) items = items := by
  induction items with
  | nil => rfl
  | cons item items ih =>
    rw [withoutKept]
    cases subject? item with
    | none => simp [ih]
    | some function => simp [ih]

/-- If no function is listed twice, each takes the first answer on it. -/
theorem withoutKept_of_nodup (hnodup : (items.filterMap subject?).Nodup)
    (left : Symbol → List FunctionDecision) :
    withoutKept subject? left items =
      items.filter fun item => (subject? item).all fun function =>
        (left function).head? ≠ some .keep := by
  induction items generalizing left with
  | nil => rfl
  | cons item items ih =>
    rw [withoutKept, List.filter_cons]
    cases hsubject : subject? item with
    | none =>
      rw [List.filterMap_cons_none hsubject] at hnodup
      simp [ih hnodup]
    | some function =>
      rw [List.filterMap_cons_some hsubject, List.nodup_cons] at hnodup
      have hothers : withoutKept subject?
          (Function.update left function (left function).tail) items =
            withoutKept subject? left items := by
        apply withoutKept_congr
        intro other hother subject hsubject'
        have hne : subject ≠ function := by
          rintro rfl
          exact hnodup.1 (List.mem_filterMap.mpr ⟨other, hother, hsubject'⟩)
        simp [hne]
      dsimp only
      rw [hothers, ih hnodup.2]
      by_cases hkeep : (left function).head? = some .keep
      · simp [hkeep]
      · simp [hkeep]

/-- What becomes of some functions does not depend on the others. -/
theorem filter_withoutKept (keeps : Symbol → Bool) (left : Symbol → List FunctionDecision)
    (functions : List Symbol) :
    (withoutKept some left functions).filter keeps =
      withoutKept some left (functions.filter keeps) := by
  induction functions generalizing left with
  | nil => rfl
  | cons function functions ih =>
    rw [withoutKept]
    dsimp only
    by_cases hkeeps : keeps function = true
    · rw [List.filter_cons_of_pos hkeeps, withoutKept]
      dsimp only
      split
      · exact ih _
      · rw [List.filter_cons_of_pos hkeeps, ih]
    · rw [List.filter_cons_of_neg hkeeps]
      -- The answer that is taken here is on no function that stays.
      have hothers : withoutKept some (Function.update left function (left function).tail)
          (functions.filter keeps) = withoutKept some left (functions.filter keeps) := by
        apply withoutKept_congr
        intro other hother subject hsubject
        obtain rfl := Option.some.inj hsubject
        have hne : other ≠ function := by
          rintro rfl
          exact hkeeps (List.mem_filter.mp hother).2
        simp [hne]
      split
      · rw [ih, hothers]
      · rw [List.filter_cons_of_neg hkeeps, ih, hothers]

/-- What is left of some items is about what is left of their functions. -/
theorem filterMap_withoutKept (subject? : α → Option Symbol)
    (left : Symbol → List FunctionDecision) (items : List α) :
    (withoutKept subject? left items).filterMap subject? =
      withoutKept some left (items.filterMap subject?) := by
  induction items generalizing left with
  | nil => rfl
  | cons item items ih =>
    rw [withoutKept]
    cases hsubject : subject? item with
    | none =>
      dsimp only
      rw [List.filterMap_cons_none hsubject, List.filterMap_cons_none hsubject, ih]
    | some function =>
      rw [List.filterMap_cons_some hsubject, withoutKept]
      dsimp only
      split
      · exact ih _
      · rw [List.filterMap_cons_some hsubject, ih]

/-- Functions can be put in order before or after. -/
theorem withoutKept_inOrder (left : Symbol → List FunctionDecision) (functions : List Symbol) :
    withoutKept some left (Plan.inOrder functions) =
      Plan.inOrder (withoutKept some left functions) := by
  have hsorted : ∀ functions : List Symbol,
      (Plan.inOrder functions).Pairwise fun a b => comesFirst a b = true := fun functions =>
    List.pairwise_mergeSort isRanking_comesFirst.trans isRanking_comesFirst.total functions
  apply isRanking_comesFirst.eq_of_filter
  · exact (hsorted functions).sublist (withoutKept_sublist some left _)
  · exact hsorted _
  · intro function
    show _ = ((withoutKept some left functions).mergeSort comesFirst).filter _
    rw [isRanking_comesFirst.filter_mergeSort, filter_withoutKept, filter_withoutKept]
    congr 1
    exact isRanking_comesFirst.filter_mergeSort function functions

/-- The first function takes the first answer if that is about it. -/
theorem withoutKept_cons_answered (function : Symbol) (decision : FunctionDecision)
    (answers : List (Symbol × FunctionDecision)) (functions : List Symbol) :
    withoutKept some (answersOn ((function, decision) :: answers)) (function :: functions) =
      if decision = .keep then withoutKept some (answersOn answers) functions
      else function :: withoutKept some (answersOn answers) functions := by
  have hleft : Function.update (answersOn ((function, decision) :: answers)) function
      (answersOn ((function, decision) :: answers) function).tail = answersOn answers := by
    funext other
    by_cases hother : other = function
    · subst hother
      simp [answersOn]
    · simp [answersOn, hother, Ne.symm hother]
  have hfirst : (answersOn ((function, decision) :: answers) function).head? = some decision := by
    simp [answersOn]
  rw [withoutKept]
  simp only [hleft, hfirst, Option.some.injEq]

end

/-- The notes on functions tell which were accepted. -/
theorem askFunctions_recording (decider : Decider σ) (excerptOf : Symbol → String)
    (functions : List Symbol) (state : σ) :
    ∃ answers final, Interview .commentAllInFile functions answers ∧
      askFunctions decider excerptOf functions state =
        (withoutKept some (answersOn answers) functions, final) ∧
      ∀ transcript, askFunctions decider.recording excerptOf functions (state, transcript) =
        (withoutKept some (answersOn answers) functions, final,
          transcript.addFunctions answers) := by
  induction functions generalizing state with
  | nil => exact ⟨[], state, .done, rfl, fun transcript => by simp [askFunctions, withoutKept]⟩
  | cons function functions ih =>
    rcases hanswer : decider.onFunction function (excerptOf function) state with ⟨decision, after⟩
    have hnoted : ∀ transcript,
        decider.recording.onFunction function (excerptOf function) (state, transcript) =
          (decision, after, transcript.addFunctions [(function, decision)]) := by
      intro transcript
      simp [Decider.recording, hanswer]
    obtain ⟨answers, final, interview, hplain, hrecorded⟩ := ih after
    cases decision with
    | comment =>
      refine ⟨(function, .comment) :: answers, final, .next (by decide) interview, ?_, ?_⟩
      · simp [askFunctions, hanswer, hplain, withoutKept_cons_answered]
      · intro transcript
        simp [askFunctions, hnoted, hrecorded, withoutKept_cons_answered]
    | keep =>
      refine ⟨(function, .keep) :: answers, final, .next (by decide) interview, ?_, ?_⟩
      · simp [askFunctions, hanswer, hplain, withoutKept_cons_answered]
      · intro transcript
        simp [askFunctions, hnoted, hrecorded, withoutKept_cons_answered]
    | commentAllInFile =>
      have hnone : answersOn [] = fun _ => [] := by
        funext other
        rfl
      refine ⟨[(function, .commentAllInFile)], after, .settled, ?_, ?_⟩
      · simp [askFunctions, hanswer, withoutKept_cons_answered, hnone, withoutKept_of_none]
      · intro transcript
        simp [askFunctions, hnoted, withoutKept_cons_answered, hnone, withoutKept_of_none]

end Deadwood.Fix
