/-
# What verdicts mean

All names are looked for at once, and every occurrence is counted for all functions
together. For a single function that comes to a plain search through the files: the
first mention of it gives the reason, and no other function makes a difference.

Mentions are told by offsets alone. The search meets the occurrences of all names in
the order in which they end; those of one name then begin in that order too.
-/

import Deadwood.Proofs.Disk.Project
import Deadwood.Proofs.Names
import Deadwood.Verdict
import Mathlib.Data.List.Forall2

namespace Deadwood.Verdict

variable {names : List String} {candidate : Symbol} {candidates : List Symbol} {file : String}
  {bytes before after word : List UInt8} {start stop : Nat} {verdicts : List Verdict}

/-! ## Mentions -/

/-- A word stands at an offset of a file, and no byte of a word stands next to it. -/
def IsWordAt (word bytes : List UInt8) (start : Nat) : Prop :=
  ∃ before after, bytes = before ++ (word ++ after) ∧ before.length = start ∧
    before.getLast?.any isWordByte = false ∧ after.head?.any isWordByte = false

/-- A file mentions a function at an offset: its name stands there as a whole word,
other than in the declaration of the function itself. -/
def Mentions (candidate : Symbol) (file : String) (bytes : List UInt8) (start : Nat) : Prop :=
  IsWordAt (bytesOf candidate.name) bytes start ∧
    ¬ (candidate.file = some file ∧ candidate.span.any (·.contains start))

/-- The reason that a mention gives to keep a function. -/
def reasonAt (candidate : Symbol) (file : String) (bytes : List UInt8) (start : Nat) : Reason :=
  let line := ((bytes.take start).count 0x0A + 1) % 0x100000000
  let previous := (bytes.take start).getLast?
  let rest := bytes.drop (start + (bytesOf candidate.name).length)
  if candidate.file = some file then .sameFile line
  else if previous.any isQuoteByte ∨ rest.head?.any isQuoteByte then .inString file line
  else if previous = some 0x2E then .property file line
  else if rest.find? (fun b => !isBlankByte b) = some 0x28 then .call file line
  else .elsewhere file line

theorem isWordAt_append_iff :
    IsWordAt word (before ++ (word ++ after)) before.length ↔
      before.getLast?.any isWordByte = false ∧ after.head?.any isWordByte = false := by
  constructor
  · rintro ⟨front, rest, hsame, hlength, hbefore, hafter⟩
    obtain ⟨rfl, hrest⟩ := List.append_inj hsame hlength.symm
    obtain rfl := List.append_cancel_left hrest
    exact ⟨hbefore, hafter⟩
  · rintro ⟨hbefore, hafter⟩
    exact ⟨before, after, rfl, rfl, hbefore, hafter⟩

theorem IsWordAt.length_le (hword : IsWordAt word bytes start) :
    start + word.length ≤ bytes.length := by
  obtain ⟨before, after, rfl, rfl, -, -⟩ := hword
  simp

/-! ## Reasons in one file -/

/-- What an occurrence that stands between two parts of a file gives as a reason. -/
theorem reasonFor?_eq (candidate : Symbol) (file : String) (before after : List UInt8) :
    reasonFor? file candidate ⟨candidate.name, before.length, before.reverse, after⟩ =
      if candidate.file = some file ∧ candidate.span.any (·.contains before.length) then none
      else some (reasonAt candidate file (before ++ (bytesOf candidate.name ++ after))
        before.length) := by
  have hdrop : (before ++ (bytesOf candidate.name ++ after)).drop
      (before.length + (bytesOf candidate.name).length) = after := by
    simp [← List.drop_drop]
  by_cases hfile : candidate.file = some file
  · cases hspan : candidate.span.any (·.contains before.length) <;>
      simp [reasonFor?, reasonAt, Occurrence.line, hfile, hspan]
  · simp [reasonFor?, reasonAt, classify, Occurrence.line, hfile, hdrop]

/-- What the name of a function gives as a reason if it ends at an offset, and only
there. -/
def IsReasonAt (candidate : Symbol) (file : String) (bytes : List UInt8) (stop : Nat) :
    Option Reason → Prop
  | none => ∀ start, start + (bytesOf candidate.name).length = stop →
      ¬ Mentions candidate file bytes start
  | some reason => ∃ start, start + (bytesOf candidate.name).length = stop ∧
      Mentions candidate file bytes start ∧ reason = reasonAt candidate file bytes start

/-- What the first mention that ends at or behind an offset gives as a reason. -/
def IsFirstFrom (candidate : Symbol) (file : String) (bytes : List UInt8) (stop : Nat) :
    Option Reason → Prop
  | none => ∀ start, stop ≤ start + (bytesOf candidate.name).length →
      ¬ Mentions candidate file bytes start
  | some reason => ∃ start, stop ≤ start + (bytesOf candidate.name).length ∧
      Mentions candidate file bytes start ∧ reason = reasonAt candidate file bytes start ∧
      ∀ earlier < start, stop ≤ earlier + (bytesOf candidate.name).length →
        ¬ Mentions candidate file bytes earlier

theorem IsReasonAt.or {here later : Option Reason} (hhere : IsReasonAt candidate file bytes stop here)
    (hlater : IsFirstFrom candidate file bytes (stop + 1) later) :
    IsFirstFrom candidate file bytes stop (here.or later) := by
  cases here with
  | some reason =>
    obtain ⟨start, hstop, hmentions, hreason⟩ := hhere
    exact ⟨start, Nat.le_of_eq hstop.symm, hmentions, hreason, fun earlier hearlier hfrom => by omega⟩
  | none =>
    have hnone : ∀ start, stop ≤ start + (bytesOf candidate.name).length →
        ¬ stop + 1 ≤ start + (bytesOf candidate.name).length →
        ¬ Mentions candidate file bytes start := fun start hfrom hnot => hhere start (by omega)
    cases later with
    | none =>
      intro start hfrom
      by_cases hbehind : stop + 1 ≤ start + (bytesOf candidate.name).length
      · exact hlater start hbehind
      · exact hnone start hfrom hbehind
    | some reason =>
      obtain ⟨start, hstop, hmentions, hreason, hfirst⟩ := hlater
      refine ⟨start, by omega, hmentions, hreason, ?_⟩
      intro earlier hearlier hfrom
      by_cases hbehind : stop + 1 ≤ earlier + (bytesOf candidate.name).length
      · exact hfirst earlier hearlier hbehind
      · exact hnone earlier hfrom hbehind

/-- At the end of a file only what ends right there is left. -/
theorem IsReasonAt.atEnd {here : Option Reason}
    (hhere : IsReasonAt candidate file bytes bytes.length here) :
    IsFirstFrom candidate file bytes bytes.length here := by
  have hend : ∀ start, Mentions candidate file bytes start →
      start + (bytesOf candidate.name).length ≤ bytes.length := fun start hmentions =>
    hmentions.1.length_le
  cases here with
  | none =>
    intro start hfrom hmentions
    exact hhere start (Nat.le_antisymm (hend start hmentions) hfrom) hmentions
  | some reason =>
    obtain ⟨start, hstop, hmentions, hreason⟩ := hhere
    exact ⟨start, Nat.le_of_eq hstop.symm, hmentions, hreason, fun earlier hearlier hfrom => by omega⟩

/-- A name that ends what has been read is found there. -/
theorem ending?_append (name : String) (front word after : List UInt8) :
    ending? (front ++ word).length (front ++ word).reverse after (name, word.reverse) =
      some ⟨name, front.length, front.reverse, after⟩ := by
  simp [ending?]

theorem ending?_eq_none (name : String) {read : List UInt8} (hends : ¬ word <:+ read)
    (after : List UInt8) : ending? stop read.reverse after (name, word.reverse) = none := by
  rw [ending?, if_neg]
  rwa [List.isPrefixOf_iff_prefix, List.reverse_prefix]

theorem isWord_iff (name : String) (word : List UInt8) :
    (⟨name, before.length, before.reverse, after⟩ : Occurrence).isWord = true ↔
      IsWordAt word (before ++ (word ++ after)) before.length := by
  rw [isWordAt_append_iff]
  simp [Occurrence.isWord]

/-- An occurrence is a reason where its name ends, if it is a whole word. -/
theorem isReasonAt_ending (candidate : Symbol) (file : String) (read after : List UInt8) :
    IsReasonAt candidate file (read ++ after) read.length
      (((ending? read.length read.reverse after
        (candidate.name, (bytesOf candidate.name).reverse)).filter (·.isWord)).bind
          (reasonFor? file candidate)) := by
  by_cases hends : bytesOf candidate.name <:+ read
  · obtain ⟨front, rfl⟩ := hends
    have hplace : ∀ start, start + (bytesOf candidate.name).length =
        (front ++ bytesOf candidate.name).length ↔ start = front.length := by
      intro start
      rw [List.length_append]
      omega
    rw [ending?_append, List.append_assoc, Option.filter_some]
    split
    · rename_i hisWord
      have hword := (isWord_iff candidate.name (bytesOf candidate.name)).mp hisWord
      rw [Option.bind_some, reasonFor?_eq]
      split
      · rename_i hown
        intro start hstop hmentions
        rw [(hplace start).mp hstop] at hmentions
        exact hmentions.2 hown
      · rename_i hown
        exact ⟨front.length, (hplace _).mpr rfl, ⟨hword, hown⟩, rfl⟩
    · rename_i hisWord
      intro start hstop hmentions
      rw [(hplace start).mp hstop] at hmentions
      exact hisWord ((isWord_iff candidate.name _).mpr hmentions.1)
  · rw [ending?_eq_none _ hends]
    rintro start hstop ⟨⟨front, rest, hsame, rfl, -, -⟩, -⟩
    rw [← List.append_assoc, ← List.length_append] at *
    obtain ⟨rfl, -⟩ := List.append_inj hsame (by simpa using hstop.symm)
    exact hends (List.suffix_append _ _)

/-! ## The search through one file -/

/-- The first reason that a file gives to keep a function, among occurrences of
several names. -/
def firstReason? (names : List String) (candidate : Symbol) (file : String) (bytes : List UInt8) :
    Option Reason :=
  ((occurrences names bytes).filter (·.isWord)).findSome? (reasonFor? file candidate)

private theorem findSome?_cons_or {α β : Type} (f : α → Option β) (a : α) (items : List α) :
    (a :: items).findSome? f = (f a).or (items.findSome? f) := by
  rw [List.findSome?_cons]
  cases f a <;> rfl

private theorem findSome?_of_mem {α β : Type} {f : α → Option β} {a : α} {items : List α}
    (ha : a ∈ items) (hothers : ∀ b, b ≠ a → f b = none) : items.findSome? f = f a := by
  induction items with
  | nil => simp at ha
  | cons b items ih =>
    by_cases hb : b = a
    · subst hb
      cases hfound : f b with
      | some found => simp [hfound]
      | none =>
        rw [List.findSome?_cons_of_isNone (by simp [hfound]), List.findSome?_eq_none_iff]
        intro c _
        by_cases hc : c = b
        · rw [hc, hfound]
        · exact hothers c hc
    · rw [List.findSome?_cons_of_isNone (by simp [hothers b hb])]
      exact ih (List.mem_of_ne_of_mem (Ne.symm hb) ha)

/-- Among the occurrences that end at one place, only that of the name of a function
gives a reason to keep it. -/
private theorem findSome?_ending (hname : candidate.name ∈ names) (file : String)
    (read after : List UInt8) :
    (((names.map fun name => (name, (bytesOf name).reverse)).filterMap
      (ending? read.length read.reverse after)).filter (·.isWord)).findSome?
        (reasonFor? file candidate) =
      ((ending? read.length read.reverse after
        (candidate.name, (bytesOf candidate.name).reverse)).filter (·.isWord)).bind
          (reasonFor? file candidate) := by
  have hother : ∀ name, name ≠ candidate.name → ((ending? read.length read.reverse after
      (name, (bytesOf name).reverse)).filter (·.isWord)).bind (reasonFor? file candidate) = none := by
    intro name hne
    rw [Option.bind_eq_none_iff]
    intro occurrence hoccurrence
    obtain ⟨hends, -⟩ := Option.filter_eq_some_iff.mp hoccurrence
    unfold ending? at hends
    split at hends
    · obtain rfl := Option.some.inj hends
      simp [reasonFor?, Ne.symm hne]
    · simp at hends
  rw [← findSome?_of_mem hname hother, ← List.head?_filterMap, ← List.head?_filterMap]
  congr 1
  clear hname hother
  induction names with
  | nil => rfl
  | cons name names ih =>
    rw [List.map_cons, List.filterMap_cons, List.filterMap_cons]
    cases ending? read.length read.reverse after (name, (bytesOf name).reverse) with
    | none => exact ih
    | some occurrence =>
      dsimp only
      rw [List.filter_cons, Option.filter_some]
      split
      · rw [List.filterMap_cons, ih, Option.bind_some]
      · exact ih

/-- The occurrences that are still to come hold the first mention of a function that
ends behind what has been read. -/
theorem isFirstFrom_occurrencesFrom (hname : candidate.name ∈ names) (file : String)
    (read rest : List UInt8) :
    IsFirstFrom candidate file (read ++ rest) read.length
      (((occurrencesFrom (names.map fun name => (name, (bytesOf name).reverse)) read.length
        read.reverse rest).filter (·.isWord)).findSome? (reasonFor? file candidate)) := by
  induction rest generalizing read with
  | nil =>
    have hhere := isReasonAt_ending candidate file read []
    rw [List.append_nil] at hhere ⊢
    rw [occurrencesFrom, findSome?_ending hname]
    exact hhere.atEnd
  | cons b rest ih =>
    have hlater := ih (read ++ [b])
    rw [List.reverse_concat, List.length_append, List.append_assoc] at hlater
    rw [occurrencesFrom, List.filter_append, List.findSome?_append, findSome?_ending hname]
    exact (isReasonAt_ending candidate file read (b :: rest)).or hlater

theorem isFirstFrom_firstReason? (hname : candidate.name ∈ names) (file : String)
    (bytes : List UInt8) :
    IsFirstFrom candidate file bytes 0 (firstReason? names candidate file bytes) :=
  isFirstFrom_occurrencesFrom hname file [] bytes

theorem firstReason?_eq_none_iff (hname : candidate.name ∈ names) :
    firstReason? names candidate file bytes = none ↔
      ∀ start, ¬ Mentions candidate file bytes start := by
  have hfirst := isFirstFrom_firstReason? hname file bytes
  constructor
  · intro hnone start
    rw [hnone] at hfirst
    exact hfirst start (Nat.zero_le _)
  · intro hnone
    cases hreason : firstReason? names candidate file bytes with
    | none => rfl
    | some reason =>
      rw [hreason] at hfirst
      obtain ⟨start, -, hmentions, -⟩ := hfirst
      exact absurd hmentions (hnone start)

/-- The first reason of a file is that of the first mention in it. -/
theorem firstReason?_eq_some_iff (hname : candidate.name ∈ names) {reason : Reason} :
    firstReason? names candidate file bytes = some reason ↔
      ∃ start, Mentions candidate file bytes start ∧
        (∀ earlier < start, ¬ Mentions candidate file bytes earlier) ∧
        reason = reasonAt candidate file bytes start := by
  have hfirst := isFirstFrom_firstReason? hname file bytes
  constructor
  · intro hsome
    rw [hsome] at hfirst
    obtain ⟨start, -, hmentions, hreason, hearlier⟩ := hfirst
    exact ⟨start, hmentions, fun earlier hless => hearlier earlier hless (Nat.zero_le _), hreason⟩
  · rintro ⟨start, hmentions, hearlier, rfl⟩
    cases hreason : firstReason? names candidate file bytes with
    | none => exact absurd hmentions ((firstReason?_eq_none_iff hname).mp hreason start)
    | some reason =>
      rw [hreason] at hfirst
      obtain ⟨other, -, hother, rfl, hfirst⟩ := hfirst
      obtain rfl : start = other := by
        rcases Nat.lt_trichotomy start other with hless | hsame | hless
        · exact absurd hmentions (hfirst start hless (Nat.zero_le _))
        · exact hsame
        · exact absurd hother (hearlier other hless)
      rfl

/-- Which other names are searched for makes no difference. -/
theorem firstReason?_congr {others : List String} (hname : candidate.name ∈ names)
    (hother : candidate.name ∈ others) (file : String) (bytes : List UInt8) :
    firstReason? names candidate file bytes = firstReason? others candidate file bytes := by
  cases hreason : firstReason? others candidate file bytes with
  | none => rwa [firstReason?_eq_none_iff hname, ← firstReason?_eq_none_iff hother]
  | some reason => rwa [firstReason?_eq_some_iff hname, ← firstReason?_eq_some_iff hother]

/-! ## All functions together -/

/-- A verdict after something that may be a reason. The first reason stands. -/
def orKept : Verdict → Option Reason → Verdict
  | .safe, some reason => .kept reason
  | verdict, _ => verdict

@[simp] theorem orKept_none (verdict : Verdict) : verdict.orKept none = verdict := by
  cases verdict <;> rfl

@[simp] theorem orKept_kept (reason : Reason) (other : Option Reason) :
    (kept reason).orKept other = .kept reason := rfl

theorem orKept_orKept (verdict : Verdict) (first second : Option Reason) :
    (verdict.orKept first).orKept second = verdict.orKept (first.or second) := by
  cases verdict <;> cases first <;> rfl

theorem safe_orKept_eq_safe_iff {reason : Option Reason} :
    orKept .safe reason = .safe ↔ reason = none := by
  cases reason <;> simp [orKept]

theorem safe_orKept_eq_kept_iff {found : Option Reason} {reason : Reason} :
    orKept .safe found = .kept reason ↔ found = some reason := by
  cases found <;> simp [orKept]

/-- The number of verdicts that can still change. -/
def countSafe (verdicts : List Verdict) : Nat :=
  verdicts.countP (·.isSafe)

@[simp] theorem countSafe_cons_safe (verdicts : List Verdict) :
    countSafe (.safe :: verdicts) = countSafe verdicts + 1 :=
  List.countP_cons_of_pos rfl

@[simp] theorem countSafe_cons_kept (reason : Reason) (verdicts : List Verdict) :
    countSafe (.kept reason :: verdicts) = countSafe verdicts :=
  List.countP_cons_of_neg Bool.false_ne_true

/-- The verdicts after something that may be a reason for each function. -/
def keepAll (reasonOf : Symbol → Option Reason) (candidates : List Symbol)
    (verdicts : List Verdict) : List Verdict :=
  List.zipWith (fun candidate verdict => verdict.orKept (reasonOf candidate)) candidates verdicts

@[simp] theorem keepAll_cons (reasonOf : Symbol → Option Reason) (candidate : Symbol)
    (candidates : List Symbol) (verdict : Verdict) (verdicts : List Verdict) :
    keepAll reasonOf (candidate :: candidates) (verdict :: verdicts) =
      verdict.orKept (reasonOf candidate) :: keepAll reasonOf candidates verdicts := rfl

theorem length_keepAll (hlength : candidates.length = verdicts.length)
    (reasonOf : Symbol → Option Reason) :
    candidates.length = (keepAll reasonOf candidates verdicts).length := by
  simp [keepAll, hlength]

theorem keepAll_eq_self (hlength : candidates.length = verdicts.length)
    {reasonOf : Symbol → Option Reason}
    (hsame : ∀ candidate, ∀ verdict ∈ verdicts, verdict.orKept (reasonOf candidate) = verdict) :
    keepAll reasonOf candidates verdicts = verdicts := by
  apply List.ext_getElem (length_keepAll hlength reasonOf ▸ hlength)
  intro index _ hindex
  simp [keepAll, hsame]

theorem keepAll_keepAll (first second : Symbol → Option Reason) (candidates : List Symbol)
    (verdicts : List Verdict) :
    keepAll second candidates (keepAll first candidates verdicts) =
      keepAll (fun candidate => (first candidate).or (second candidate)) candidates verdicts := by
  induction candidates generalizing verdicts with
  | nil => rfl
  | cons candidate candidates ih =>
    cases verdicts with
    | nil => rfl
    | cons verdict verdicts => simp only [keepAll_cons, orKept_orKept, ih]

/-- Without a safe verdict, nothing changes any more. -/
theorem keepAll_of_none_safe (hlength : candidates.length = verdicts.length)
    (hnone : countSafe verdicts = 0) (reasonOf : Symbol → Option Reason) :
    keepAll reasonOf candidates verdicts = verdicts := by
  refine keepAll_eq_self hlength fun candidate verdict hverdict => ?_
  cases verdict with
  | safe => exact absurd rfl (List.countP_eq_zero.mp hnone _ hverdict)
  | kept reason => rfl

/-- The count goes down once for every function that gets its reason, and there is
one left each time. -/
theorem recordAll_eq (hlength : candidates.length = verdicts.length) (file : String)
    (occurrence : Occurrence) (others : Nat) :
    recordAll file occurrence candidates verdicts (countSafe verdicts + others) =
      some ⟨keepAll (reasonFor? file · occurrence) candidates verdicts,
        countSafe (keepAll (reasonFor? file · occurrence) candidates verdicts) + others⟩ := by
  induction candidates generalizing verdicts others with
  | nil =>
    obtain rfl := List.eq_nil_of_length_eq_zero hlength.symm
    rfl
  | cons candidate candidates ih =>
    cases verdicts with
    | nil => simp at hlength
    | cons verdict verdicts =>
      have hrest : candidates.length = verdicts.length := by simpa using hlength
      cases verdict with
      | kept reason => simp [recordAll, ih hrest]
      | safe =>
        cases hreason : reasonFor? file candidate occurrence with
        | none =>
          have hlater := ih hrest (others + 1)
          rw [countSafe_cons_safe, Nat.add_assoc, Nat.add_comm 1]
          simp only [recordAll, keepAll_cons, hreason, hlater, Option.map_some, orKept_none,
            countSafe_cons_safe]
          rw [Nat.add_assoc, Nat.add_comm 1]
        | some reason =>
          have hlater := ih hrest others
          rw [countSafe_cons_safe, Nat.add_right_comm]
          simp only [recordAll, keepAll_cons, hreason, hlater, Option.map_some]
          rfl

/-- The verdicts with the number of those that can still change. -/
def Tally.of (verdicts : List Verdict) : Tally :=
  ⟨verdicts, countSafe verdicts⟩

theorem afterFile?_eq (hlength : candidates.length = verdicts.length) (names : List String)
    (file : String) (bytes : List UInt8) :
    afterFile? names candidates file bytes (.of verdicts) =
      some (.of (keepAll (firstReason? names · file bytes) candidates verdicts)) := by
  unfold afterFile? firstReason?
  generalize (occurrences names bytes).filter (·.isWord) = found
  induction found generalizing verdicts with
  | nil => simp [keepAll_eq_self hlength, pure]
  | cons occurrence found ih =>
    have hrecord := recordAll_eq hlength file occurrence 0
    have hrest := ih (length_keepAll hlength (reasonFor? file · occurrence))
    rw [keepAll_keepAll] at hrest
    rw [List.foldlM_cons, Tally.of]
    dsimp only
    rw [← Nat.add_zero (countSafe verdicts), hrecord]
    simpa [findSome?_cons_or, Tally.of] using hrest

theorem afterFiles?_eq (hlength : candidates.length = verdicts.length) (names : List String)
    (files : List (String × List UInt8)) :
    afterFiles? names candidates files (.of verdicts) =
      some (.of (keepAll (fun candidate => files.findSome? fun file =>
        firstReason? names candidate file.1 file.2) candidates verdicts)) := by
  induction files generalizing verdicts with
  | nil => simp [afterFiles?, keepAll_eq_self hlength]
  | cons file files ih =>
    have hlater := length_keepAll hlength (firstReason? names · file.1 file.2)
    simp only [findSome?_cons_or, ← keepAll_keepAll]
    rw [afterFiles?, afterFile?_eq hlength, Option.bind_some]
    split
    · rename_i hdone
      rw [keepAll_of_none_safe hlater hdone]
    · exact ih hlater

theorem countSafe_all (candidates : List Symbol) :
    countSafe (candidates.map fun _ => .safe) = candidates.length := by
  rw [countSafe, List.countP_map]
  exact congrFun List.countP_true candidates

theorem keepAll_all (reasonOf : Symbol → Option Reason) (candidates : List Symbol) :
    keepAll reasonOf candidates (candidates.map fun _ => .safe) =
      candidates.map fun candidate => orKept .safe (reasonOf candidate) := by
  rw [keepAll, List.zipWith_map_right, List.zipWith_self]

/-- The verdict on each function is the one it would get alone. -/
theorem judge?_eq (files : List (String × List UInt8)) (candidates : List Symbol) :
    judge? files candidates = some (candidates.map fun candidate =>
      orKept .safe (files.findSome? fun file =>
        firstReason? [candidate.name] candidate file.1 file.2)) := by
  unfold judge?
  split
  · rename_i hempty
    rw [List.isEmpty_iff.mp hempty]
    rfl
  · have hlength : candidates.length = (candidates.map fun _ => safe).length := by simp
    have hall := afterFiles?_eq hlength (sortedNames (candidates.map (·.name))) files
    rw [Tally.of, countSafe_all] at hall
    rw [hall, Option.map_some, Tally.of, keepAll_all]
    congr 1
    apply List.map_congr_left
    intro candidate hcandidate
    have hname : candidate.name ∈ sortedNames (candidates.map (·.name)) :=
      mem_sortedNames.mpr (List.mem_map_of_mem hcandidate)
    simp only [firstReason?_congr hname (List.mem_singleton_self candidate.name)]

/-! ## Verdicts from a corpus -/

variable {disk : Disk} {root path : Path} {corpus : List Path}

/-- No file of a corpus that can be read mentions a function. -/
def Unmentioned (disk : Disk) (root : Path) (corpus : List Path) (candidate : Symbol) : Prop :=
  ∀ path ∈ corpus, ∀ bytes, disk.read path = .ok bytes →
    ∀ start, ¬ Mentions candidate (path.shownIn root) bytes.data.toList start

/-- The first mention of a function, in the order of the corpus and then of the
offsets, gives a reason to keep it. -/
def FirstMentioned (disk : Disk) (root : Path) (corpus : List Path) (candidate : Symbol)
    (reason : Reason) : Prop :=
  ∃ earlier path later bytes start, corpus = earlier ++ path :: later ∧
    Unmentioned disk root earlier candidate ∧ disk.read path = .ok bytes ∧
    Mentions candidate (path.shownIn root) bytes.data.toList start ∧
    (∀ before < start, ¬ Mentions candidate (path.shownIn root) bytes.data.toList before) ∧
    reason = reasonAt candidate (path.shownIn root) bytes.data.toList start

/-- The first reason that a file of a corpus gives to keep a function. -/
def reasonIn? (disk : Disk) (root : Path) (candidate : Symbol) (path : Path) : Option Reason :=
  (corpusContent? disk root path).bind fun file =>
    firstReason? [candidate.name] candidate file.1 file.2

theorem judge?_corpusContents (disk : Disk) (root : Path) (corpus : List Path)
    (candidates : List Symbol) :
    judge? (corpusContents disk root corpus) candidates = some (candidates.map fun candidate =>
      orKept .safe (corpus.findSome? (reasonIn? disk root candidate))) := by
  rw [judge?_eq]
  simp only [corpusContents, ← List.head?_filterMap, List.filterMap_filterMap]
  rfl

theorem reasonIn?_of_error {error : DiskError} (hread : disk.read path = .error error) :
    reasonIn? disk root candidate path = none := by
  simp [reasonIn?, corpusContent?, hread]

theorem reasonIn?_of_empty {bytes : ByteArray} (hread : disk.read path = .ok bytes)
    (hempty : bytes.isEmpty = true) : reasonIn? disk root candidate path = none := by
  simp [reasonIn?, corpusContent?, hread, hempty]

theorem reasonIn?_of_filled {bytes : ByteArray} (hread : disk.read path = .ok bytes)
    (hfilled : bytes.isEmpty = false) :
    reasonIn? disk root candidate path =
      firstReason? [candidate.name] candidate (path.shownIn root) bytes.data.toList := by
  simp [reasonIn?, corpusContent?, hread, hfilled]

theorem reasonIn?_eq_none_iff :
    reasonIn? disk root candidate path = none ↔
      ∀ bytes, disk.read path = .ok bytes → bytes.isEmpty = false →
        ∀ start, ¬ Mentions candidate (path.shownIn root) bytes.data.toList start := by
  cases hread : disk.read path with
  | error error => simp [reasonIn?_of_error hread]
  | ok bytes =>
    cases hempty : bytes.isEmpty with
    | true => simp [reasonIn?_of_empty hread hempty, hempty]
    | false =>
      rw [reasonIn?_of_filled hread hempty,
        firstReason?_eq_none_iff (List.mem_singleton_self candidate.name)]
      simp [hempty]

theorem bytesOf_ne_nil {name : String} (hname : name ≠ "") : bytesOf name ≠ [] := by
  intro hempty
  apply hname
  rw [← String.utf8ByteSize_eq_zero_iff]
  simpa [bytesOf] using congrArg List.length hempty

/-- A name does not stand in a file without bytes. -/
theorem IsWordAt.isEmpty_eq_false {name : String} {bytes : ByteArray}
    (hword : IsWordAt (bytesOf name) bytes.data.toList start) (hname : name ≠ "") :
    bytes.isEmpty = false := by
  have hfits := hword.length_le
  have hlength := List.length_pos_of_ne_nil (bytesOf_ne_nil hname)
  simp only [ByteArray.isEmpty, beq_eq_false_iff_ne, ByteArray.size, ← Array.length_toList]
  omega

theorem reasonIn?_eq_none_iff_of_named (hname : candidate.name ≠ "") :
    reasonIn? disk root candidate path = none ↔
      ∀ bytes, disk.read path = .ok bytes →
        ∀ start, ¬ Mentions candidate (path.shownIn root) bytes.data.toList start := by
  rw [reasonIn?_eq_none_iff]
  constructor
  · intro hnone bytes hread start hmentions
    exact hnone bytes hread (hmentions.1.isEmpty_eq_false hname) start hmentions
  · intro hnone bytes hread _
    exact hnone bytes hread

theorem reasonIn?_eq_some_iff (hname : candidate.name ≠ "") {reason : Reason} :
    reasonIn? disk root candidate path = some reason ↔
      ∃ bytes start, disk.read path = .ok bytes ∧
        Mentions candidate (path.shownIn root) bytes.data.toList start ∧
        (∀ before < start, ¬ Mentions candidate (path.shownIn root) bytes.data.toList before) ∧
        reason = reasonAt candidate (path.shownIn root) bytes.data.toList start := by
  have hsome : ∀ bytes, disk.read path = .ok bytes → bytes.isEmpty = false →
      (reasonIn? disk root candidate path = some reason ↔
        ∃ start, Mentions candidate (path.shownIn root) bytes.data.toList start ∧
          (∀ before < start, ¬ Mentions candidate (path.shownIn root) bytes.data.toList before) ∧
          reason = reasonAt candidate (path.shownIn root) bytes.data.toList start) := by
    intro bytes hread hfilled
    rw [reasonIn?_of_filled hread hfilled,
      firstReason?_eq_some_iff (List.mem_singleton_self candidate.name)]
  constructor
  · intro hreason
    cases hread : disk.read path with
    | error error => simp [reasonIn?_of_error hread] at hreason
    | ok bytes =>
      cases hempty : bytes.isEmpty with
      | true => simp [reasonIn?_of_empty hread hempty] at hreason
      | false =>
        obtain ⟨start, hfirst⟩ := (hsome bytes hread hempty).mp hreason
        exact ⟨bytes, start, rfl, hfirst⟩
  · rintro ⟨bytes, start, hread, hmentions, hfirst⟩
    exact (hsome bytes hread (hmentions.1.isEmpty_eq_false hname)).mpr ⟨start, hmentions, hfirst⟩

theorem findSome?_reasonIn?_eq_none_iff (hname : candidate.name ≠ "") :
    corpus.findSome? (reasonIn? disk root candidate) = none ↔
      Unmentioned disk root corpus candidate := by
  simp only [List.findSome?_eq_none_iff, reasonIn?_eq_none_iff_of_named hname]
  rfl

theorem findSome?_reasonIn?_eq_some_iff (hname : candidate.name ≠ "") {reason : Reason} :
    corpus.findSome? (reasonIn? disk root candidate) = some reason ↔
      FirstMentioned disk root corpus candidate reason := by
  simp only [List.findSome?_eq_some_iff, reasonIn?_eq_none_iff_of_named hname,
    reasonIn?_eq_some_iff hname]
  constructor
  · rintro ⟨earlier, path, later, hcorpus, ⟨bytes, start, hread, hfirst⟩, hearlier⟩
    exact ⟨earlier, path, later, bytes, start, hcorpus, hearlier, hread, hfirst⟩
  · rintro ⟨earlier, path, later, bytes, start, hcorpus, hearlier, hread, hfirst⟩
    exact ⟨earlier, path, later, hcorpus, ⟨bytes, start, hread, hfirst⟩, hearlier⟩

/-- Every function gets a verdict, the one it would get alone. Functions with a name
are safe if nothing mentions them; others are kept for their first mention. -/
theorem judge?_eq_some_firstMentioned (disk : Disk) (root : Path) (corpus : List Path)
    (candidates : List Symbol) :
    ∃ verdicts, judge? (corpusContents disk root corpus) candidates = some verdicts ∧
      judge (corpusContents disk root corpus) candidates = verdicts ∧
      List.Forall₂ (fun candidate verdict =>
        judge? (corpusContents disk root corpus) [candidate] = some [verdict] ∧
        (candidate.name ≠ "" →
          (verdict = .safe ↔ Unmentioned disk root corpus candidate) ∧
          ∀ reason, verdict = .kept reason ↔ FirstMentioned disk root corpus candidate reason))
        candidates verdicts := by
  have hverdicts := judge?_corpusContents disk root corpus candidates
  refine ⟨_, hverdicts, by rw [judge, hverdicts, Option.getD_some], ?_⟩
  rw [List.forall₂_map_right_iff, List.forall₂_same]
  intro candidate _
  refine ⟨judge?_corpusContents disk root corpus [candidate], ?_⟩
  intro hname
  rw [safe_orKept_eq_safe_iff, findSome?_reasonIn?_eq_none_iff hname]
  refine ⟨Iff.rfl, ?_⟩
  intro reason
  rw [safe_orKept_eq_kept_iff, findSome?_reasonIn?_eq_some_iff hname]

/-- A small corpus with a name inside of another. -/
def helpDisk : Disk where
  entries :=
    [(["app.js"], .file "function helper(){}helper;".toUTF8),
      (["lib.js"], .file "function help(){}".toUTF8),
      (["page.html"], .file "<a onclick='x;help()'>".toUTF8)]

def helpRoot : Path :=
  .ofLocation []

def helpCorpus : List Path :=
  [helpRoot.down ["app.js"], helpRoot.down ["lib.js"], helpRoot.down ["page.html"]]

def helperFunction : Symbol :=
  .ofFunction "helper" "app.js" ⟨0, 19, 1, 1⟩

def helpFunction : Symbol :=
  .ofFunction "help" "lib.js" ⟨0, 17, 1, 1⟩

theorem helpDisk_project : helpDisk.Project helpRoot [] :=
  .ofEntries (by decide) (by decide) (by simp [helpDisk])

theorem helpDisk_contents : corpusContents helpDisk helpRoot helpCorpus =
    [("app.js", bytesOf "function helper(){}helper;"), ("lib.js", bytesOf "function help(){}"),
      ("page.html", bytesOf "<a onclick='x;help()'>")] := by
  have hread : ∀ name bytes, helpDisk.get? [name] = some (.file bytes) → bytes.isEmpty = false →
      corpusContent? helpDisk helpRoot (helpRoot.down [name]) =
        some ((helpRoot.down [name]).shownIn helpRoot, bytes.data.toList) := by
    intro name bytes hfile hfilled
    simp [corpusContent?, helpDisk_project.read_down hfile, hfilled]
  rw [corpusContents, helpCorpus, List.filterMap_cons_some (hread _ _ rfl (by decide)),
    List.filterMap_cons_some (hread _ _ rfl (by decide)),
    List.filterMap_cons_some (hread _ _ rfl (by decide)), List.filterMap_nil]
  decide +kernel

theorem judge?_help : judge? (corpusContents helpDisk helpRoot helpCorpus)
    [helperFunction, helpFunction] = some [.safe, .kept (.call "page.html" 1)] := by
  rw [helpDisk_contents, judge?_eq]
  decide +kernel

theorem judge?_eq_some_firstMentioned_help :
    (helperFunction.name ≠ "" ∧ helpFunction.name ≠ "") ∧
      judge? (corpusContents helpDisk helpRoot helpCorpus) [helperFunction, helpFunction] =
        some [.safe, .kept (.call "page.html" 1)] ∧
      Unmentioned helpDisk helpRoot helpCorpus helperFunction ∧
      FirstMentioned helpDisk helpRoot helpCorpus helpFunction (.call "page.html" 1) := by
  have hhelper : helperFunction.name ≠ "" := by decide
  have hhelp : helpFunction.name ≠ "" := by decide
  obtain ⟨verdicts, hverdicts, -, hall⟩ := judge?_eq_some_firstMentioned helpDisk helpRoot
    helpCorpus [helperFunction, helpFunction]
  obtain rfl := Option.some.inj (hverdicts.symm.trans judge?_help)
  obtain ⟨⟨-, hfirst⟩, hrest⟩ := List.forall₂_cons.mp hall
  obtain ⟨⟨-, hsecond⟩, -⟩ := List.forall₂_cons.mp hrest
  exact ⟨⟨hhelper, hhelp⟩, judge?_help, (hfirst hhelper).1.mp rfl, ((hsecond hhelp).2 _).mp rfl⟩

/-! ## Words in the declaration of a function -/

/-- A name that stands at an offset of a file belongs to the declaration of its
function. It begins in there or right behind; unless a byte of the name is the last
of the declaration, only one that begins right behind reaches out of it. -/
def IsOwn (candidate : Symbol) (file : String) (bytes : List UInt8) (start : Nat) : Prop :=
  candidate.file = some file ∧ ∃ span, candidate.span = some span ∧
    span.start ≤ start ∧ start ≤ span.stop ∧
    (start < span.stop → (∀ last, bytes[span.stop - 1]? = some last →
      last ∉ bytesOf candidate.name) → start + (bytesOf candidate.name).length ≤ span.stop)

theorem IsWordAt.getElem?_mem (hword : IsWordAt word bytes start) {offset : Nat}
    (hstart : start ≤ offset) (hstop : offset < start + word.length) :
    ∃ b ∈ word, bytes[offset]? = some b := by
  obtain ⟨before, after, rfl, rfl, -, -⟩ := hword
  refine ⟨word[offset - before.length], List.getElem_mem _, ?_⟩
  rw [List.getElem?_append_right hstart, List.getElem?_append_left (by omega),
    List.getElem?_eq_getElem]

/-- A name that stands in a file is a mention, or belongs to the declaration. -/
theorem IsWordAt.not_mentions_iff
    (hword : IsWordAt (bytesOf candidate.name) bytes start) :
    ¬ Mentions candidate file bytes start ↔ IsOwn candidate file bytes start := by
  have hown : ¬ Mentions candidate file bytes start ↔
      candidate.file = some file ∧ candidate.span.any (·.contains start) := by
    simp [Mentions, hword]
  rw [hown]
  refine and_congr_right fun _ => ?_
  cases candidate.span with
  | none => simp
  | some span =>
    simp only [Option.any_some, Span.contains, Bool.and_eq_true, decide_eq_true_eq,
      Option.some.injEq, exists_eq_left']
    refine and_congr_right fun _ => ⟨fun hstop => ⟨hstop, ?_⟩, fun hstop => hstop.1⟩
    intro hless hlast
    by_contra hreaches
    have hbehind : start ≤ span.stop - 1 := by omega
    obtain ⟨b, hmem, hb⟩ := hword.getElem?_mem hbehind (by omega)
    exact hlast b hb hmem

/-- A function is safe exactly if its name stands as a whole word only in its own
declaration, or right behind it. Where there is neither a name nor a text, nothing is
looked at. -/
theorem safe_iff_isOwn {verdicts : List Verdict}
    (hverdicts : judge? (corpusContents disk root corpus) candidates = some verdicts) {i : Nat}
    (hcandidate : candidates[i]? = some candidate) :
    verdicts[i]? = some .safe ↔
      ∀ path ∈ corpus, ∀ bytes, disk.read path = .ok bytes →
        ∀ start, IsWordAt (bytesOf candidate.name) bytes.data.toList start →
          candidate.name = "" ∧ bytes.isEmpty ∨
            IsOwn candidate (path.shownIn root) bytes.data.toList start := by
  rw [judge?_corpusContents, Option.some.injEq] at hverdicts
  subst hverdicts
  rw [List.getElem?_map, hcandidate, Option.map_some, Option.some.injEq, safe_orKept_eq_safe_iff,
    List.findSome?_eq_none_iff]
  refine forall₂_congr fun path _ => ?_
  rw [reasonIn?_eq_none_iff]
  refine forall₂_congr fun bytes _ => ?_
  constructor
  · intro hnone start hword
    cases hempty : bytes.isEmpty with
    | true =>
      refine .inl ⟨?_, rfl⟩
      by_contra hname
      simp [hword.isEmpty_eq_false hname] at hempty
    | false => exact .inr (hword.not_mentions_iff.mp (hnone hempty start))
  · intro hall hfilled start hmentions
    rcases hall start hmentions.1 with ⟨-, hempty⟩ | hown
    · simp [hfilled] at hempty
    · exact hmentions.1.not_mentions_iff.mpr hown hmentions

theorem helper_isWordAt : IsWordAt (bytesOf "helper") (bytesOf "function helper(){}helper;") 19 :=
  ⟨bytesOf "function helper(){}", bytesOf ";", by decide, by decide, by decide, by decide⟩

theorem helpDisk_read_app : helpDisk.read (helpRoot.down ["app.js"]) =
    .ok "function helper(){}helper;".toUTF8 :=
  helpDisk_project.read_down rfl

/-- A safe function whose name stands outside of its declaration: the word begins
where the declaration has ended. -/
theorem helper_safe_though_outside :
    judge? (corpusContents helpDisk helpRoot helpCorpus) [helperFunction, helpFunction] =
        some [.safe, .kept (.call "page.html" 1)] ∧
      helpRoot.down ["app.js"] ∈ helpCorpus ∧
      helpDisk.read (helpRoot.down ["app.js"]) = .ok "function helper(){}helper;".toUTF8 ∧
      IsWordAt (bytesOf helperFunction.name) "function helper(){}helper;".toUTF8.data.toList 19 ∧
      ∃ span, helperFunction.span = some span ∧
        ¬ (span.start ≤ 19 ∧ 19 + (bytesOf helperFunction.name).length ≤ span.stop) :=
  ⟨judge?_help, by simp [helpCorpus], helpDisk_read_app, helper_isWordAt, _, rfl, by decide⟩

theorem safe_iff_isOwn_helper :
    judge? (corpusContents helpDisk helpRoot helpCorpus) [helperFunction, helpFunction] =
        some [.safe, .kept (.call "page.html" 1)] ∧
      [helperFunction, helpFunction][0]? = some helperFunction ∧
      IsWordAt (bytesOf "helper") (bytesOf "function helper(){}helper;") 19 ∧
      IsOwn helperFunction ((helpRoot.down ["app.js"]).shownIn helpRoot)
        (bytesOf "function helper(){}helper;") 19 := by
  have hcandidate : [helperFunction, helpFunction][0]? = some helperFunction := rfl
  have hown := (safe_iff_isOwn judge?_help hcandidate).mp rfl _ (by simp [helpCorpus]) _
    helpDisk_read_app 19 helper_isWordAt
  refine ⟨judge?_help, hcandidate, helper_isWordAt, hown.resolve_left ?_⟩
  rintro ⟨hname, -⟩
  exact absurd hname (by decide)

end Deadwood.Verdict
