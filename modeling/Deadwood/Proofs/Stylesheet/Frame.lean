/-
# What stripping changes and what it leaves

Rules lie side by side, or one inside of the other behind its list of selectors. Each asks
for at most one edit: the removal of its lines, or a shorter list. Widening a rule to its
lines does not reach text on either side, so edits of rules that lie side by side lie
apart, and so do the list of a rule and the edits inside of it. Only the edits inside of a
rule that is removed are lost, and with them nothing that would have stayed.
-/

import Deadwood.Proofs.Stylesheet.Shortened
import Deadwood.Proofs.Text.Substitution

namespace Deadwood.Stylesheet

open Deadwood.Css (fateOf_eq_goes_iff fateOf_eq_shrinks_iff mem_fates_iff replaces_strip
  splitFrom_ne_nil surrounds_widenToLines)
open Deadwood.Selector (requiredClasses split)
open Deadwood.Text

variable {source : List Char} {goes : List Char → Bool} {rules : List RuleSpan}
  {rule other outer inner : RuleSpan} {edit later : Edit} {place : Nat}

/-! ## What a rule asks for -/

/-- A rule that was read without a repair, all of whose selectors go. -/
def LosesAll (goes : List Char → Bool) (source : List Char) (rule : RuleSpan) : Prop :=
  rule.broken = false ∧ ∃ list, slice? source rule.selectors = some list ∧
    ∀ selector ∈ split list, (requiredClasses selector).any goes = true

/-- A rule that was read without a repair, with a list of selectors of which some go and
others stay. -/
def LosesSome (goes : List Char → Bool) (source : List Char) (rule : RuleSpan)
    (list : List Char) : Prop :=
  rule.broken = false ∧ slice? source rule.selectors = some list ∧
    (∃ selector ∈ split list, (requiredClasses selector).any goes = true) ∧
    survivors goes list ≠ []

/-- Takes a rule out, with its lines if it is alone on them. -/
def removal (source : List Char) (rule : RuleSpan) : Edit :=
  let wide := widenToLines source ⟨rule.start, rule.stop⟩
  ⟨wide.start, wide.stop, []⟩

/-- Puts the selectors that stay in the place of all. -/
def shortening (goes : List Char → Bool) (rule : RuleSpan) (list : List Char) : Edit :=
  ⟨rule.selectors.start, rule.selectors.stop,
    joinWith (separatorOf list) ((survivors goes list).map trim)⟩

/-- The edit that a rule asks for. -/
inductive Asks (goes : List Char → Bool) (source : List Char) (rule : RuleSpan) : Edit → Prop
  | removal (hloses : LosesAll goes source rule) : Asks goes source rule (removal source rule)
  | shortening {list : List Char} (hloses : LosesSome goes source rule list) :
      Asks goes source rule (shortening goes rule list)

/-- All edits that the rules of a sheet ask for. -/
def askedEdits (goes : List Char → Bool) (source : List Char) (rules : List RuleSpan) :
    List Edit :=
  (fates goes source rules).filterMap (editOf? source)

theorem mem_askedEdits_iff :
    edit ∈ askedEdits goes source rules ↔ ∃ rule ∈ rules, Asks goes source rule edit := by
  rw [askedEdits, List.mem_filterMap]
  constructor
  · rintro ⟨⟨rule, fate⟩, hfate, hedit⟩
    obtain ⟨hrule, hsound, list, hlist, hfate⟩ := mem_fates_iff.mp hfate
    refine ⟨rule, hrule, ?_⟩
    cases fate with
    | stays => simp [editOf?] at hedit
    | goes =>
      obtain rfl := Option.some.inj hedit
      exact .removal ⟨hsound, list, hlist, fateOf_eq_goes_iff.mp hfate⟩
    | shrinks text =>
      obtain rfl := Option.some.inj hedit
      obtain ⟨hlost, hkept, rfl⟩ := fateOf_eq_shrinks_iff.mp hfate
      exact .shortening ⟨hsound, hlist, hlost, hkept⟩
  · rintro ⟨rule, hrule, hasks⟩
    cases hasks with
    | removal hloses =>
      obtain ⟨hsound, list, hlist, hall⟩ := hloses
      exact ⟨(rule, .goes), mem_fates_iff.mpr ⟨hrule, hsound, list, hlist,
        fateOf_eq_goes_iff.mpr hall⟩, rfl⟩
    | @shortening list hloses =>
      obtain ⟨hsound, hlist, hlost, hkept⟩ := hloses
      exact ⟨(rule, .shrinks _), mem_fates_iff.mpr ⟨hrule, hsound, list, hlist,
        fateOf_eq_shrinks_iff.mpr ⟨hlost, hkept, rfl⟩⟩, rfl⟩

/-- A rule that asks for an edit has a list with a selector that goes. -/
theorem Asks.exists_list (hasks : Asks goes source rule edit) :
    ∃ list, slice? source rule.selectors = some list ∧
      ∃ selector ∈ split list, (requiredClasses selector).any goes = true := by
  cases hasks with
  | removal hloses =>
    obtain ⟨-, list, hlist, hall⟩ := hloses
    obtain ⟨selector, hselector⟩ := List.exists_mem_of_ne_nil _ (splitFrom_ne_nil {} list)
    exact ⟨list, hlist, selector, hselector, hall selector hselector⟩
  | shortening hloses => exact ⟨_, hloses.2.1, hloses.2.2.1⟩

theorem Asks.sound (hasks : Asks goes source rule edit) : rule.broken = false := by
  cases hasks with
  | removal hloses => exact hloses.1
  | shortening hloses => exact hloses.1

theorem Asks.selectors_lt (hasks : Asks goes source rule edit) :
    rule.selectors.start < rule.selectors.stop := by
  obtain ⟨list, hlist, selector, hselector, hgoes⟩ := hasks.exists_list
  have hsize := (slice?_bounds hlist).1
  cases list with
  | nil =>
    obtain rfl := List.mem_singleton.mp hselector
    exact absurd hgoes Bool.false_ne_true
  | cons c list =>
    have hpos := c.utf8Size_pos
    rw [byteSize] at hsize
    omega

/-- A rule asks for one edit only. -/
theorem Asks.unique (hasks : Asks goes source rule edit) (hagain : Asks goes source rule later) :
    edit = later := by
  have hnot : ∀ {list}, LosesAll goes source rule → ¬ LosesSome goes source rule list := by
    rintro list ⟨-, other, hother, hall⟩ ⟨-, hlist, -, hkept⟩
    obtain rfl := Option.some.inj (hother.symm.trans hlist)
    exact hkept (by simpa [survivors, List.filter_eq_nil_iff] using hall)
  cases hasks with
  | removal hloses =>
    cases hagain with
    | removal _ => rfl
    | shortening hsome => exact absurd hsome (hnot hloses)
  | shortening hsome =>
    cases hagain with
    | removal hloses => exact absurd hsome (hnot hloses)
    | shortening hsomeAgain =>
      obtain rfl := Option.some.inj (hsome.2.1.symm.trans hsomeAgain.2.1)
      rfl

/-! ## How rules lie -/

/-- A rule that begins and ends with text, and whose stretch has its list of selectors in
it. -/
@[mk_iff]
structure WellPlaced (source : List Char) (rule : RuleSpan) : Prop where
  begins : BeginsAt (!isAsciiBlank ·) source rule.start
  ends : EndsAt (!isAsciiBlank ·) source rule.stop
  cut : (slice? source ⟨rule.start, rule.stop⟩).isSome = true
  before : rule.start ≤ rule.selectors.start
  behind : rule.selectors.stop ≤ rule.stop

/-- A rule inside of another, behind the list of selectors and the brace. -/
@[mk_iff]
structure Holds (source : List Char) (outer inner : RuleSpan) : Prop where
  within : inner.stop ≤ outer.stop
  behind : ∃ place ≤ inner.start, outer.selectors.stop ≤ place ∧
    EndsAt (!isAsciiBlank ·) source place

/-- Rules in the order in which they begin, side by side or one inside of the other. Those
that could be read only with a repair may lie anyhow. -/
@[mk_iff]
structure LaidOut (source : List Char) (rules : List RuleSpan) : Prop where
  placed : ∀ rule ∈ rules, rule.broken = false → WellPlaced source rule
  apart : rules.Pairwise fun rule later => rule.broken = false → later.broken = false →
    rule.stop ≤ later.start ∨ Holds source rule later

instance : Decidable (WellPlaced source rule) :=
  decidable_of_iff _ (wellPlaced_iff source rule).symm

instance : Decidable (Holds source outer inner) :=
  decidable_of_iff _ (holds_iff source outer inner).symm

instance : Decidable (LaidOut source rules) :=
  decidable_of_iff _ (laidOut_iff source rules).symm

/-- A rule whose stretch is in that of another. -/
def Inside (rule other : RuleSpan) : Prop :=
  other ≠ rule ∧ other.start ≤ rule.start ∧ rule.stop ≤ other.stop

namespace WellPlaced

variable (hplaced : WellPlaced source rule)

include hplaced

/-- Removing a rule takes out all of it. -/
theorem removal_bounds :
    (removal source rule).start ≤ rule.start ∧ rule.stop ≤ (removal source rule).stop ∧
      (removal source rule).stop ≤ byteSize source := by
  obtain ⟨body, hbody⟩ := Option.isSome_iff_exists.mp hplaced.cut
  obtain ⟨before, _, behind, hsame, -, -, hwide, hblanks⟩ := surrounds_widenToLines hbody
  obtain ⟨hwideSize, hfits⟩ := slice?_bounds hwide
  have hsize := (slice?_bounds hsame).1
  simp only [byteSize_append] at hwideSize
  dsimp only [removal] at *
  omega

/-- The edit that a rule asks for reaches from before its list to behind it, and is a
stretch of the source. -/
theorem bounds (hasks : Asks goes source rule edit) :
    edit.start ≤ rule.selectors.start ∧ rule.selectors.stop ≤ edit.stop ∧
      edit.stop ≤ byteSize source := by
  have hbefore := hplaced.before
  have hbehind := hplaced.behind
  cases hasks with
  | removal _ =>
    have hbounds := hplaced.removal_bounds
    omega
  | shortening hloses =>
    exact ⟨Nat.le_refl _, Nat.le_refl _, (slice?_bounds hloses.2.1).2⟩

/-- Text that ends before a rule is not reached by its edit. -/
theorem le_start (hasks : Asks goes source rule edit) (hends : EndsAt (!isIndent ·) source place)
    (hle : place ≤ rule.start) : place ≤ edit.start := by
  cases hasks with
  | removal _ =>
    obtain ⟨body, hbody⟩ := Option.isSome_iff_exists.mp hplaced.cut
    exact hends.le_widenToLines hbody hle
  | shortening _ => exact Nat.le_trans hle hplaced.before

/-- Edits inside of a rule lie behind its list. -/
theorem selectors_le_start (hasks : Asks goes source rule edit) (hholds : Holds source outer rule) :
    outer.selectors.stop ≤ edit.start := by
  obtain ⟨place, hle, hbehind, hends⟩ := hholds.behind
  exact Nat.le_trans hbehind (hplaced.le_start hasks hends.not_isIndent hle)

/-- A rule begins before those that it holds, and ends behind them. -/
theorem inside_of_holds (hasks : Asks goes source rule edit) (hholds : Holds source rule inner) :
    rule.start < inner.start ∧ Inside inner rule := by
  have hlist := hasks.selectors_lt
  have hbefore := hplaced.before
  obtain ⟨place, hle, hbehind, -⟩ := hholds.behind
  have hstart : rule.start < inner.start := by omega
  refine ⟨hstart, ?_, Nat.le_of_lt hstart, hholds.within⟩
  rintro rfl
  exact Nat.lt_irrefl _ hstart

/-- Edits of rules that lie side by side lie apart. -/
theorem stop_le_start (hother : WellPlaced source other) (hasks : Asks goes source rule edit)
    (hasksOther : Asks goes source other later) (hle : rule.stop ≤ other.start) :
    edit.stop ≤ later.start := by
  have hends := hplaced.ends.not_isIndent
  cases hasks with
  | removal _ =>
    obtain ⟨body, hbody⟩ := Option.isSome_iff_exists.mp hplaced.cut
    obtain ⟨hbefore, hplace⟩ := hother.begins.widenToLines_le hbody hle hends
    exact hother.le_start hasksOther hplace hbefore
  | shortening _ =>
    exact Nat.le_trans hplaced.behind (hother.le_start hasksOther hends hle)

end WellPlaced

/-- Of two rules that ask for edits one lies beside the other or inside of it. -/
theorem LaidOut.cases_of_ne (hlaid : LaidOut source rules) (hrule : rule ∈ rules)
    (hother : other ∈ rules) (hasks : Asks goes source rule edit)
    (hasksOther : Asks goes source other later) (hne : rule ≠ other) :
    (rule.stop ≤ other.start ∨ Holds source rule other) ∨
      other.stop ≤ rule.start ∨ Holds source other rule :=
  (or_of_pairwise hlaid.apart hrule hother hne).imp (· hasks.sound hasksOther.sound)
    (· hasksOther.sound hasks.sound)

/-- A rule that lies in the stretch of another is behind its list. -/
theorem LaidOut.holds_of_inside (hlaid : LaidOut source rules) (hrule : rule ∈ rules)
    (hother : other ∈ rules) (hasks : Asks goes source rule edit)
    (hasksOther : Asks goes source other later) (hinside : Inside rule other) :
    Holds source other rule := by
  obtain ⟨hne, hstart, hstop⟩ := hinside
  have hlist := hasks.selectors_lt
  have hplaced := hlaid.placed rule hrule hasks.sound
  have hbefore := hplaced.before
  have hbehind := hplaced.behind
  rcases hlaid.cases_of_ne hrule hother hasks hasksOther hne.symm with
    (hle | hholds) | hle | hholds
  · omega
  · obtain ⟨place, hle, hafter, -⟩ := hholds.behind
    omega
  · omega
  · exact hholds

/-! ## Which edits are chosen -/

/-- A rule that is taken out: it loses all its selectors, and no rule around it does. -/
def Deleted (goes : List Char → Bool) (source : List Char) (rules : List RuleSpan)
    (rule : RuleSpan) : Prop :=
  LosesAll goes source rule ∧ ∀ other ∈ rules, LosesAll goes source other → ¬ Inside rule other

namespace LaidOut

/-- Around a rule inside of one that loses all its selectors there is one that is taken
out. -/
theorem exists_deleted (hlaid : LaidOut source rules) (hother : other ∈ rules)
    (hloses : LosesAll goes source other) (hinside : Inside rule other) :
    ∃ outer ∈ rules, Deleted goes source rules outer ∧ Inside rule outer := by
  induction hstart : other.start using Nat.strong_induction_on generalizing other with
  | _ start ih =>
    by_cases hexposed : ∀ around ∈ rules, LosesAll goes source around → ¬ Inside other around
    · exact ⟨other, hother, ⟨hloses, hexposed⟩, hinside⟩
    · -- The next rule around begins before this one, so there is an outermost one.
      simp only [not_forall, not_not] at hexposed
      obtain ⟨around, haround, hlosesAround, hinner⟩ := hexposed
      have hasksAround : Asks goes source around _ := .removal hlosesAround
      have hholds := hlaid.holds_of_inside hother haround (.removal hloses) hasksAround hinner
      obtain ⟨hbefore, -⟩ :=
        (hlaid.placed around haround hasksAround.sound).inside_of_holds hasksAround hholds
      have haroundRule : Inside rule around := by
        obtain ⟨-, hruleStart, hruleStop⟩ := hinside
        refine ⟨?_, by omega, Nat.le_trans hruleStop hinner.2.2⟩
        rintro rfl
        omega
      exact ih around.start (by omega) haround hlosesAround haroundRule rfl

/-- The edit of a rule is chosen if no rule around it loses all its selectors. -/
theorem mem_chosenEdits (hlaid : LaidOut source rules) (hrule : rule ∈ rules)
    (hasks : Asks goes source rule edit)
    (hexposed : ∀ other ∈ rules, LosesAll goes source other → ¬ Inside rule other) :
    edit ∈ chosenEdits source (askedEdits goes source rules) := by
  obtain ⟨dropped, hsifts⟩ := sifts_chosenEdits source (askedEdits goes source rules)
  have hedit : edit ∈ (askedEdits goes source rules).mergeSort Edit.precedes :=
    List.mem_mergeSort.mpr (mem_askedEdits_iff.mpr ⟨rule, hrule, hasks⟩)
  have hlist := hasks.selectors_lt
  have hplaced := hlaid.placed rule hrule hasks.sound
  obtain ⟨hstart, hstop, hfits⟩ := hplaced.bounds hasks
  by_contra hnot
  have hdropped : edit ∈ dropped :=
    (List.mem_append.mp (hsifts.perm.mem_iff.mp hedit)).resolve_left hnot
  have hchanges : edit.isTrivial = false := by
    rw [Edit.isTrivial, decide_eq_false (by omega), Bool.false_and]
  obtain ⟨kept, hkept, hbefore, hinside⟩ :=
    hsifts.exists_of_dropped (inOrder_mergeSort _).pairwise_start hdropped hchanges hfits
  obtain ⟨other, hother, hasksOther⟩ := mem_askedEdits_iff.mp (mem_of_mem_chosenEdits hkept)
  have hplacedOther := hlaid.placed other hother hasksOther.sound
  have hne : rule ≠ other := by
    rintro rfl
    rw [hasks.unique hasksOther] at hnot
    exact hnot hkept
  rcases hlaid.cases_of_ne hrule hother hasks hasksOther hne with
    (hle | hholds) | hle | hholds
  · have hapart := hplaced.stop_le_start hplacedOther hasks hasksOther hle
    omega
  · have hbehind := hplacedOther.selectors_le_start hasksOther hholds
    omega
  · have hapart := hplacedOther.stop_le_start hplaced hasksOther hasks hle
    omega
  · have hbehind := hplaced.selectors_le_start hasks hholds
    cases hasksOther with
    | removal hloses =>
      exact hexposed other hother hloses (hplacedOther.inside_of_holds (.removal hloses) hholds).2
    | shortening _ => exact absurd hinside (Nat.not_lt.mpr hbehind)

/-- No edit inside of a rule that is taken out is chosen. -/
theorem not_inside_of_mem_chosenEdits (hlaid : LaidOut source rules) (hrule : rule ∈ rules)
    (hasks : Asks goes source rule edit)
    (hedit : edit ∈ chosenEdits source (askedEdits goes source rules))
    (houter : outer ∈ rules) (hdeleted : Deleted goes source rules outer) :
    ¬ Inside rule outer := by
  intro hinside
  have hremoval := hlaid.mem_chosenEdits houter (.removal hdeleted.1) hdeleted.2
  have hasksOuter : Asks goes source outer _ := .removal hdeleted.1
  have hholds := hlaid.holds_of_inside hrule houter hasks hasksOuter hinside
  -- The edit would begin inside of the removal of the rule around it.
  have hoverlap : (removal source outer).start < edit.start ∧
      edit.start < (removal source outer).stop ∧ edit.start < edit.stop := by
    have hplaced := hlaid.placed rule hrule hasks.sound
    have hplacedOuter := hlaid.placed outer houter hasksOuter.sound
    have hbehind := hplaced.selectors_le_start hasks hholds
    have hbounds := hplaced.bounds hasks
    have hboundsOuter := hplacedOuter.removal_bounds
    have hlist := hasks.selectors_lt
    have hlistOuter := hasksOuter.selectors_lt
    have hwithin := hholds.within
    have hlistBehind := hplaced.behind
    have hlistBefore := hplacedOuter.before
    omega
  obtain ⟨dropped, hsifts⟩ := sifts_chosenEdits source (askedEdits goes source rules)
  have hordered : ∀ edit ∈ (askedEdits goes source rules).mergeSort Edit.precedes,
      edit.start ≤ edit.stop := by
    intro edit hedit
    obtain ⟨rule, hrule, hasks⟩ := mem_askedEdits_iff.mp (List.mem_mergeSort.mp hedit)
    have hlist := hasks.selectors_lt
    have hbounds := (hlaid.placed rule hrule hasks.sound).bounds hasks
    omega
  have hne : edit ≠ removal source outer := by
    rintro rfl
    omega
  rcases or_of_pairwise (hsifts.pairwise hordered) hedit hremoval hne with hapart | hapart <;> omega

/-- The chosen edits are those of rules around which none is taken out. -/
theorem mem_chosenEdits_iff (hlaid : LaidOut source rules) :
    edit ∈ chosenEdits source (askedEdits goes source rules) ↔
      ∃ rule ∈ rules, Asks goes source rule edit ∧
        ∀ other ∈ rules, Deleted goes source rules other → ¬ Inside rule other := by
  constructor
  · intro hedit
    obtain ⟨rule, hrule, hasks⟩ := mem_askedEdits_iff.mp (mem_of_mem_chosenEdits hedit)
    exact ⟨rule, hrule, hasks, fun outer houter hdeleted =>
      hlaid.not_inside_of_mem_chosenEdits hrule hasks hedit houter hdeleted⟩
  · rintro ⟨rule, hrule, hasks, hnone⟩
    refine hlaid.mem_chosenEdits hrule hasks fun other hother hloses hinside => ?_
    obtain ⟨outer, houter, hdeleted, hinside⟩ := hlaid.exists_deleted hother hloses hinside
    exact hnone outer houter hdeleted hinside

end LaidOut

/-! ## The whole sheet -/

/-- In a sheet that is not changed no rule asks for an edit. -/
theorem askedEdits_of_not_changed (hchanged : (strip rules source goes).changed = false) :
    askedEdits goes source rules = [] := by
  obtain ⟨hremoved, hshortened⟩ : (strip rules source goes).removed = 0 ∧
      (strip rules source goes).shortened = 0 := by
    simpa [Stripped.changed] using hchanged
  rw [askedEdits, List.filterMap_eq_nil_iff]
  rintro ⟨rule, fate⟩ hfate
  cases fate with
  | stays => rfl
  | goes => exact absurd rfl (List.countP_eq_zero.mp hremoved _ hfate)
  | shrinks list => exact absurd rfl (List.countP_eq_zero.mp hshortened _ hfate)

theorem content_of_not_changed (hchanged : (strip rules source goes).changed = false) :
    (strip rules source goes).content = source := by
  have hnone := askedEdits_of_not_changed hchanged
  rw [askedEdits] at hnone
  rw [strip, hnone, splice?, chosenEdits, List.mergeSort_nil]
  rfl

/-- Stripping replaces these stretches all at once and no others: those of the rules that
lose all their selectors, widened to their lines, unless they are inside of another such
rule; and the lists of those that lose some, unless they are inside of a rule that is
taken out. A sheet that is not changed is the same. -/
theorem strip_replaces_exactly (hlaid : LaidOut source rules) (goes : List Char → Bool) :
    (∃ edits, Replaces 0 source edits (strip rules source goes).content ∧ ∀ edit, edit ∈ edits ↔
      (∃ rule ∈ rules, Deleted goes source rules rule ∧ edit = removal source rule) ∨
        ∃ rule ∈ rules, ∃ list, LosesSome goes source rule list ∧
          (∀ other ∈ rules, Deleted goes source rules other → ¬ Inside rule other) ∧
          edit = shortening goes rule list) ∧
    ((strip rules source goes).changed = false → (strip rules source goes).content = source) := by
  have hcuts : ∀ rule ∈ rules, rule.broken = false →
      ∃ body, slice? source ⟨rule.start, rule.stop⟩ = some body := fun rule hrule hsound =>
    Option.isSome_iff_exists.mp (hlaid.placed rule hrule hsound).cut
  refine ⟨⟨_, replaces_strip hcuts goes, fun edit => ?_⟩, content_of_not_changed⟩
  refine hlaid.mem_chosenEdits_iff.trans ?_
  constructor
  · rintro ⟨rule, hrule, hasks, hnone⟩
    cases hasks with
    | removal hloses =>
      refine .inl ⟨rule, hrule, ⟨hloses, fun other hother hlosesOther hinside => ?_⟩, rfl⟩
      obtain ⟨outer, houter, hdeleted, hinside⟩ := hlaid.exists_deleted hother hlosesOther hinside
      exact hnone outer houter hdeleted hinside
    | shortening hloses => exact .inr ⟨rule, hrule, _, hloses, hnone, rfl⟩
  · rintro (⟨rule, hrule, hdeleted, rfl⟩ | ⟨rule, hrule, list, hloses, hnone, rfl⟩)
    · exact ⟨rule, hrule, .removal hdeleted.1, fun other hother hdeletedOther =>
        hdeleted.2 other hother hdeletedOther.1⟩
    · exact ⟨rule, hrule, .shortening hloses, hnone⟩

/-- A rule inside of one that goes, one inside of one that stays, and one with a fault. -/
def nestedSheet : List Char :=
  "  .dead { .dead i {} }\n.live, .dead { .dead {} }\n.dead {}\n.dead {;}\n".toList

def nestedRules : List RuleSpan :=
  [⟨2, 22, ⟨2, 7⟩, false⟩, ⟨10, 20, ⟨10, 17⟩, false⟩, ⟨23, 48, ⟨23, 35⟩, false⟩,
    ⟨38, 46, ⟨38, 43⟩, false⟩, ⟨49, 57, ⟨49, 54⟩, false⟩, ⟨58, 67, ⟨58, 63⟩, true⟩]

theorem laidOut_nestedSheet : LaidOut nestedSheet nestedRules := by
  decide +kernel

theorem nestedSheet_content :
    (strip nestedRules nestedSheet (· == "dead".toList)).content =
      ".live {  }\n.dead {;}\n".toList := by
  have hedits : (fates (· == "dead".toList) nestedSheet nestedRules).filterMap
      (editOf? nestedSheet) = [⟨0, 23, []⟩, ⟨10, 20, []⟩, ⟨23, 35, ".live".toList⟩, ⟨38, 46, []⟩,
        ⟨49, 58, []⟩] := by
    decide +kernel
  rw [strip, hedits, splice?, chosenEdits, List.mergeSort_of_pairwise (by decide)]
  decide +kernel

theorem strip_replaces_exactly_nested :
    LaidOut nestedSheet nestedRules ∧
    ∃ edits, Replaces 0 nestedSheet edits ".live {  }\n.dead {;}\n".toList ∧
      ∀ edit, edit ∈ edits ↔
        (∃ rule ∈ nestedRules, Deleted (· == "dead".toList) nestedSheet nestedRules rule ∧
          edit = removal nestedSheet rule) ∨
        ∃ rule ∈ nestedRules, ∃ list, LosesSome (· == "dead".toList) nestedSheet rule list ∧
          (∀ other ∈ nestedRules, Deleted (· == "dead".toList) nestedSheet nestedRules other →
            ¬ Inside rule other) ∧
          edit = shortening (· == "dead".toList) rule list := by
  have hexact := strip_replaces_exactly laidOut_nestedSheet (· == "dead".toList)
  rw [nestedSheet_content] at hexact
  exact ⟨laidOut_nestedSheet, hexact.1⟩

end Deadwood.Stylesheet
