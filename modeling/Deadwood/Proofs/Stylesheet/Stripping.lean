/-
# What stripping takes out

The classes that are read off a clear selector are named by it, so every match finds
them. A selector that goes with some classes therefore matches nothing in a document
without them.
-/

import Deadwood.Proofs.Names
import Deadwood.Proofs.Stylesheet.Conditions
import Deadwood.Proofs.Stylesheet.Dotted
import Deadwood.Proofs.Stylesheet.Splitting
import Deadwood.Proofs.Stylesheet.WholeLines
import Deadwood.Proofs.Text.Splice
import Deadwood.Stylesheet.Strip

namespace Deadwood.Css

open Deadwood.Grammar (Node)
open Deadwood.Stylesheet (Fate RuleSpan editOf? fateOf fates isAsciiBlank_of_isTrailing isTrailing
  ruleSpans separatorOf strip survivors widenToLines widenToLines_cases)
open Deadwood.Text
open Deadwood.Selector (classAttribute? classAttributes isNegated mask requiredClasses shade split)

variable {text rest : List Char}

/-! ## Classes that are required -/

/-- Conditions are found where their text begins. -/
theorem exists_of_mem_classAttributes {before read place : Nat} {value : List Char}
    (hfound : (place, value) ∈ classAttributes before read text) :
    ∃ front back behind, text = front ++ back ∧ place = before + front.length ∧
      classAttribute? back = some (value, behind) := by
  induction text generalizing before read with
  | nil => simp [classAttributes] at hfound
  | cons c text ih =>
    have hlater : ∀ read, (place, value) ∈ classAttributes (before + 1) read text →
        ∃ front back behind, c :: text = front ++ back ∧ place = before + front.length ∧
          classAttribute? back = some (value, behind) := by
      intro read hfound
      obtain ⟨front, back, behind, rfl, hplace, hback⟩ := ih hfound
      exact ⟨c :: front, back, behind, rfl, by rw [hplace, List.length_cons]; omega, hback⟩
    cases read with
    | succ read =>
      rw [classAttributes] at hfound
      exact hlater read hfound
    | zero =>
      rw [classAttributes] at hfound
      split at hfound
      · rename_i other behind hother
        rcases List.mem_cons.mp hfound with hsame | hfound
        · obtain ⟨rfl, rfl⟩ := Prod.mk.inj hsame
          exact ⟨[], c :: text, behind, rfl, rfl, hother⟩
        · exact hlater _ hfound
      · exact hlater _ hfound

theorem FindsAmong.mem {names : List (List Char)} {before after : List (Char × Bool)}
    (hfinds : FindsAmong names (before ++ ('[', false) :: after) rest) {value behind : List Char}
    (hfound : classAttribute? ('[' :: (after.map (·.1) ++ rest)) = some (value, behind))
    {name : List Char} (hname : name ∈ words value) : name ∈ names := by
  induction before with
  | nil => exact hfinds.1 rfl rfl value behind hfound name hname
  | cons entry before ih => exact ih hfinds.2

/-- The classes read off a clear selector are named by it. -/
theorem mem_named_of_mem_requiredClasses {list : Alternatives} (hclear : list.isClear = true)
    {name : List Char} (hname : name ∈ requiredClasses list.text) : name ∈ list.named := by
  have hshade : shade true {} list.text = list.shaded := by
    have hwhole := list.shade_text []
    rw [List.append_nil, shade, List.append_nil] at hwhole
    exact hwhole
  rw [requiredClasses, Selector.classes, mem_eraseReps] at hname
  rcases List.mem_append.mp hname with hname | hname
  · obtain ⟨⟨place, value⟩, hfound, hname⟩ := List.mem_flatMap.mp hname
    obtain ⟨hfound, hopen⟩ := List.mem_filter.mp hfound
    obtain ⟨front, back, behind, htext, hplace, hback⟩ := exists_of_mem_classAttributes hfound
    obtain ⟨more, rfl⟩ := exists_cons_of_classAttribute? hback
    rw [← list.map_fst_shaded] at htext
    obtain ⟨before, after, hshaded, hbefore, hafter⟩ := List.map_eq_append_iff.mp htext
    obtain ⟨⟨c, hidden⟩, after, rfl, rfl, rfl⟩ := List.map_eq_cons_iff.mp hafter
    have hvisible : hidden = false := by
      have hnegated : isNegated list.text place = false := by simpa using hopen
      rw [isNegated, hshade, hshaded, hplace, ← hbefore, List.length_map, Nat.zero_add,
        List.getElem?_append_right (Nat.le_refl _), Nat.sub_self] at hnegated
      exact hnegated
    subst hvisible
    have hend : Guarded [] := guarded_of_not_mem (by simp)
    have hfinds := list.findsAmong hclear hend
    rw [hshaded] at hfinds
    have hread : classAttribute? ('[' :: (after.map (·.1) ++ [])) = some (value, behind) := by
      rw [List.append_nil]
      exact hback
    exact hfinds.mem hread hname
  · have hmask : mask true list.text = maskOf list.shaded := by
      rw [← hshade]
      rfl
    have hend : StopsBehind true [] := ⟨by simp [Stops], fun _ => by simp [Stops, behindBlank]⟩
    have hfound : name ∈ dottedClasses (maskOf list.shaded ++ []) := by
      rw [List.append_nil, ← hmask]
      exact hname
    rcases list.mem_dottedClasses hclear hend hfound with hnamed | hnone
    · exact hnamed
    · simp [dottedClasses, Selector.dottedNames] at hnone

/-! ## Selectors that can match -/

/-- A selector on its own, as a list. -/
def Item.alone (item : Item) : Alternatives :=
  .last item.before item.selector item.behind

def Item.isClear (item : Item) : Bool :=
  item.alone.isClear

theorem Alternatives.isClear_of_mem {list : Alternatives} (hclear : list.isClear = true)
    {item : Item} (hitem : item ∈ list.items) : item.isClear = true := by
  match list with
  | .last before selector behind =>
    obtain rfl := List.mem_singleton.mp hitem
    exact hclear
  | .more before selector behind others =>
    rw [Alternatives.isClear, Bool.and_eq_true] at hclear
    rcases List.mem_cons.mp hitem with rfl | hitem
    · exact hclear.1
    · exact others.isClear_of_mem hclear.2 hitem

/-- Every match of a selector finds a class, on an element that it uses. -/
def Selector.Requires (selector : Selector) (name : List Char) : Prop :=
  ∀ (Element : Type) (document : Document Element) (element : Element) (used : List Element),
    selector.Matches document element used → ∃ carrier ∈ used, name ∈ document.classes carrier

theorem requires_of_mem_requiredClasses {item : Item} (hclear : item.isClear = true)
    {name : List Char} (hname : name ∈ requiredClasses item.text) :
    item.selector.Requires name := by
  intro Element document element used hmatches
  have hnamed : name ∈ item.alone.named := mem_named_of_mem_requiredClasses hclear hname
  have halone : item.alone.Matches document element used := hmatches
  exact halone.exists_mem_classes hclear rfl hnamed

/-- A selector matches in a document without the classes that go. -/
def Selector.CanMatch (goes : List Char → Bool) (selector : Selector) : Prop :=
  ∃ (Element : Type) (document : Document Element) (element : Element) (used : List Element),
    selector.Matches document element used ∧
      ∀ other, ∀ name ∈ document.classes other, goes name = false

variable {goes : List Char → Bool}

theorem any_goes_eq_false {item : Item} (hclear : item.isClear = true)
    (hmatch : item.selector.CanMatch goes) : (requiredClasses item.text).any goes = false := by
  obtain ⟨Element, document, element, used, hmatches, hstay⟩ := hmatch
  rw [List.any_eq_false]
  intro name hname
  obtain ⟨carrier, -, hcarries⟩ :=
    requires_of_mem_requiredClasses hclear hname Element document element used hmatches
  simp [hstay carrier name hcarries]

/-! ## Lists that are written anew -/

/-- A selector without blanks at its ends. -/
def Selector.isTidy (selector : Selector) : Bool :=
  !selector.text.head?.any isBlank && !selector.text.getLast?.any isBlank

def Alternatives.selectors (list : Alternatives) : List Selector :=
  list.items.map (·.selector)

theorem trimStart_of_head (htext : text.head?.any isBlank = false) : trimStart text = text := by
  cases text with
  | nil => rfl
  | cons c rest => rw [trimStart, List.dropWhile_cons_of_neg (by simpa using htext)]

theorem trimEnd_gap (text : List Char) (gap : Gap) : trimEnd (text ++ gap.text) = trimEnd text := by
  rw [trimEnd, trimEnd, List.reverse_append, List.dropWhile_append_of_pos]
  intro c hc
  exact isBlank_of_isAsciiBlank (List.all_eq_true.mp gap.blank c (List.mem_reverse.mp hc))

theorem trimEnd_of_getLast (htext : text.getLast?.any isBlank = false) : trimEnd text = text := by
  rw [← List.head?_reverse] at htext
  have htrim := trimStart_of_head htext
  rw [trimStart] at htrim
  rw [trimEnd, htrim, List.reverse_reverse]

theorem Item.trim_text {item : Item} (htidy : item.selector.isTidy = true) :
    trim item.text = item.selector.text := by
  simp only [Selector.isTidy, Bool.and_eq_true, Bool.not_eq_true_eq_eq_false] at htidy
  obtain ⟨hhead, hlast⟩ := htidy
  rw [trim, Item.text, trimStart_gap]
  cases hselector : item.selector.text with
  | nil =>
    have hbehind := trimStart_gap item.behind []
    rw [List.append_nil] at hbehind
    rw [List.nil_append, hbehind]
    rfl
  | cons c more =>
    rw [hselector] at hhead hlast
    rw [trimStart_of_head (by simpa using hhead), trimEnd_gap, trimEnd_of_getLast hlast]

theorem Item.isAsciiBlank_of_mem_takeWhile {item : Item} (htidy : item.selector.isTidy = true)
    {c : Char} (hc : c ∈ item.text.takeWhile isBlank) : isAsciiBlank c = true := by
  have hgap : ∀ gap : Gap, ∀ c ∈ gap.text, isBlank c = true := fun gap c hc =>
    isBlank_of_isAsciiBlank (List.all_eq_true.mp gap.blank c hc)
  rw [Item.text, List.takeWhile_append_of_pos (hgap item.before)] at hc
  rcases List.mem_append.mp hc with hc | hc
  · exact List.all_eq_true.mp item.before.blank c hc
  · cases hselector : item.selector.text with
    | nil =>
      rw [hselector, List.nil_append] at hc
      exact List.all_eq_true.mp item.behind.blank c ((List.takeWhile_prefix _).subset hc)
    | cons d more =>
      have hd : isBlank d = false := by
        simp only [Selector.isTidy, hselector, Bool.and_eq_true] at htidy
        simpa using htidy.1
      rw [hselector, List.cons_append, List.takeWhile_cons_of_neg (by simp [hd])] at hc
      simp at hc

/-- Selectors with a comma and some blanks between them. -/
def Alternatives.joined (gap before : Gap) (selector : Selector) : List Selector → Alternatives
  | [] => .last before selector ⟨[], rfl⟩
  | next :: others => .more before selector ⟨[], rfl⟩ (joined gap gap next others)

theorem Alternatives.selectors_joined (gap before : Gap) (selector : Selector)
    (others : List Selector) : (joined gap before selector others).selectors = selector :: others := by
  induction others generalizing before selector with
  | nil => rfl
  | cons next others ih =>
    have hothers := ih gap next
    rw [Alternatives.selectors] at hothers ⊢
    rw [joined, Alternatives.items, List.map_cons, hothers]

theorem Alternatives.text_joined (gap before : Gap) (selector : Selector)
    (others : List Selector) : (joined gap before selector others).text =
      before.text ++ joinWith (',' :: gap.text) ((selector :: others).map Selector.text) := by
  induction others generalizing before selector with
  | nil => simp [joined, Alternatives.text, joinWith]
  | cons next others ih => simp [joined, Alternatives.text, joinWith, ih]

/-- What parts selectors without blanks at their ends is a comma and a gap. -/
theorem exists_separator {list : Alternatives}
    (htidy : ∀ selector ∈ list.selectors, selector.isTidy = true) :
    ∃ gap : Gap, separatorOf list.text = ',' :: gap.text := by
  rw [separatorOf, split_text]
  cases hitems : list.items with
  | nil => exact ⟨⟨[' '], rfl⟩, rfl⟩
  | cons first others =>
    cases others with
    | nil => exact ⟨⟨[' '], rfl⟩, rfl⟩
    | cons second others =>
      have hmem : second.selector ∈ list.selectors := by simp [Alternatives.selectors, hitems]
      refine ⟨⟨second.text.takeWhile isBlank, ?_⟩, rfl⟩
      rw [List.all_eq_true]
      exact fun c hc => Item.isAsciiBlank_of_mem_takeWhile (htidy _ hmem) hc

/-! ## The fate of a list -/

/-- A fate takes no selector of a list away that can match. A list is written anew
without the blanks around its selectors, which must not be mistaken for parts of them. -/
def Spares (goes : List Char → Bool) (list : Alternatives) : Fate → Prop
  | .stays => True
  | .goes => ∀ selector ∈ list.selectors, ¬ selector.CanMatch goes
  | .shrinks text => (∀ selector ∈ list.selectors, selector.isTidy = true) →
      ∃ kept : Alternatives, kept.text = text ∧ kept.selectors.Sublist list.selectors ∧
        ∀ selector ∈ list.selectors, selector.CanMatch goes → selector ∈ kept.selectors

theorem survivors_text (goes : List Char → Bool) (list : Alternatives) :
    survivors goes list.text =
      (list.items.filter fun item => !(requiredClasses item.text).any goes).map Item.text := by
  rw [survivors, split_text, List.filter_map]
  rfl

theorem spares_fateOf {list : Alternatives} (hclear : list.isClear = true) :
    Spares goes list (fateOf goes list.text) := by
  have hkept : ∀ item ∈ list.items, item.selector.CanMatch goes →
      item ∈ list.items.filter fun item => !(requiredClasses item.text).any goes := by
    intro item hitem hmatch
    have hnone := any_goes_eq_false (list.isClear_of_mem hclear hitem) hmatch
    exact List.mem_filter.mpr ⟨hitem, by rw [hnone]; rfl⟩
  rw [fateOf, survivors_text]
  generalize hitems : list.items.filter _ = items at hkept
  split
  · trivial
  split
  · rename_i hempty
    rw [List.isEmpty_iff, List.map_eq_nil_iff] at hempty
    intro selector hselector hmatch
    obtain ⟨item, hitem, rfl⟩ := List.mem_map.mp hselector
    have hmem := hkept item hitem hmatch
    rw [hempty] at hmem
    simp at hmem
  · rename_i hsome
    intro htidy
    obtain ⟨item, others, rfl⟩ : ∃ item others, items = item :: others := by
      cases items with
      | nil => simp at hsome
      | cons item others => exact ⟨item, others, rfl⟩
    have hsublist : ((item :: others).map (·.selector)).Sublist list.selectors := by
      rw [← hitems]
      exact List.filter_sublist.map _
    obtain ⟨gap, hgap⟩ := exists_separator htidy
    refine ⟨.joined gap ⟨[], rfl⟩ item.selector (others.map (·.selector)), ?_, ?_, ?_⟩
    · have htrim : ((item :: others).map Item.text).map trim =
          ((item :: others).map (·.selector)).map Selector.text := by
        rw [List.map_map, List.map_map]
        refine List.map_congr_left fun other hother => ?_
        exact Item.trim_text (htidy _ (hsublist.subset (List.mem_map_of_mem hother)))
      rw [Alternatives.text_joined, List.nil_append, hgap, htrim]
      rfl
    · rwa [Alternatives.selectors_joined]
    · intro selector hselector hmatch
      obtain ⟨other, hother, rfl⟩ := List.mem_map.mp hselector
      rw [Alternatives.selectors_joined, ← List.map_cons]
      exact List.mem_map_of_mem (hkept other hother hmatch)

/-! ## Edits -/

/-- A stretch is some other stretch with blanks around it. -/
def Surrounds (source : List Char) (wide range : Range) : Prop :=
  ∃ before body behind, slice? source range = some body ∧
    before.all isBlank = true ∧ behind.all isBlank = true ∧
    slice? source wide = some (before ++ (body ++ behind)) ∧
    wide.start + byteSize before = range.start

theorem surrounds_append {before after : List Char} (body front indent gap rest : List Char)
    (hbefore : before = front ++ indent) (hafter : after = gap ++ rest)
    (hindent : indent.all isBlank = true) (hgap : gap.all isBlank = true) :
    Surrounds (before ++ (body ++ after))
      ⟨byteSize before - byteSize indent, byteSize before + byteSize body + byteSize gap⟩
      ⟨byteSize before, byteSize before + byteSize body⟩ := by
  have hsize : byteSize before = byteSize front + byteSize indent := by
    rw [hbefore, byteSize_append]
  refine ⟨indent, body, gap, ?_, hindent, hgap, ?_, by dsimp only; omega⟩
  · exact slice?_eq_some_iff.mpr ⟨before, after, rfl, rfl, rfl⟩
  · refine slice?_eq_some_iff.mpr ⟨front, rest, ?_, ?_, ?_⟩
    · simp [hbefore, hafter]
    · omega
    · simp only [byteSize_append]
      omega

/-- A stretch is widened by blanks only. -/
theorem surrounds_widenToLines {source body : List Char} {range : Range}
    (hbody : slice? source range = some body) :
    Surrounds source (widenToLines source range) range := by
  rcases widenToLines_cases hbody with hsame | ⟨front, indent, body, gap, rest, rfl, rfl, halone⟩
  · rw [hsame]
    obtain ⟨start, stop⟩ := range
    obtain ⟨before, after, rfl, rfl, rfl⟩ := slice?_eq_some_iff.mp hbody
    exact surrounds_append body before [] [] after (by simp) rfl rfl rfl
  · have hindent : indent.all isBlank = true := List.all_eq_true.mpr fun c hc =>
      isBlank_of_isAsciiBlank (isAsciiBlank_of_isTrailing (by simp [isTrailing, halone.indent c hc]))
    have hgap : gap.all isBlank = true := List.all_eq_true.mpr fun c hc =>
      isBlank_of_isAsciiBlank (halone.isAsciiBlank_of_mem hc)
    have hwider := surrounds_append body front indent gap rest rfl rfl hindent hgap
    rw [halone.widenToLines_eq]
    rwa [byteSize_append front indent, Nat.add_sub_cancel, ← byteSize_append] at hwider

/-- What an edit does to a source if it brings about a fate of a rule. -/
def BringsAbout (source : List Char) (rule : RuleSpan) (edit : Edit) : Fate → Prop
  | .stays => False
  | .goes => edit.replacement = [] ∧
      Surrounds source ⟨edit.start, edit.stop⟩ ⟨rule.start, rule.stop⟩
  | .shrinks list => edit = ⟨rule.selectors.start, rule.selectors.stop, list⟩

theorem bringsAbout_editOf? {source : List Char} {rule : RuleSpan} {fate : Fate} {edit : Edit}
    (hrule : ∃ body, slice? source ⟨rule.start, rule.stop⟩ = some body)
    (hedit : editOf? source (rule, fate) = some edit) : BringsAbout source rule edit fate := by
  cases fate with
  | stays => simp [editOf?] at hedit
  | goes =>
    obtain rfl := Option.some.inj hedit
    obtain ⟨body, hbody⟩ := hrule
    exact ⟨rfl, surrounds_widenToLines hbody⟩
  | shrinks list => exact (Option.some.inj hedit).symm

theorem BringsAbout.exists_slice {source list : List Char} {rule : RuleSpan} {fate : Fate}
    {edit : Edit} (hlist : slice? source rule.selectors = some list)
    (hedit : BringsAbout source rule edit fate) :
    ∃ part, slice? source ⟨edit.start, edit.stop⟩ = some part := by
  cases fate with
  | stays => exact hedit.elim
  | goes =>
    obtain ⟨before, body, behind, -, -, -, hslice, -⟩ := hedit.2
    exact ⟨_, hslice⟩
  | shrinks kept =>
    rw [show edit = _ from hedit]
    exact ⟨list, hlist⟩

theorem mem_fates_iff {rules : List RuleSpan} {source : List Char} {goes : List Char → Bool}
    {rule : RuleSpan} {fate : Fate} :
    (rule, fate) ∈ fates goes source rules ↔ rule ∈ rules ∧ rule.broken = false ∧
      ∃ list, slice? source rule.selectors = some list ∧ fateOf goes list = fate := by
  rw [fates, List.mem_filterMap]
  constructor
  · rintro ⟨rule', hrule, hfate⟩
    obtain ⟨list, hlist, hsame⟩ := Option.map_eq_some_iff.mp hfate
    obtain ⟨rfl, rfl⟩ := Prod.mk.inj hsame
    obtain ⟨hrule, hsound⟩ := List.mem_filter.mp hrule
    exact ⟨hrule, by simpa using hsound, list, hlist, rfl⟩
  · rintro ⟨hrule, hsound, list, hlist, rfl⟩
    exact ⟨rule, List.mem_filter.mpr ⟨hrule, by simp [hsound]⟩, by rw [hlist]; rfl⟩

/-- The edits of a stylesheet bring about the fates of its rules. -/
theorem exists_bringsAbout {rules : List RuleSpan} {source : List Char} {goes : List Char → Bool}
    (hcuts : ∀ rule ∈ rules, rule.broken = false →
      ∃ body, slice? source ⟨rule.start, rule.stop⟩ = some body)
    {edit : Edit} (hedit : edit ∈ (fates goes source rules).filterMap (editOf? source)) :
    ∃ rule ∈ rules, rule.broken = false ∧ ∃ list, slice? source rule.selectors = some list ∧
      BringsAbout source rule edit (fateOf goes list) := by
  obtain ⟨⟨rule, fate⟩, hfate, hedit⟩ := List.mem_filterMap.mp hedit
  obtain ⟨hrule, hsound, list, hlist, rfl⟩ := mem_fates_iff.mp hfate
  exact ⟨rule, hrule, hsound, list, hlist, bringsAbout_editOf? (hcuts rule hrule hsound) hedit⟩

/-- Stripping replaces the stretches of those edits that are chosen. -/
theorem replaces_strip {rules : List RuleSpan} {source : List Char}
    (hcuts : ∀ rule ∈ rules, rule.broken = false →
      ∃ body, slice? source ⟨rule.start, rule.stop⟩ = some body)
    (goes : List Char → Bool) :
    Replaces 0 source (chosenEdits source ((fates goes source rules).filterMap (editOf? source)))
      (strip rules source goes).content := by
  have hslices : ∀ edit ∈ (fates goes source rules).filterMap (editOf? source),
      edit.stop ≤ byteSize source → ∃ part, slice? source ⟨edit.start, edit.stop⟩ = some part := by
    intro edit hedit _
    obtain ⟨rule, -, -, list, hlist, hbrings⟩ := exists_bringsAbout hcuts hedit
    exact hbrings.exists_slice hlist
  obtain ⟨result, hsplice, hreplaces⟩ := splice?_spec hslices
  have hcontent : (strip rules source goes).content = result := by
    rw [strip, hsplice]
    rfl
  rwa [hcontent]

/-- Stripping replaces some stretches, each to bring about the fate of a rule. -/
theorem exists_replaces_strip {rules : List RuleSpan} {source : List Char}
    (hcuts : ∀ rule ∈ rules, ∃ body, slice? source ⟨rule.start, rule.stop⟩ = some body)
    (goes : List Char → Bool) :
    ∃ edits, Replaces 0 source edits (strip rules source goes).content ∧
      ∀ edit ∈ edits, ∃ rule ∈ rules, rule.broken = false ∧ ∃ list,
        slice? source rule.selectors = some list ∧
        BringsAbout source rule edit (fateOf goes list) :=
  have hsound := fun rule hrule (_ : rule.broken = false) => hcuts rule hrule
  ⟨_, replaces_strip hsound goes, fun _ hedit =>
    exists_bringsAbout hsound (mem_of_mem_chosenEdits hedit)⟩

/-- What is taken away from a stylesheet cannot match. Every class that is read off a
clear selector is found by each match of it; and each stretch that stripping replaces
is a rule or a list of selectors, of which it spares what can match without the
classes that go. -/
theorem strip_spares_matching (tree : Node) (source : List Char) (goes : List Char → Bool)
    (hcuts : ∀ rule ∈ ruleSpans tree, ∃ body, slice? source ⟨rule.start, rule.stop⟩ = some body) :
    (∀ item : Item, item.isClear = true →
      ∀ name ∈ requiredClasses item.text, item.selector.Requires name) ∧
    ∃ edits, Replaces 0 source edits (strip (ruleSpans tree) source goes).content ∧
      ∀ edit ∈ edits, ∃ rule ∈ ruleSpans tree, rule.broken = false ∧
        ∃ fate, BringsAbout source rule edit fate ∧
          ∀ list : Alternatives, slice? source rule.selectors = some list.text →
            list.isClear = true → Spares goes list fate := by
  refine ⟨fun item hclear name hname => requires_of_mem_requiredClasses hclear hname, ?_⟩
  obtain ⟨edits, hreplaces, hedits⟩ := exists_replaces_strip hcuts goes
  refine ⟨edits, hreplaces, fun edit hedit => ?_⟩
  obtain ⟨rule, hrule, hsound, text, htext, hbrings⟩ := hedits edit hedit
  refine ⟨rule, hrule, hsound, fateOf goes text, hbrings, fun list hlist hclear => ?_⟩
  obtain rfl : text = list.text := Option.some.inj (htext.symm.trans hlist)
  exact spares_fateOf hclear

def liveSheet : List Char :=
  "a:not(.dead) > .live, [class~=\"dead\"] {}\n.dead {}\n".toList

/-- The rules of the sheet, one on each line. -/
def liveTree : Node :=
  let rule (start stop behindSelectors line : Nat) : Node :=
    .mk "rule_set" true none start stop line line false false
      [.mk "selectors" true none start behindSelectors line line false false []]
  .mk "stylesheet" true none 0 50 0 2 false false [rule 0 40 37 0, rule 41 49 46 1]

def deadName : Name :=
  ⟨"dead".toList.map .plain, by decide, by decide⟩

/-- A link's child of class live, where the link is not of class dead. -/
def liveItem : Item :=
  let link : Selector := .first (.named ⟨[.plain 'a'], by decide, by decide⟩)
  let negated : Alternatives := .last ⟨[], rfl⟩ (.withClass (.first .unsaid) deadName) ⟨[], rfl⟩
  let child : Combinator := .child ⟨[' '], rfl⟩ ⟨[' '], rfl⟩
  ⟨⟨[], rfl⟩,
    .withClass (.next (.withNegation link ⟨"not".toList, rfl⟩ negated) child .unsaid)
      ⟨"live".toList.map .plain, by decide, by decide⟩,
    ⟨[], rfl⟩⟩

def deadAttribute : Attribute where
  beforeWord := ⟨[], rfl⟩
  word := ⟨"class".toList, rfl⟩
  behindWord := ⟨[], rfl⟩
  operator := .includes
  beforeValue := ⟨[], rfl⟩
  value := .quoted '"' (.inl rfl) deadName.letters (by decide)
  behindValue := ⟨[], rfl⟩
  flag := none
  isFlag := rfl
  apart := by simp
  behindFlag := ⟨[], rfl⟩

def liveList : Alternatives :=
  .more liveItem.before liveItem.selector liveItem.behind
    (.last ⟨[' '], rfl⟩ (.withAttribute (.first .unsaid) deadAttribute) ⟨[], rfl⟩)

theorem liveTree_rules :
    ruleSpans liveTree = [⟨0, 40, ⟨0, 37⟩, false⟩, ⟨41, 49, ⟨41, 46⟩, false⟩] := by
  decide +kernel

theorem liveSheet_content :
    (strip (ruleSpans liveTree) liveSheet (· == "dead".toList)).content =
      "a:not(.dead) > .live {}\n".toList := by
  have hedits : (fates (· == "dead".toList) liveSheet (ruleSpans liveTree)).filterMap
      (editOf? liveSheet) = [⟨0, 37, "a:not(.dead) > .live".toList⟩, ⟨41, 50, []⟩] := by
    rw [liveTree_rules]
    decide +kernel
  rw [strip, hedits, splice?, chosenEdits, List.mergeSort_of_pairwise (by decide)]
  decide +kernel

theorem strip_spares_matching_live :
    slice? liveSheet ⟨0, 37⟩ = some liveList.text ∧ liveList.isClear = true ∧
    liveItem.selector.Requires "live".toList ∧
    ∃ edits, Replaces 0 liveSheet edits "a:not(.dead) > .live {}\n".toList ∧
      ∀ edit ∈ edits, ∃ rule ∈ ruleSpans liveTree, rule.broken = false ∧
        ∃ fate, BringsAbout liveSheet rule edit fate ∧
          ∀ list : Alternatives, slice? liveSheet rule.selectors = some list.text →
            list.isClear = true → Spares (· == "dead".toList) list fate := by
  have hcuts : ∀ rule ∈ ruleSpans liveTree, ∃ body,
      slice? liveSheet ⟨rule.start, rule.stop⟩ = some body := by
    have hall : (ruleSpans liveTree).all
        (fun rule => (slice? liveSheet ⟨rule.start, rule.stop⟩).isSome) = true := by
      rw [liveTree_rules]
      decide +kernel
    exact fun rule hrule => Option.isSome_iff_exists.mp (List.all_eq_true.mp hall rule hrule)
  have hspares := strip_spares_matching liveTree liveSheet (· == "dead".toList) hcuts
  rw [liveSheet_content] at hspares
  refine ⟨by decide +kernel, by decide +kernel, ?_, hspares.2⟩
  exact hspares.1 liveItem (by decide +kernel) _ (by decide +kernel)

end Deadwood.Css
