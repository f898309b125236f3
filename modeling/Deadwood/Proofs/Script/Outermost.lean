/-
# Every chosen function is commented out

Among edits that are nested or apart, splicing drops one only for another around it. So
what it applies are the outermost ones, and all that was asked for lies within them.

The functions of a script have statements that are nested or apart, and no two have the
same. Whichever of them are chosen, the outermost ones are commented out, and the others
go along as part of these.
-/

import Deadwood.Proofs.Script.Lineage
import Deadwood.Proofs.Script.Removal
import Deadwood.Proofs.Text.Substitution

namespace Deadwood

open Deadwood.Grammar

/-! ## Nested edits -/

namespace Text

variable {text : List Char} {edit other : Edit} {edits : List Edit}

/-- One edit replaces all that another one does. -/
def Edit.Covers (outer inner : Edit) : Prop :=
  outer.start ≤ inner.start ∧ inner.stop ≤ outer.stop

/-- Edits of stretches of a text, any two of them nested or apart. -/
structure IsLaminar (text : List Char) (edits : List Edit) : Prop where
  fits : ∀ edit ∈ edits, edit.start < edit.stop ∧ edit.stop ≤ byteSize text
  nested : ∀ first ∈ edits, ∀ second ∈ edits, first.Covers second ∨ second.Covers first ∨
    first.stop ≤ second.start ∨ second.stop ≤ first.start

namespace IsLaminar

/-- The edits that are applied lie apart, from left to right. -/
theorem pairwise (hlaminar : IsLaminar text edits) :
    (chosenEdits text edits).Pairwise fun first second => first.stop ≤ second.start := by
  obtain ⟨dropped, hsifts⟩ := sifts_chosenEdits text edits
  exact hsifts.pairwise fun edit hedit =>
    Nat.le_of_lt (hlaminar.fits edit (List.mem_mergeSort.mp hedit)).1

/-- Whatever is to be replaced is. -/
theorem exists_covers (hlaminar : IsLaminar text edits) (hedit : edit ∈ edits) :
    ∃ outer ∈ chosenEdits text edits, outer.Covers edit := by
  have horder := inOrder_mergeSort edits
  obtain ⟨dropped, hsifts⟩ := sifts_chosenEdits text edits
  obtain ⟨hbytes, hfits⟩ := hlaminar.fits edit hedit
  rcases List.mem_append.mp (hsifts.perm.mem_iff.mp (horder.perm.mem_iff.mpr hedit)) with
    hkept | hdropped
  · exact ⟨edit, hkept, Nat.le_refl _, Nat.le_refl _⟩
  · have hchanges : edit.isTrivial = false := by simp [Edit.isTrivial, Nat.not_le.mpr hbytes]
    obtain ⟨outer, hkept, hearlier, hinside⟩ :=
      hsifts.exists_of_dropped horder.ordered hdropped hchanges hfits
    have hnested := hlaminar.nested outer (mem_of_mem_chosenEdits hkept) edit hedit
    refine ⟨outer, hkept, ?_⟩
    unfold Edit.Covers at hnested ⊢
    omega

/-- An edit that is applied covers all that cover it. -/
theorem covers_of_mem_chosenEdits (hlaminar : IsLaminar text edits)
    (hedit : edit ∈ chosenEdits text edits) (hother : other ∈ edits) (hcovers : other.Covers edit) :
    edit.Covers other := by
  obtain ⟨outer, houter, haround⟩ := hlaminar.exists_covers hother
  by_cases hsame : outer = edit
  · exact hsame ▸ haround
  · have hbytes := (hlaminar.fits edit (mem_of_mem_chosenEdits hedit)).1
    have hbeside := or_of_pairwise hlaminar.pairwise houter hedit hsame
    unfold Edit.Covers at haround hcovers
    omega

end IsLaminar

end Text

/-! ## The functions of a script -/

namespace Script

open Deadwood.Text (slice? byteSize Edit IsLaminar Replaces chosenEdits splitAt?_append
  slice?_bounds slice?_eq_some_iff splice?_spec or_of_pairwise)

variable {tree : Node} {source iso : List Char} {text : Text} {file : String}
  {function other : Symbol} {chosen : List Symbol} {span span' : Span}

/-- A function is recorded with a stretch of a text that can be cut out. -/
structure LiesAt (source : List Char) (function : Symbol) (span : Span) : Prop where
  recorded : function.span = some span
  bytes : span.start < span.stop
  cuts : (slice? source ⟨span.start, span.stop⟩).isSome = true

theorem LiesAt.stop_le (hlies : LiesAt source function span) : span.stop ≤ byteSize source := by
  obtain ⟨part, hpart⟩ := Option.isSome_iff_exists.mp hlies.cuts
  exact (slice?_bounds hpart).2

theorem exists_declares (hfunction : function ∈ (factsOf tree text file).functions) :
    ∃ node around name own, Declares tree node around name own ∧
      function.span = some (spanOf own) := by
  obtain ⟨-, node, around, name, own, hplaced, hname, hown, rfl⟩ := mem_functions_iff.mp hfunction
  exact ⟨node, around, name, own, ⟨Node.line_of_mem_placed tree .root hplaced, hname, hown⟩, rfl⟩

theorem exists_liesAt (htree : IsTreeOf source tree)
    (hfunction : function ∈ (factsOf tree text file).functions) :
    ∃ span, LiesAt source function span := by
  obtain ⟨node, around, name, own, hdeclares, hspan⟩ := exists_declares hfunction
  obtain ⟨-, ⟨hstart, hstop⟩, hbytes, -⟩ := hdeclares.encloses htree
  have hown : own ∈ tree.preorder := by
    refine hdeclares.line.mem_preorder own ?_
    rcases mem_of_removable? hdeclares.own with rfl | habove
    · exact List.mem_cons_self
    · exact List.mem_cons_of_mem _ habove
  refine ⟨spanOf own, hspan, ?_, htree.cuts own hown⟩
  exact Nat.lt_of_le_of_lt hstart (Nat.lt_of_lt_of_le hbytes hstop)

/-- Two functions have statements that differ and are nested or apart. -/
def Settles (first second : Symbol) : Prop :=
  ∀ span ∈ first.span, ∀ span' ∈ second.span, span.Settled span'

theorem Settles.symm {first second : Symbol} (hsettles : Settles first second) :
    Settles second first :=
  fun span hspan span' hspan' => (hsettles span' hspan' span hspan).symm

/-- Of the places of a tree, any two that declare functions have settled statements. -/
theorem pairwise_settles (htree : IsTreeOf source tree) :
    (((tree.placed []).filterMap fun (node, around) =>
        (declaredName? node).map fun name => (name, removable? node around)).filterMap
      fun (name, statement) => statement.map fun node =>
        Symbol.ofFunction (text.of name) file (spanOf node)).Pairwise Settles := by
  rw [List.pairwise_filterMap, List.pairwise_filterMap]
  refine (Node.pairwise_placed tree []).imp_of_mem ?_
  rintro ⟨node, around⟩ ⟨node', around'⟩ hplaced hplaced' hparted declared hdeclared declared'
    hdeclared' function hfunction other hother span hspan span' hspan'
  obtain ⟨name, hname, rfl⟩ := Option.map_eq_some_iff.mp hdeclared
  obtain ⟨name', hname', rfl⟩ := Option.map_eq_some_iff.mp hdeclared'
  obtain ⟨own, hown, rfl⟩ := Option.map_eq_some_iff.mp hfunction
  obtain ⟨own', hown', rfl⟩ := Option.map_eq_some_iff.mp hother
  obtain rfl := Option.some.inj hspan
  obtain rfl := Option.some.inj hspan'
  have hdeclares : Declares tree node around name own :=
    ⟨Node.line_of_mem_placed tree .root hplaced, hname, hown⟩
  have hdeclares' : Declares tree node' around' name' own' :=
    ⟨Node.line_of_mem_placed tree .root hplaced', hname', hown'⟩
  exact hdeclares.settled hdeclares' htree hparted

theorem pairwise_mergeSort_start {functions : List Symbol}
    (hsettles : functions.Pairwise Settles) :
    (functions.mergeSort fun first second => decide
        ((first.span.map (·.start)).getD 0 ≤ (second.span.map (·.start)).getD 0)).Pairwise
      fun first second => ∀ span ∈ first.span, ∀ span' ∈ second.span,
        span.start ≤ span'.start ∧ span.Settled span' := by
  have hboth := (List.pairwise_mergeSort (by grind) (by grind) functions).and
    ((List.mergeSort_perm functions fun first second => decide
      ((first.span.map (·.start)).getD 0 ≤ (second.span.map (·.start)).getD 0)).symm.pairwise
        hsettles Settles.symm)
  refine hboth.imp fun ⟨hstart, hsettles⟩ span hspan span' hspan' =>
    ⟨?_, hsettles span hspan span' hspan'⟩
  rw [Option.mem_def] at hspan hspan'
  simpa [hspan, hspan'] using hstart

/-- Functions stand by where their statements begin, and any two of these differ and are
nested or apart. -/
theorem pairwise_functions (htree : IsTreeOf source tree) :
    (factsOf tree text file).functions.Pairwise fun first second =>
      ∀ span ∈ first.span, ∀ span' ∈ second.span,
        span.start ≤ span'.start ∧ span.Settled span' := by
  unfold factsOf
  split
  · exact .nil
  · exact pairwise_mergeSort_start (pairwise_settles htree)

theorem eq_or_settled (htree : IsTreeOf source tree)
    (hfunction : function ∈ (factsOf tree text file).functions)
    (hother : other ∈ (factsOf tree text file).functions) (hspan : function.span = some span)
    (hspan' : other.span = some span') : function = other ∨ span.Settled span' := by
  by_cases hsame : function = other
  · exact .inl hsame
  · rcases or_of_pairwise (pairwise_functions htree) hfunction hother hsame with hearlier | hlater
    · exact .inr (hearlier span hspan span' hspan').2
    · exact .inr (hlater span' hspan' span hspan).2.symm

/-! ## Commenting out -/

/-- An edit that comments a function out replaces the stretch where it is recorded. -/
structure Removes (source iso : List Char) (function : Symbol) (span : Span) (edit : Edit) :
    Prop where
  lies : LiesAt source function span
  start : edit.start = span.start
  stop : edit.stop = span.stop
  made : removalEdit? source iso function = some edit

theorem LiesAt.exists_removes (hlies : LiesAt source function span) (iso : List Char) :
    ∃ edit, Removes source iso function span edit := by
  obtain ⟨part, hpart⟩ := Option.isSome_iff_exists.mp hlies.cuts
  obtain ⟨edit, hmade, hstart, hstop⟩ := exists_removalEdit? hlies.recorded hpart iso
  exact ⟨edit, hlies, hstart, hstop, hmade⟩

theorem Removes.covers_iff {edit edit' : Edit} (hremoves : Removes source iso function span edit)
    (hremoves' : Removes source iso other span' edit') :
    edit'.Covers edit ↔ span'.Encloses span := by
  rw [Edit.Covers, hremoves.start, hremoves.stop, hremoves'.start, hremoves'.stop]
  rfl

theorem exists_removes (htree : IsTreeOf source tree)
    (hfunction : function ∈ (factsOf tree text file).functions) (hspan : function.span = some span)
    (iso : List Char) : ∃ edit, Removes source iso function span edit := by
  obtain ⟨around, hlies⟩ := exists_liesAt htree hfunction
  obtain rfl : span = around := Option.some.inj (hspan.symm.trans hlies.recorded)
  exact hlies.exists_removes iso

/-- One of some functions, whose statement lies within that of no other of them. -/
structure IsOutermost (chosen : List Symbol) (function : Symbol) : Prop where
  mem : function ∈ chosen
  alone : ∀ other ∈ chosen, ∀ span ∈ function.span, ∀ span' ∈ other.span, span'.Encloses span →
    other = function

section Chosen

variable (htree : IsTreeOf source tree)
  (hchosen : ∀ function ∈ chosen, function ∈ (factsOf tree text file).functions)

include htree hchosen

theorem exists_removes_of_mem {edit : Edit}
    (hedit : edit ∈ chosen.filterMap (removalEdit? source iso)) :
    ∃ function ∈ chosen, ∃ span, Removes source iso function span edit := by
  obtain ⟨function, hfunction, hmade⟩ := List.mem_filterMap.mp hedit
  obtain ⟨span, hlies⟩ := exists_liesAt htree (hchosen function hfunction)
  obtain ⟨other, hremoves⟩ := hlies.exists_removes iso
  obtain rfl : other = edit := Option.some.inj (hremoves.made.symm.trans hmade)
  exact ⟨function, hfunction, span, hremoves⟩

theorem isLaminar_removalEdits :
    IsLaminar source (chosen.filterMap (removalEdit? source iso)) where
  fits edit hedit := by
    obtain ⟨function, -, span, hremoves⟩ := exists_removes_of_mem htree hchosen hedit
    rw [hremoves.start, hremoves.stop]
    exact ⟨hremoves.lies.bytes, hremoves.lies.stop_le⟩
  nested edit hedit edit' hedit' := by
    obtain ⟨function, hfunction, span, hremoves⟩ := exists_removes_of_mem htree hchosen hedit
    obtain ⟨other, hother, span', hremoves'⟩ := exists_removes_of_mem htree hchosen hedit'
    unfold Edit.Covers
    rw [hremoves.start, hremoves.stop, hremoves'.start, hremoves'.stop]
    rcases eq_or_settled htree (hchosen function hfunction) (hchosen other hother)
      hremoves.lies.recorded hremoves'.lies.recorded with rfl | hsettled
    · obtain rfl : span = span' :=
        Option.some.inj (hremoves.lies.recorded.symm.trans hremoves'.lies.recorded)
      exact .inl ⟨Nat.le_refl _, Nat.le_refl _⟩
    · exact hsettled.nested

/-- The statement of each function lies within one that is replaced. -/
theorem exists_mem_chosenEdits (hfunction : function ∈ chosen) (hspan : function.span = some span) :
    ∃ edit ∈ chosenEdits source (chosen.filterMap (removalEdit? source iso)),
      edit.start ≤ span.start ∧ span.stop ≤ edit.stop := by
  obtain ⟨edit, hremoves⟩ := exists_removes htree (hchosen function hfunction) hspan iso
  rw [← hremoves.start, ← hremoves.stop]
  exact (isLaminar_removalEdits htree hchosen).exists_covers
    (List.mem_filterMap.mpr ⟨function, hfunction, hremoves.made⟩)

/-- The edits that are applied are those of the outermost functions. -/
theorem mem_chosenEdits_iff (edit : Edit) :
    edit ∈ chosenEdits source (chosen.filterMap (removalEdit? source iso)) ↔
      ∃ function span, IsOutermost chosen function ∧ Removes source iso function span edit := by
  have hlaminar : IsLaminar source (chosen.filterMap (removalEdit? source iso)) :=
    isLaminar_removalEdits htree hchosen
  constructor
  · intro hkept
    obtain ⟨function, hfunction, span, hremoves⟩ :=
      exists_removes_of_mem htree hchosen (Text.mem_of_mem_chosenEdits hkept)
    refine ⟨function, span, ⟨hfunction, fun other hother around haround span' hspan' hinside => ?_⟩,
      hremoves⟩
    obtain rfl : span = around := Option.some.inj (hremoves.lies.recorded.symm.trans haround)
    obtain ⟨edit', hremoves'⟩ := exists_removes htree (hchosen other hother) hspan' iso
    -- An edit around one that is applied has the same ends, so the functions are the same.
    have hedit' := List.mem_filterMap.mpr ⟨other, hother, hremoves'.made⟩
    have hback := (hremoves'.covers_iff hremoves).mp <|
      hlaminar.covers_of_mem_chosenEdits hkept hedit' ((hremoves.covers_iff hremoves').mpr hinside)
    rcases eq_or_settled htree (hchosen other hother) (hchosen function hfunction) hspan' haround
      with hsame | hsettled
    · exact hsame
    · exact absurd ⟨Nat.le_antisymm hinside.1 hback.1, Nat.le_antisymm hback.2 hinside.2⟩
        hsettled.differ
  · rintro ⟨function, span, houtermost, hremoves⟩
    have hedit := List.mem_filterMap.mpr ⟨function, houtermost.mem, hremoves.made⟩
    obtain ⟨outer, hkept, hcovers⟩ := hlaminar.exists_covers hedit
    obtain ⟨other, hother, span', hremoves'⟩ :=
      exists_removes_of_mem htree hchosen (Text.mem_of_mem_chosenEdits hkept)
    obtain rfl := houtermost.alone other hother span hremoves.lies.recorded span'
      hremoves'.lies.recorded ((hremoves.covers_iff hremoves').mp hcovers)
    obtain rfl : outer = edit := Option.some.inj (hremoves'.made.symm.trans hremoves.made)
    exact hkept

theorem exists_commentOut_eq (iso : List Char) :
    ∃ result, commentOut source chosen iso =
        (result, (chosenEdits source (chosen.filterMap (removalEdit? source iso))).length) ∧
      Replaces 0 source (chosenEdits source (chosen.filterMap (removalEdit? source iso)))
        result := by
  have hcuts : ∀ edit ∈ chosen.filterMap (removalEdit? source iso),
      ∃ part, slice? source ⟨edit.start, edit.stop⟩ = some part := by
    intro edit hedit
    obtain ⟨function, -, span, hremoves⟩ := exists_removes_of_mem htree hchosen hedit
    rw [hremoves.start, hremoves.stop]
    exact Option.isSome_iff_exists.mp hremoves.lies.cuts
  obtain ⟨result, hsplice, hreplaces⟩ := splice?_spec fun edit hedit _ => hcuts edit hedit
  refine ⟨result, ?_, hreplaces⟩
  rw [commentOut, hsplice]
  rfl

end Chosen

/-- Every chosen function ends up commented out. The functions of a script stand by where
their statements begin; these are stretches of the text, no two of them the same, and nested
or apart. Whichever functions are chosen, the statements of the outermost ones are replaced
and nothing else, and the statement of each lies within one that is. -/
theorem commentOut_outermost (tree : Node) (source file : String)
    (htree : IsTreeOf source.toList tree) :
    let functions := (factsOf tree (.ofString source) file).functions
    (∀ function ∈ functions, ∃ span, LiesAt source.toList function span ∧
      span.stop ≤ byteSize source.toList) ∧
    (functions.Pairwise fun first second => ∀ span ∈ first.span, ∀ span' ∈ second.span,
      span.start ≤ span'.start ∧ span.Settled span') ∧
    ∀ chosen : List Symbol, (∀ function ∈ chosen, function ∈ functions) → ∀ iso, ∃ kept result,
      commentOut source.toList chosen iso = (result, kept.length) ∧
      Replaces 0 source.toList kept result ∧
      (kept.Pairwise fun first second => first.stop ≤ second.start) ∧
      (∀ edit, edit ∈ kept ↔ ∃ function span, IsOutermost chosen function ∧
        Removes source.toList iso function span edit) ∧
      ∀ function ∈ chosen, ∀ span ∈ function.span, ∃ edit ∈ kept,
        edit.start ≤ span.start ∧ span.stop ≤ edit.stop := by
  refine ⟨fun function hfunction => ?_, pairwise_functions htree, fun chosen hchosen iso => ?_⟩
  · obtain ⟨span, hlies⟩ := exists_liesAt htree hfunction
    exact ⟨span, hlies, hlies.stop_le⟩
  · obtain ⟨result, hresult, hreplaces⟩ := exists_commentOut_eq htree hchosen iso
    exact ⟨_, result, hresult, hreplaces, (isLaminar_removalEdits htree hchosen).pairwise,
      mem_chosenEdits_iff htree hchosen, fun function hfunction span hspan =>
        exists_mem_chosenEdits htree hchosen hfunction hspan⟩

/-- A script with a function in an exported one. -/
def nestedScript : String :=
  "export const é=()=>\x7bfunction b()\x7b\x7d\x7d;"

def plainNode (kind : String) (label : Option String) (start stop : Nat)
    (children : List Node) : Node :=
  .mk kind true label start stop 0 0 false false children

def innerDeclaration : Node :=
  plainNode "function_declaration" none 21 35
    [plainNode "identifier" (some "name") 30 31 [],
      plainNode "formal_parameters" (some "parameters") 31 33 [],
      plainNode "statement_block" (some "body") 33 35 []]

def outerDeclarator : Node :=
  plainNode "variable_declarator" none 13 36
    [plainNode "identifier" (some "name") 13 15 [],
      plainNode "arrow_function" (some "value") 16 36
        [plainNode "formal_parameters" (some "parameters") 16 18 [],
          plainNode "statement_block" (some "body") 20 36 [innerDeclaration]]]

def nestedTree : Node :=
  plainNode "program" none 0 37
    [plainNode "export_statement" none 0 37
      [plainNode "lexical_declaration" (some "declaration") 7 37 [outerDeclarator]]]

def innerFunction : Symbol :=
  .ofFunction "b" "app.js" ⟨21, 35, 1, 1⟩

def outerFunction : Symbol :=
  .ofFunction "é" "app.js" ⟨0, 37, 1, 1⟩

theorem nestedTree_isTreeOf : IsTreeOf nestedScript.toList nestedTree := by
  decide +kernel

theorem mem_functions_nestedTree : ∀ function ∈ [innerFunction, outerFunction],
    function ∈ (factsOf nestedTree (.ofString nestedScript) "app.js").functions := by
  intro function hfunction
  rw [mem_functions_iff]
  refine ⟨rfl, ?_⟩
  rcases List.mem_cons.mp hfunction with rfl | hfunction
  · exact ⟨innerDeclaration, _, _, _, List.mem_of_getElem? (i := 8) rfl, rfl, rfl,
      by decide +kernel⟩
  · obtain rfl := List.mem_singleton.mp hfunction
    exact ⟨outerDeclarator, _, _, _, List.mem_of_getElem? (i := 3) rfl, rfl, rfl,
      by decide +kernel⟩

theorem not_isOutermost_innerFunction :
    ¬ IsOutermost [innerFunction, outerFunction] innerFunction := fun houtermost =>
  absurd (houtermost.alone outerFunction (by simp) _ rfl _ rfl ⟨by decide, by decide⟩) (by decide)

theorem commentOut_outermost_nested :
    IsTreeOf nestedScript.toList nestedTree ∧
    (∀ function ∈ [innerFunction, outerFunction],
      function ∈ (factsOf nestedTree (.ofString nestedScript) "app.js").functions) ∧
    ∃ kept result,
      commentOut nestedScript.toList [innerFunction, outerFunction] [] = (result, kept.length) ∧
      Replaces 0 nestedScript.toList kept result ∧
      (∀ edit ∈ kept, edit.start = 0 ∧ edit.stop = 37) ∧
      ∃ edit ∈ kept, edit.start ≤ 21 ∧ 35 ≤ edit.stop := by
  obtain ⟨-, -, hcomments⟩ := commentOut_outermost nestedTree nestedScript "app.js"
    nestedTree_isTreeOf
  obtain ⟨kept, result, hresult, hreplaces, -, hkept, hcovered⟩ :=
    hcomments _ mem_functions_nestedTree []
  refine ⟨nestedTree_isTreeOf, mem_functions_nestedTree, kept, result, hresult, hreplaces,
    fun edit hedit => ?_, hcovered innerFunction List.mem_cons_self _ rfl⟩
  obtain ⟨function, span, houtermost, hremoves⟩ := (hkept edit).mp hedit
  rcases List.mem_cons.mp houtermost.mem with rfl | hmem
  · exact absurd houtermost not_isOutermost_innerFunction
  · obtain rfl := List.mem_singleton.mp hmem
    obtain rfl := Option.some.inj hremoves.lies.recorded
    exact ⟨hremoves.start, hremoves.stop⟩

end Script

end Deadwood
