/-
# Variables that could be constants

A variable that a declaration gives a value and that nothing stores to again could be a
constant. The rule that says so looks below the parent of the declaration, at assignments
only, and at names as they are spelled; of these it misses none. A store to a variable that
it reports is therefore the head of a loop, or lies in the scope of the variable but not
below that parent, or spells the name in a way that is not recognized.
-/

import Deadwood.Proofs.Script.Outermost
import Deadwood.Script.Lint
import Deadwood.Stylesheet.Selector

namespace Deadwood.Script

open Deadwood.Grammar
open Deadwood.Selector (hexValue)
open Deadwood.Text (isHexDigit)

variable {tree node place leaf parent function : Node} {around : List Node} {text : Text}

/-! ## Names as they are meant -/

/-- The number that an escape in a name stands for and how long it is, behind its
backslash: four digits, or any number of them in braces. -/
def nameEscape? (rest : List Char) : Option (Nat × Nat) :=
  match rest with
  | 'u' :: '\x7b' :: rest =>
    let digits := rest.takeWhile isHexDigit
    if digits ≠ [] ∧ (rest.drop digits.length).head? = some '\x7d' then
      some (hexValue digits, digits.length + 3)
    else none
  | 'u' :: rest =>
    let digits := rest.take 4
    if digits.length = 4 ∧ digits.all isHexDigit then some (hexValue digits, 5) else none
  | _ => none

/-- A name without its escapes. The number counts the characters of an escape that has
been read. -/
def meantFrom : Nat → List Char → List Char
  | _, [] => []
  | read + 1, _ :: rest => meantFrom read rest
  | 0, c :: rest =>
    match if c = '\\' then nameEscape? rest else none with
    | some (number, length) => Char.ofNat number :: meantFrom length rest
    | none => c :: meantFrom 0 rest

/-- The name that a node of a script means, however it is spelled. -/
def Text.meant (text : Text) (node : Node) : List Char :=
  meantFrom 0 (text.of node).toList

theorem meantFrom_of_not_mem {name : List Char} (hname : '\\' ∉ name) :
    meantFrom 0 name = name := by
  induction name with
  | nil => rfl
  | cons c name ih =>
    obtain ⟨hc, hname⟩ := List.ne_and_not_mem_of_not_mem_cons hname
    simp [meantFrom, Ne.symm hc, ih hname]

example : meantFrom 0 "\\u0061b\\u\x7b63\x7d".toList = "abc".toList := by decide

theorem Text.meant_of_not_mem (hnode : '\\' ∉ (text.of node).toList) :
    text.meant node = (text.of node).toList :=
  meantFrom_of_not_mem hnode

/-! ## Findings of one rule -/

/-- The finding that a complaint becomes. -/
def Complaint.finding (file : String) (own : Complaint) : Diagnostic :=
  .advised file own.line own.rule own.severity own.message

theorem filter_lint (hread : tree.isBroken = false) (text : Text) (file rule : String) :
    (lint tree text file).filter (·.rule == rule) =
      ((tree.placed []).flatMap fun (node, around) =>
        (complaint? text node around).toList.filter (·.rule == rule) ++
          (neverReassigned text node around).filter (·.rule == rule)).map
        (Complaint.finding file) := by
  have hlint : lint tree text file = (complaints tree text).map (Complaint.finding file) := rfl
  have hrule : ((·.rule == rule) : Diagnostic → Bool) ∘ Complaint.finding file = (·.rule == rule) :=
    rfl
  rw [hlint, List.filter_map, hrule, complaints, hread, if_neg (by decide), List.filter_flatMap]
  simp only [List.filter_append]

/-- What a node by itself is found guilty of is not that it could be a constant. -/
theorem filter_complaint?_const (text : Text) (node : Node) (around : List Node) :
    (complaint? text node around).toList.filter (·.rule == "prefer-const") = [] := by
  unfold complaint?
  split
  · rfl
  · rfl
  · cases node.child? "operator" with
    | none => rfl
    | some operator =>
      dsimp only [Option.bind]
      split <;> rfl
  · cases node.child? "constructor" with
    | none => rfl
    | some constructor =>
      dsimp only [Option.bind]
      split <;> rfl
  · split <;> rfl
  · rfl

/-! ## Variables and their scopes -/

/-- A variable that a `let` gives a value, with the nodes around the declaration. -/
structure Binding where
  around : List Node
  declarator : Node
  name : Node

/-- The name in a declarator that gives a value to one variable. -/
def boundName? (declarator : Node) : Option Node :=
  if declarator.kind = "variable_declarator" ∧ (declarator.child? "value").isSome then
    (declarator.child? "name").filter (·.kind == "identifier")
  else none

/-- The variables that a node declares so. -/
def bindingsAt (text : Text) (declaration : Node) (around : List Node) : List Binding :=
  if declaration.kind = "lexical_declaration" ∧
      declaration.children.head?.map text.of = some "let" then
    declaration.namedChildren.filterMap fun declarator =>
      (boundName? declarator).map (⟨around, declarator, ·⟩)
  else []

/-- All variables of a script that are declared so. -/
def bindings (text : Text) (tree : Node) : List Binding :=
  (tree.placed []).flatMap fun (node, around) => bindingsAt text node around

namespace Binding

/-- What is reported of a variable that could be a constant. -/
def complaint (text : Text) (binding : Binding) : Complaint :=
  ⟨binding.declarator.startLine + 1, "prefer-const", .warning,
    "'" ++ text.of binding.name ++ "' is never reassigned. Use 'const' instead."⟩

/-- Nodes that are the scope of what is declared in them, the script itself apart. -/
def opensScope (node : Node) : Bool :=
  ["statement_block", "switch_body", "for_statement"].contains node.kind

/-- The scope of a variable: the innermost around its declaration, or the whole script. -/
def scope? (binding : Binding) : Option Node :=
  binding.around.find? opensScope <|> binding.around.getLast?

end Binding

/-! ## Stores and how they look -/

/-- An assignment, or a step by one, and what it stores to. -/
inductive Assigns (node place : Node) : Prop
  | assignment (hkind : node.kind ∈ ["assignment_expression", "augmented_assignment_expression"])
      (hplace : node.child? "left" = some place)
  | update (hkind : node.kind = "update_expression") (hplace : node.child? "argument" = some place)

/-- All that stores to a place: assignments, and loops that take their variable from
elsewhere. -/
inductive StoresTo (node place : Node) : Prop
  | assigns (hassigns : Assigns node place)
  | head (hkind : node.kind = "for_in_statement") (hforeign : node.child? "kind" = none)
      (hplace : node.child? "left" = some place)

/-- Nodes that are names of variables where they are stored to. -/
def storedKinds : List String :=
  ["identifier", "shorthand_property_identifier_pattern", "undefined"]

/-- The variables that a place consists of, which is a name or a pattern. -/
inductive Stores : Node → Node → Prop
  | name {leaf : Node} (hkind : leaf.kind ∈ storedKinds) : Stores leaf leaf
  | inside {place part leaf : Node}
      (hkind : place.kind ∈
        ["parenthesized_expression", "array_pattern", "object_pattern", "rest_pattern"])
      (hpart : part ∈ place.children) (hleaf : Stores part leaf) : Stores place leaf
  | default {place part leaf : Node}
      (hkind : place.kind ∈ ["assignment_pattern", "object_assignment_pattern"])
      (hpart : place.child? "left" = some part) (hleaf : Stores part leaf) : Stores place leaf
  | pair {place part leaf : Node} (hkind : place.kind = "pair_pattern")
      (hpart : place.child? "value" = some part) (hleaf : Stores part leaf) : Stores place leaf

/-- A node stores to a variable, which it names at a leaf. -/
structure Writes (text : Text) (node leaf name : Node) : Prop where
  stores : ∃ place, StoresTo node place ∧ Stores place leaf
  meant : text.meant leaf = text.meant name

/-- A name occurs as it is spelled in what an assignment below a node stores to. -/
structure Occurs (text : Text) (name : String) (below node place leaf : Node) : Prop where
  node_mem : node ∈ below.preorder
  assigns : Assigns node place
  leaf_mem : leaf ∈ place.preorder
  kind : leaf.kind ∈ ["identifier", "shorthand_property_identifier_pattern"]
  spelled : text.of leaf = name

/-- A variable is spared if its name occurs nowhere so below the parent of its declaration. -/
def Binding.IsSpared (text : Text) (binding : Binding) : Prop :=
  ∃ parent, binding.around.head? = some parent ∧
    ∀ node place leaf, ¬ Occurs text (text.of binding.name) parent node place leaf

/-- Why a store to a variable is not seen. -/
inductive Binding.Overlooks (text : Text) (binding : Binding) (node leaf : Node) : Prop
  | head (hkind : node.kind = "for_in_statement")
  | elsewhere (parent : Node) (hparent : binding.around.head? = some parent)
      (hscope : opensScope parent = false) (hnode : node ∉ parent.preorder)
  | escaped (hspelled : text.of leaf ≠ text.of binding.name)
      (hescape : '\\' ∈ (text.of leaf).toList ∨ '\\' ∈ (text.of binding.name).toList)
  | undefined (hkind : leaf.kind = "undefined")

/-! ## What the rule sees -/

theorem preorder_subset_of_mem_children (hplace : place ∈ node.children) :
    place.preorder ⊆ node.preorder := by
  obtain ⟨kind, named, label, start, stop, startLine, stopLine, missing, broken, children⟩ := node
  intro inner hinner
  refine List.mem_cons_of_mem _ ?_
  change place ∈ children at hplace
  induction children with
  | nil => simp at hplace
  | cons first rest ih =>
    rw [Node.preorderAll]
    rcases List.mem_cons.mp hplace with rfl | hplace
    · exact List.mem_append_left _ hinner
    · exact List.mem_append_right _ (ih hplace)

theorem mem_children_of_child? {label : String} (hplace : node.child? label = some place) :
    place ∈ node.children :=
  List.mem_of_find?_eq_some hplace

theorem Stores.mem_preorder (hstores : Stores place leaf) : leaf ∈ place.preorder := by
  induction hstores with
  | name _ => exact Node.mem_preorder_self _
  | inside _ hpart _ ih => exact preorder_subset_of_mem_children hpart ih
  | default _ hpart _ ih =>
    exact preorder_subset_of_mem_children (mem_children_of_child? hpart) ih
  | pair _ hpart _ ih => exact preorder_subset_of_mem_children (mem_children_of_child? hpart) ih

theorem Stores.kind_mem (hstores : Stores place leaf) : leaf.kind ∈ storedKinds := by
  induction hstores with
  | name hkind => exact hkind
  | inside _ _ _ ih => exact ih
  | default _ _ _ ih => exact ih
  | pair _ _ _ ih => exact ih

theorem target?_eq_some_iff : target? node = some place ↔ Assigns node place := by
  unfold target?
  constructor
  · intro htarget
    split at htarget
    · rename_i hkind
      exact .assignment (by simpa using hkind) htarget
    · split at htarget
      · rename_i hkind
        exact .update (by simpa using hkind) htarget
      · exact absurd htarget (by simp)
  · rintro (⟨hkind, hplace⟩ | ⟨hkind, hplace⟩)
    · rw [if_pos (by simpa using hkind), hplace]
    · rw [if_neg (by simp [hkind]), if_pos (by simp [hkind]), hplace]

theorem isWritten_eq_true_iff {name : String} :
    isWritten text name parent = true ↔
      ∃ node place leaf, Occurs text name parent node place leaf := by
  simp only [isWritten, namesIn, List.any_eq_true, Option.any_eq_true, Bool.and_eq_true,
    Bool.or_eq_true, beq_iff_eq, target?_eq_some_iff]
  constructor
  · rintro ⟨node, hnode, place, hplace, leaf, hleaf, hkind, hspelled⟩
    exact ⟨node, place, leaf, hnode, hplace, hleaf, by simpa using hkind, hspelled⟩
  · rintro ⟨node, place, leaf, hnode, hplace, hleaf, hkind, hspelled⟩
    exact ⟨node, hnode, place, hplace, leaf, hleaf, by simpa using hkind, hspelled⟩

/-- Whether a variable is spared. -/
def Binding.isSpared (text : Text) (binding : Binding) : Bool :=
  binding.around.head?.any fun parent => !isWritten text (text.of binding.name) parent

theorem Binding.isSpared_eq_true_iff {binding : Binding} :
    binding.isSpared text = true ↔ binding.IsSpared text := by
  simp only [Binding.isSpared, Binding.IsSpared, Option.any_eq_true, Bool.not_eq_true',
    ← Bool.not_eq_true, isWritten_eq_true_iff, not_exists]

theorem filterMap_boundName? (text : Text) (parent : Node) (around : List Node)
    (declarators : List Node) :
    (declarators.filterMap fun declarator =>
      if declarator.kind == "variable_declarator" && (declarator.child? "value").isSome then
        match declarator.child? "name" with
        | some name =>
          if name.kind == "identifier" && !isWritten text (text.of name) parent then
            some (Binding.complaint text ⟨parent :: around, declarator, name⟩)
          else none
        | none => none
      else none) =
    ((declarators.filterMap fun declarator =>
      (boundName? declarator).map (⟨parent :: around, declarator, ·⟩)).filter
        (·.isSpared text)).map (Binding.complaint text) := by
  rw [List.filter_filterMap, List.map_filterMap]
  congr 1
  funext declarator
  by_cases hgiven : declarator.kind = "variable_declarator" ∧
    (declarator.child? "value").isSome = true
  · cases hname : declarator.child? "name" with
    | none => simp [boundName?, hname]
    | some name =>
      by_cases hkind : name.kind = "identifier"
      · cases hwritten : isWritten text (text.of name) parent <;>
          simp [boundName?, hgiven, hname, hkind, Binding.isSpared, hwritten]
      · simp [boundName?, hgiven, hname, hkind]
  · have hnone : boundName? declarator = none := if_neg hgiven
    rw [if_neg (by simpa using hgiven), hnone]
    rfl

theorem neverReassigned_eq (text : Text) (declaration : Node) (around : List Node) :
    neverReassigned text declaration around =
      ((bindingsAt text declaration around).filter (·.isSpared text)).map
        (Binding.complaint text) := by
  have hlet : (declaration.kind == "lexical_declaration" &&
      declaration.children.head?.any fun word => text.of word == "let") = true ↔
      declaration.kind = "lexical_declaration" ∧
        declaration.children.head?.map text.of = some "let" := by
    simp [Option.any_eq_true, Option.map_eq_some_iff]
  cases around with
  | nil =>
    have hnone : (bindingsAt text declaration []).filter (·.isSpared text) = [] := by
      unfold bindingsAt
      split
      · rw [List.filter_filterMap, List.filterMap_eq_nil_iff]
        intro declarator _
        cases boundName? declarator <;> simp [Binding.isSpared]
      · rfl
    rw [hnone]
    rfl
  | cons parent around =>
    unfold neverReassigned bindingsAt
    dsimp only
    by_cases hcond : declaration.kind = "lexical_declaration" ∧
        declaration.children.head?.map text.of = some "let"
    · rw [hlet.mpr hcond, if_pos hcond, if_neg (by decide)]
      exact filterMap_boundName? text parent around declaration.namedChildren
    · rw [if_neg hcond, Bool.eq_false_iff.mpr (hlet.not.mpr hcond), if_pos (by decide)]
      rfl

/-- The rule reports the variables that are spared, in the order of the script. -/
theorem filter_lint_const (hread : tree.isBroken = false) (text : Text) (file : String) :
    (lint tree text file).filter (·.rule == "prefer-const") =
      ((bindings text tree).filter (·.isSpared text)).map fun binding =>
        (binding.complaint text).finding file := by
  rw [filter_lint hread, bindings, List.filter_flatMap, List.map_flatMap, List.map_flatMap]
  congr 1
  funext ⟨node, around⟩
  dsimp only
  have hrule : ((·.rule == "prefer-const") : Complaint → Bool) ∘ Binding.complaint text =
      fun _ => true := rfl
  rw [filter_complaint?_const, neverReassigned_eq, List.filter_map, hrule, List.filter_true,
    List.nil_append, List.map_map]
  rfl

/-- Every store to a variable that is spared is overlooked. -/
theorem Binding.IsSpared.overlooks {binding : Binding} {scope : Node}
    (hspared : binding.IsSpared text) (hscope : binding.scope? = some scope)
    (hnode : node ∈ scope.preorder) (hwrites : Writes text node leaf binding.name) :
    binding.Overlooks text node leaf := by
  obtain ⟨parent, hparent, hnone⟩ := hspared
  obtain ⟨⟨place, hstores, hleaf⟩, hmeant⟩ := hwrites
  cases hstores with
  | head hkind _ _ => exact .head hkind
  | assigns hassigns =>
    by_cases hbelow : node ∈ parent.preorder
    · by_cases hkind : leaf.kind = "undefined"
      · exact .undefined hkind
      have hspelled : text.of leaf ≠ text.of binding.name := by
        intro hspelled
        refine hnone node place leaf ⟨hbelow, hassigns, hleaf.mem_preorder, ?_, hspelled⟩
        have hstored := hleaf.kind_mem
        simpa [storedKinds, hkind] using hstored
      refine .escaped hspelled (by_contra fun hescape => hspelled ?_)
      obtain ⟨hplain, hname⟩ := not_or.mp hescape
      rw [Text.meant_of_not_mem hplain, Text.meant_of_not_mem hname] at hmeant
      exact String.toList_inj.mp hmeant
    · refine .elsewhere parent hparent (Bool.eq_false_iff.mpr fun hopens => hbelow ?_) hbelow
      -- A parent that opens a scope is the scope.
      have hown : binding.scope? = some parent := by
        obtain ⟨rest, haround⟩ := List.head?_eq_some_iff.mp hparent
        simp [scope?, haround, hopens]
      obtain rfl := Option.some.inj (hscope.symm.trans hown)
      exact hnode

theorem Binding.IsSpared.exists_scope {binding : Binding} (hspared : binding.IsSpared text) :
    ∃ scope, binding.scope? = some scope := by
  obtain ⟨parent, hparent, -⟩ := hspared
  have haround : binding.around ≠ [] := fun hnil => by simp [hnil] at hparent
  cases hfound : binding.around.find? opensScope with
  | some scope => exact ⟨scope, by rw [scope?, hfound]; rfl⟩
  | none => exact ⟨_, by rw [scope?, hfound]; exact List.getLast?_eq_some_getLast haround⟩

/-- The rule reports just the variables that are spared, in the order of the script; and
whatever stores to one of them in its scope is overlooked for one of four reasons. -/
theorem preferConst_overlooks (tree : Node) (text : Text) (file : String)
    (hread : tree.isBroken = false) :
    ∃ reported : List Binding, reported.Sublist (bindings text tree) ∧
      (lint tree text file).filter (·.rule == "prefer-const") =
        reported.map (fun binding => (binding.complaint text).finding file) ∧
      (∀ binding ∈ bindings text tree, binding ∈ reported ↔ binding.IsSpared text) ∧
      ∀ binding ∈ reported, ∃ scope, binding.scope? = some scope ∧
        ∀ node ∈ scope.preorder, ∀ leaf, Writes text node leaf binding.name →
          binding.Overlooks text node leaf := by
  refine ⟨_, List.filter_sublist, filter_lint_const hread text file, ?_, ?_⟩
  · intro binding hbinding
    rw [List.mem_filter, Binding.isSpared_eq_true_iff, and_iff_right hbinding]
  · intro binding hreported
    have hspared := Binding.isSpared_eq_true_iff.mp (List.mem_filter.mp hreported).2
    obtain ⟨scope, hscope⟩ := hspared.exists_scope
    exact ⟨scope, hscope, fun node hnode leaf hwrites => hspared.overlooks hscope hnode hwrites⟩

/-- A variable that is declared in one case of a switch and stored to in the next. -/
def switchScript : String :=
  "switch (a) \x7b case 1: let x = 1; break; case 2: x = 2; \x7d"

def tokenNode (kind : String) (label : Option String) (start stop : Nat) : Node :=
  .mk kind false label start stop 0 0 false false []

def switchDeclarator : Node :=
  plainNode "variable_declarator" none 25 30
    [plainNode "identifier" (some "name") 25 26 [], tokenNode "=" none 27 28,
      plainNode "number" (some "value") 29 30 []]

def switchDeclaration : Node :=
  plainNode "lexical_declaration" (some "body") 21 31
    [tokenNode "let" (some "kind") 21 24, switchDeclarator, tokenNode ";" none 30 31]

def switchFirst : Node :=
  plainNode "switch_case" none 13 38
    [tokenNode "case" none 13 17, plainNode "number" (some "value") 18 19 [],
      tokenNode ":" none 19 20, switchDeclaration,
      plainNode "break_statement" (some "body") 32 38
        [tokenNode "break" none 32 37, tokenNode ";" none 37 38]]

def switchTarget : Node :=
  plainNode "identifier" (some "left") 47 48 []

def switchAssignment : Node :=
  plainNode "assignment_expression" none 47 52
    [switchTarget, tokenNode "=" none 49 50, plainNode "number" (some "right") 51 52 []]

def switchSecond : Node :=
  plainNode "switch_case" none 39 53
    [tokenNode "case" none 39 43, plainNode "number" (some "value") 44 45 [],
      tokenNode ":" none 45 46,
      plainNode "expression_statement" (some "body") 47 53
        [switchAssignment, tokenNode ";" none 52 53]]

def switchBody : Node :=
  plainNode "switch_body" (some "body") 11 55
    [tokenNode "\x7b" none 11 12, switchFirst, switchSecond, tokenNode "\x7d" none 54 55]

def switchStatement : Node :=
  plainNode "switch_statement" none 0 55
    [tokenNode "switch" none 0 6,
      plainNode "parenthesized_expression" (some "value") 7 10
        [tokenNode "(" none 7 8, plainNode "identifier" none 8 9 [], tokenNode ")" none 9 10],
      switchBody]

def switchTree : Node :=
  plainNode "program" none 0 55 [switchStatement]

def switchBinding : Binding :=
  ⟨[switchFirst, switchBody, switchStatement, switchTree], switchDeclarator,
    plainNode "identifier" (some "name") 25 26 []⟩

theorem switchAssignment_writes :
    Writes (.ofString switchScript) switchAssignment switchTarget switchBinding.name where
  stores := ⟨switchTarget, .assigns (.assignment (by decide) rfl), .name (by decide)⟩
  meant := by decide +kernel

theorem preferConst_overlooks_switch :
    switchTree.isBroken = false ∧
    lint switchTree (.ofString switchScript) "app.js" =
      [(switchBinding.complaint (.ofString switchScript)).finding "app.js"] ∧
    switchBinding.scope? = some switchBody ∧ switchAssignment ∈ switchBody.preorder ∧
    Writes (.ofString switchScript) switchAssignment switchTarget switchBinding.name ∧
    switchBinding.Overlooks (.ofString switchScript) switchAssignment switchTarget := by
  obtain ⟨reported, -, -, hreported, hoverlooks⟩ :=
    preferConst_overlooks switchTree (.ofString switchScript) "app.js" rfl
  have hmem : switchBinding ∈ bindings (.ofString switchScript) switchTree :=
    List.mem_of_getElem? (i := 0) rfl
  have hspared : switchBinding.IsSpared (.ofString switchScript) :=
    Binding.isSpared_eq_true_iff.mp (by decide +kernel)
  have hinside : switchAssignment ∈ switchBody.preorder := List.mem_of_getElem? (i := 21) rfl
  obtain ⟨scope, hscope, hstores⟩ := hoverlooks _ ((hreported _ hmem).mpr hspared)
  obtain rfl : switchBody = scope := Option.some.inj hscope
  exact ⟨rfl, by decide +kernel, rfl, hinside, switchAssignment_writes,
    hstores _ hinside _ switchAssignment_writes⟩

end Deadwood.Script
