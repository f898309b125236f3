/-
# Functions that could be arrow functions

A function that is passed to a call could be an arrow function if it uses nothing that an
arrow function has not. The rule that says so looks at the body of the function and at names
as they are spelled. So in the body of a function that it reports such a use stands under a
shorthand or an escape or names an element, and in the parameters it may stand anywhere.
-/

import Deadwood.Proofs.Script.Reassigned

namespace Deadwood.Script

open Deadwood.Grammar

variable {tree node function : Node} {around : List Node} {text : Text}

/-! ## Uses and how they look -/

/-- What is reported of a function that could be an arrow function. -/
def callbackComplaint (function : Node) : Complaint :=
  ⟨function.startLine + 1, "prefer-arrow-callback", .warning, "Unexpected function expression."⟩

/-- A function stands among the arguments of a call. -/
inductive IsArgument (function : Node) : List Node → Prop
  | intro {list call : Node} {around : List Node} (hkind : function.kind = "function_expression")
      (hlist : list.kind = "arguments") (hcall : call.kind = "call_expression")
      (hfunction : function ∈ list.children) (hinside : list ∈ call.children) :
      IsArgument function (list :: call :: around)

/-- Nodes that are names of variables where they are used. -/
def usedKinds : List String :=
  "undefined" :: mentionKinds

/-- A node uses what an arrow function has not. -/
inductive Needs (text : Text) (function node : Node) : Prop
  | this (hkind : node.kind = "this")
  /-- In the name of an element, as in `<this.Row/>`, the word is an identifier. -/
  | element (hkind : node.kind = "identifier") (hspelled : text.of node = "this")
  | super (hkind : node.kind = "super")
  | target (hkind : node.kind = "meta_property")
      (hword : node.children.head?.map text.of = some "new")
  | arguments (hkind : node.kind ∈ usedKinds) (hmeant : text.meant node = "arguments".toList)
  | ownName (name : Node) (hname : function.child? "name" = some name)
      (hkind : node.kind ∈ usedKinds) (hmeant : text.meant node = text.meant name)

/-- A node looks as if it used what an arrow function has not. -/
inductive Shows (text : Text) (function node : Node) : Prop
  | mark (hkind : node.kind ∈ ["this", "super", "meta_property"])
  | arguments (hkind : node.kind = "identifier") (hspelled : text.of node = "arguments")
  | ownName (name : Node) (hname : function.child? "name" = some name)
      (hkind : node.kind = "identifier") (hspelled : text.of node = text.of name)

/-- A function is plain if it is passed to a call and nothing in its body looks so. -/
structure IsPlain (text : Text) (function : Node) (around : List Node) : Prop where
  argument : IsArgument function around
  body : ∃ body, function.child? "body" = some body ∧
    ∀ node ∈ body.preorder, ¬ Shows text function node

/-- Why a use of what an arrow function has not is not seen. -/
inductive Misses (text : Text) (function node : Node) : Prop
  | parameter (parameters : Node) (hparameters : function.child? "parameters" = some parameters)
      (hnode : node ∈ parameters.preorder)
  | shorthand (hkind : node.kind ∈
      ["undefined", "shorthand_property_identifier", "shorthand_property_identifier_pattern"])
  | escaped (hkind : node.kind = "identifier")
      (hescape : '\\' ∈ (text.of node).toList ∨
        ∃ name, function.child? "name" = some name ∧ '\\' ∈ (text.of name).toList)
  | element (hkind : node.kind = "identifier") (hspelled : text.of node = "this")

/-! ## What the rule sees -/

theorem isArgument_of_mem_placed {list call : Node}
    (hplaced : (function, list :: call :: around) ∈ tree.placed [])
    (hkind : function.kind = "function_expression") (hlist : list.kind = "arguments")
    (hcall : call.kind = "call_expression") : IsArgument function (list :: call :: around) := by
  cases Node.line_of_mem_placed tree .root hplaced with
  | child hline hfunction =>
    cases hline with
    | child _ hinside => exact ⟨hkind, hlist, hcall, hfunction, hinside⟩

theorem shows_iff : Shows text function node ↔
    (node.kind == "this" || node.kind == "super" || node.kind == "meta_property" ||
      (node.kind == "identifier" && (text.of node == "arguments" ||
        (function.child? "name").map text.of == some (text.of node)))) = true := by
  simp only [Bool.or_eq_true, Bool.and_eq_true, beq_iff_eq, Option.map_eq_some_iff]
  constructor
  · rintro (hkind | ⟨hkind, hspelled⟩ | ⟨name, hname, hkind, hspelled⟩)
    · exact .inl (by simpa [or_assoc] using hkind)
    · exact .inr ⟨hkind, .inl hspelled⟩
    · exact .inr ⟨hkind, .inr ⟨name, hname, hspelled.symm⟩⟩
  · rintro (hkind | ⟨hkind, hspelled | ⟨name, hname, hspelled⟩⟩)
    · exact .mark (by simpa [or_assoc] using hkind)
    · exact .arguments hkind hspelled
    · exact .ownName name hname hkind hspelled.symm

theorem isPlain_iff (hplaced : (function, around) ∈ tree.placed []) :
    IsPlain text function around ↔
      function.kind = "function_expression" ∧ isPlainCallback text function around = true := by
  constructor
  · rintro ⟨⟨hkind, hlist, hcall, -, -⟩, body, hbody, hnone⟩
    refine ⟨hkind, ?_⟩
    simp only [shows_iff, ← List.any_eq_false] at hnone
    simp [isPlainCallback, hlist, hcall, hbody, hnone]
  · rintro ⟨hkind, hplain⟩
    obtain ⟨list, call, rest, rfl⟩ : ∃ list call rest, around = list :: call :: rest := by
      match around with
      | [] => simp [isPlainCallback] at hplain
      | [_] => simp [isPlainCallback] at hplain
      | list :: call :: rest => exact ⟨list, call, rest, rfl⟩
    cases hbody : function.child? "body" with
    | none => simp [isPlainCallback, hbody] at hplain
    | some body =>
      simp only [isPlainCallback, hbody, Bool.and_eq_true, beq_iff_eq, Bool.not_eq_true',
        List.any_eq_false, ← shows_iff] at hplain
      obtain ⟨⟨hlist, hcall⟩, hnone⟩ := hplain
      exact ⟨isArgument_of_mem_placed hplaced hkind hlist hcall, body, hbody, hnone⟩

theorem filter_complaint?_callback (text : Text) (node : Node) (around : List Node) :
    (complaint? text node around).toList.filter (·.rule == "prefer-arrow-callback") =
      if node.kind == "function_expression" && isPlainCallback text node around then
        [callbackComplaint node]
      else [] := by
  unfold complaint?
  split
  · simp [*]
  · simp [*]
  · cases node.child? "operator" with
    | none => simp [*]
    | some operator =>
      dsimp only [Option.bind]
      split <;> simp [*]
  · cases node.child? "constructor" with
    | none => simp [*]
    | some constructor =>
      dsimp only [Option.bind]
      split <;> simp [*]
  · split <;> simp [*, callbackComplaint]
  · rename_i hkind
    have hother : (node.kind == "function_expression") = false := beq_eq_false_iff_ne.mpr hkind
    simp [hother]

theorem flatMap_ite_singleton {α β : Type} (p : α → Bool) (f : α → β) (list : List α) :
    (list.flatMap fun a => if p a then [f a] else []) = (list.filter p).map f := by
  induction list with
  | nil => rfl
  | cons a list ih =>
    rw [List.flatMap_cons, ih, List.filter_cons]
    cases p a <;> rfl

/-- The rule reports the functions that are plain, in the order of the script. -/
theorem filter_lint_callback (hread : tree.isBroken = false) (text : Text) (file : String) :
    (lint tree text file).filter (·.rule == "prefer-arrow-callback") =
      ((tree.placed []).filter fun place =>
        place.1.kind == "function_expression" && isPlainCallback text place.1 place.2).map
        fun place => (callbackComplaint place.1).finding file := by
  have hnone : ∀ node around,
      (neverReassigned text node around).filter (·.rule == "prefer-arrow-callback") = [] := by
    intro node around
    have hrule : ((·.rule == "prefer-arrow-callback") : Complaint → Bool) ∘
        Binding.complaint text = fun _ => false := rfl
    rw [neverReassigned_eq, List.filter_map, hrule, List.filter_false, List.map_nil]
  rw [filter_lint hread]
  simp only [filter_complaint?_callback, hnone, List.append_nil]
  rw [flatMap_ite_singleton (fun place : Node × List Node =>
    place.1.kind == "function_expression" && isPlainCallback text place.1 place.2), List.map_map]
  rfl

/-- A use by name is missed, unless it is an identifier that is spelled as it is meant. -/
theorem misses_or_spelled {name : List Char} (hkind : node.kind ∈ usedKinds)
    (hmeant : text.meant node = name) :
    Misses text function node ∨ node.kind = "identifier" ∧ (text.of node).toList = name := by
  by_cases hidentifier : node.kind = "identifier"
  · by_cases hescape : '\\' ∈ (text.of node).toList
    · exact .inl (.escaped hidentifier (.inl hescape))
    · exact .inr ⟨hidentifier, (Text.meant_of_not_mem hescape).symm.trans hmeant⟩
  · exact .inl (.shorthand (by simpa [usedKinds, mentionKinds, hidentifier] using hkind))

/-- In its body a plain function uses what an arrow function has not only under a name that
is not looked at or not recognized. -/
theorem IsPlain.misses (hplain : IsPlain text function around) {body : Node}
    (hbody : function.child? "body" = some body) (hnode : node ∈ body.preorder)
    (hneeds : Needs text function node) : Misses text function node := by
  obtain ⟨-, body', hbody', hnone⟩ := hplain
  obtain rfl := Option.some.inj (hbody'.symm.trans hbody)
  have hshows := hnone node hnode
  cases hneeds with
  | this hkind => exact absurd (.mark (by simp [hkind])) hshows
  | element hkind hspelled => exact .element hkind hspelled
  | super hkind => exact absurd (.mark (by simp [hkind])) hshows
  | target hkind _ => exact absurd (.mark (by simp [hkind])) hshows
  | arguments hkind hmeant =>
    refine (misses_or_spelled hkind hmeant).resolve_right ?_
    rintro ⟨hidentifier, hspelled⟩
    exact hshows (.arguments hidentifier (String.toList_inj.mp hspelled))
  | ownName name hname hkind hmeant =>
    obtain hmisses | ⟨hidentifier, hspelled⟩ := misses_or_spelled hkind hmeant
    · exact hmisses
    by_cases hescape : '\\' ∈ (text.of name).toList
    · exact .escaped hidentifier (.inr ⟨name, hname, hescape⟩)
    · rw [Text.meant_of_not_mem hescape] at hspelled
      exact absurd (.ownName name hname hidentifier (String.toList_inj.mp hspelled)) hshows

/-- The rule reports just the functions that are plain, in the order of the script. All of
them are arguments of calls; and what one of them uses in its parameters or in its body that
an arrow function has not is missed for one of four reasons. -/
theorem preferArrow_misses (tree : Node) (text : Text) (file : String)
    (hread : tree.isBroken = false) :
    ∃ reported : List (Node × List Node), reported.Sublist (tree.placed []) ∧
      (lint tree text file).filter (·.rule == "prefer-arrow-callback") =
        reported.map (fun place => (callbackComplaint place.1).finding file) ∧
      (∀ function around, (function, around) ∈ tree.placed [] →
        ((function, around) ∈ reported ↔ IsPlain text function around)) ∧
      ∀ function around, (function, around) ∈ reported → IsArgument function around ∧
        ∀ part, function.child? "parameters" = some part ∨ function.child? "body" = some part →
          ∀ node ∈ part.preorder, Needs text function node → Misses text function node := by
  have hreported : ∀ function around, (function, around) ∈ tree.placed [] →
      ((function, around) ∈ (tree.placed []).filter (fun place =>
        place.1.kind == "function_expression" && isPlainCallback text place.1 place.2) ↔
        IsPlain text function around) := by
    intro function around hplaced
    rw [List.mem_filter, and_iff_right hplaced, Bool.and_eq_true, beq_iff_eq, isPlain_iff hplaced]
  refine ⟨_, List.filter_sublist, filter_lint_callback hread text file, hreported, ?_⟩
  intro function around hmem
  have hplain := (hreported function around (List.mem_filter.mp hmem).1).mp hmem
  refine ⟨hplain.argument, ?_⟩
  rintro part (hparameters | hbody) node hnode hneeds
  · exact .parameter part hparameters hnode
  · exact hplain.misses hbody hnode hneeds

/-- A function that uses `this` in its parameters. -/
def defaultScript : String :=
  "run(function (a = this) \x7b return a; \x7d);"

def defaultValue : Node :=
  plainNode "this" (some "right") 18 22 []

def defaultParameters : Node :=
  plainNode "formal_parameters" (some "parameters") 13 23
    [tokenNode "(" none 13 14,
      plainNode "assignment_pattern" none 14 22
        [plainNode "identifier" (some "left") 14 15 [], tokenNode "=" none 16 17, defaultValue],
      tokenNode ")" none 22 23]

def defaultFunction : Node :=
  plainNode "function_expression" none 4 37
    [tokenNode "function" none 4 12, defaultParameters,
      plainNode "statement_block" (some "body") 24 37
        [tokenNode "\x7b" none 24 25,
          plainNode "return_statement" none 26 35
            [tokenNode "return" none 26 32, plainNode "identifier" none 33 34 [],
              tokenNode ";" none 34 35],
          tokenNode "\x7d" none 36 37]]

def defaultArguments : Node :=
  plainNode "arguments" (some "arguments") 3 38
    [tokenNode "(" none 3 4, defaultFunction, tokenNode ")" none 37 38]

def defaultCall : Node :=
  plainNode "call_expression" none 0 38
    [plainNode "identifier" (some "function") 0 3 [], defaultArguments]

def defaultStatement : Node :=
  plainNode "expression_statement" none 0 39 [defaultCall, tokenNode ";" none 38 39]

def defaultTree : Node :=
  plainNode "program" none 0 39 [defaultStatement]

theorem preferArrow_misses_default :
    defaultTree.isBroken = false ∧
    lint defaultTree (.ofString defaultScript) "app.js" =
      [(callbackComplaint defaultFunction).finding "app.js"] ∧
    IsArgument defaultFunction [defaultArguments, defaultCall, defaultStatement, defaultTree] ∧
    defaultFunction.child? "parameters" = some defaultParameters ∧
    defaultValue ∈ defaultParameters.preorder ∧
    Needs (.ofString defaultScript) defaultFunction defaultValue ∧
    Misses (.ofString defaultScript) defaultFunction defaultValue := by
  obtain ⟨reported, -, -, hreported, hmisses⟩ :=
    preferArrow_misses defaultTree (.ofString defaultScript) "app.js" rfl
  have hplaced : (defaultFunction,
      [defaultArguments, defaultCall, defaultStatement, defaultTree]) ∈ defaultTree.placed [] :=
    List.mem_of_getElem? (i := 6) rfl
  have hplain : IsPlain (.ofString defaultScript) defaultFunction
      [defaultArguments, defaultCall, defaultStatement, defaultTree] :=
    (isPlain_iff hplaced).mpr ⟨rfl, by decide +kernel⟩
  obtain ⟨hargument, huses⟩ := hmisses _ _ ((hreported _ _ hplaced).mpr hplain)
  have hinside : defaultValue ∈ defaultParameters.preorder := List.mem_of_getElem? (i := 5) rfl
  exact ⟨rfl, by decide +kernel, hargument, rfl, hinside, .this rfl,
    huses _ (.inl rfl) _ hinside (.this rfl)⟩

end Deadwood.Script
