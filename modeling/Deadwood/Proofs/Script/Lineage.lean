/-
# Where the statements of functions lie

A node of a tree stands at the end of a line of nodes, each a child of the one above it.
Of two nodes of a tree either one stands in the line of the other, or their lines part at
two children of one node. So the stretches of any two nodes are nested or have nothing in
common.

The statements of two functions differ as well. A statement is the declaration of its
function or stands around it, as the parent that has no other such child; so where two
lines part, at most one of the two statements is above. And the name of the outer function
lies beside the list of statements that holds the inner one.
-/

import Deadwood.Proofs.Script.Declarations
import Deadwood.Proofs.Text.Splice
import Mathlib.Data.List.Chain

namespace Deadwood

open Deadwood.Grammar
open Deadwood.Text (slice?)

/-! ## Lines of nodes -/

namespace Grammar.Node

variable {tree node child inner outer parent : Node} {line above front back around : List Node}

/-- Two nodes have no byte in common. -/
def Apart (first second : Node) : Prop :=
  first.stop ≤ second.start ∨ second.stop ≤ first.start

instance (first second : Node) : Decidable (first.Apart second) :=
  inferInstanceAs (Decidable (_ ∨ _))

theorem Apart.symm {first second : Node} (hapart : first.Apart second) : second.Apart first :=
  Or.symm hapart

instance : Std.Symm Apart :=
  ⟨fun _ _ => Apart.symm⟩

/-- What lies within two nodes that are apart is apart too. -/
theorem Apart.mono {first second inner other : Node} (hapart : first.Apart second)
    (hinner : first.Encloses inner) (hother : second.Encloses other) : inner.Apart other := by
  unfold Apart Encloses at *
  omega

theorem Encloses.refl (node : Node) : node.Encloses node :=
  ⟨Nat.le_refl _, Nat.le_refl _⟩

namespace Line

theorem of_append (hline : Line tree (front ++ node :: above)) : Line tree (node :: above) := by
  induction front with
  | nil => exact hline
  | cons inner front ih =>
    cases front with
    | nil =>
      cases hline with
      | child hline _ => exact hline
    | cons next front =>
      cases hline with
      | child hline _ => exact ih hline

theorem mem_children (hline : Line tree (front ++ inner :: node :: above)) :
    inner ∈ node.children := by
  cases hline.of_append with
  | child _ hinner => exact hinner

theorem encloses (hline : Line tree (front ++ above)) (hnested : tree.IsNested)
    (hinner : inner ∈ front) (houter : outer ∈ above) : outer.Encloses inner :=
  (List.pairwise_append.mp (hline.pairwise hnested)).2.2 inner hinner outer houter

theorem encloses_self (hline : Line tree (front ++ node :: above)) (hnested : tree.IsNested)
    (hinner : inner ∈ front ++ [node]) : node.Encloses inner := by
  rcases List.mem_append.mp hinner with hinner | hinner
  · exact hline.encloses hnested hinner List.mem_cons_self
  · rw [List.mem_singleton.mp hinner]
    exact .refl node

/-- The node at the end of a line lies within all others. -/
theorem encloses_first (hline : Line tree (inner :: around)) (hnested : tree.IsNested)
    (hsame : inner :: around = front ++ node :: above) : node.Encloses inner := by
  rw [hsame] at hline
  refine hline.encloses_self hnested ?_
  cases front with
  | nil => simp [(List.cons.inj hsame).1]
  | cons first front => simp [(List.cons.inj hsame).1]

end Line

/-- Two nodes of a tree, told by their lines: the second is below the first, or they are
below two children of one node. -/
inductive Parted : List Node → List Node → Prop
  | below (front : List Node) (child parent : Node) (above : List Node) :
      Parted (parent :: above) (front ++ child :: parent :: above)
  | beside (front back : List Node) {first second parent : Node} (above : List Node)
      (hchildren : [first, second].Sublist parent.children) :
      Parted (front ++ first :: parent :: above) (back ++ second :: parent :: above)

mutual

theorem exists_of_mem_placed (tree : Node) {around : List Node}
    (hplaced : (node, above) ∈ tree.placed around) :
    ∃ front, node :: above = front ++ tree :: around := by
  match tree with
  | .mk kind named label start stop startLine stopLine missing broken children =>
    rcases List.mem_cons.mp hplaced with hself | hplaced
    · obtain ⟨rfl, rfl⟩ := Prod.mk.inj hself
      exact ⟨[], rfl⟩
    · obtain ⟨child, -, front, hline⟩ := exists_of_mem_placedAll children hplaced
      exact ⟨front ++ [child], by simpa using hline⟩

theorem exists_of_mem_placedAll (nodes : List Node) {around : List Node}
    (hplaced : (node, above) ∈ placedAll around nodes) :
    ∃ child ∈ nodes, ∃ front, node :: above = front ++ child :: around := by
  match nodes with
  | first :: rest =>
    rcases List.mem_append.mp hplaced with hplaced | hplaced
    · exact ⟨first, List.mem_cons_self, exists_of_mem_placed first hplaced⟩
    · obtain ⟨child, hchild, hline⟩ := exists_of_mem_placedAll rest hplaced
      exact ⟨child, List.mem_cons_of_mem _ hchild, hline⟩

end

mutual

/-- Any two places of a tree are parted. -/
theorem pairwise_placed (tree : Node) (around : List Node) :
    (tree.placed around).Pairwise fun first second =>
      Parted (first.1 :: first.2) (second.1 :: second.2) := by
  match tree with
  | .mk kind named label start stop startLine stopLine missing broken children =>
    refine List.pairwise_cons.mpr ⟨fun place hplace => ?_, ?_⟩
    · obtain ⟨child, -, front, hline⟩ := exists_of_mem_placedAll children hplace
      rw [hline]
      exact .below front child _ around
    · exact pairwise_placedAll children
        (.mk kind named label start stop startLine stopLine missing broken children) around
        (List.Sublist.refl _)

theorem pairwise_placedAll (nodes : List Node) (parent : Node) (around : List Node)
    (hnodes : nodes.Sublist parent.children) :
    (placedAll (parent :: around) nodes).Pairwise fun first second =>
      Parted (first.1 :: first.2) (second.1 :: second.2) := by
  match nodes with
  | [] => exact .nil
  | first :: rest =>
    refine List.pairwise_append.mpr ⟨pairwise_placed first _,
      pairwise_placedAll rest parent around ((List.sublist_cons_self _ _).trans hnodes), ?_⟩
    intro place hplace other hother
    obtain ⟨front, hline⟩ := exists_of_mem_placed first hplace
    obtain ⟨second, hsecond, back, hother⟩ := exists_of_mem_placedAll rest hother
    rw [hline, hother]
    refine .beside front back around (List.Sublist.trans ?_ hnodes)
    exact (List.singleton_sublist.mpr hsecond).cons_cons first

end

end Grammar.Node

/-! ## Stretches -/

namespace Span

/-- One stretch lies within another. -/
def Encloses (outer inner : Span) : Prop :=
  outer.start ≤ inner.start ∧ inner.stop ≤ outer.stop

/-- Two stretches have different ends, and are nested or have no byte in common. -/
structure Settled (first second : Span) : Prop where
  differ : ¬ (first.start = second.start ∧ first.stop = second.stop)
  nested : first.Encloses second ∨ second.Encloses first ∨
    first.stop ≤ second.start ∨ second.stop ≤ first.start

theorem Settled.symm {first second : Span} (hsettled : Settled first second) :
    Settled second first where
  differ hsame := hsettled.differ ⟨hsame.1.symm, hsame.2.symm⟩
  nested := by
    rcases hsettled.nested with hinner | houter | hbefore | hbehind
    · exact .inr (.inl hinner)
    · exact .inl houter
    · exact .inr (.inr (.inr hbefore))
    · exact .inr (.inr (.inl hbehind))

end Span

/-! ## Statements of functions -/

namespace Script

variable {tree node name own other child parent owner : Node}
  {around above front back below : List Node} {source : List Char}

/-- Nodes that declare something. -/
def declarationKinds : List String :=
  ["function_declaration", "generator_function_declaration", "class_declaration",
    "lexical_declaration", "variable_declaration"]

/-- What the grammar says of a tree without faults, read off a text. -/
structure IsTreeOf (source : List Char) (tree : Node) : Prop where
  /-- Children lie within their parents. -/
  nested : tree.IsNested
  /-- Two children of a node have no byte in common. -/
  apart : ∀ node ∈ tree.preorder, node.children.Pairwise Node.Apart
  /-- At most one declaration is under an export. -/
  exports : ∀ node ∈ tree.preorder, node.kind = "export_statement" →
    (node.children.filter fun child => declarationKinds.contains child.kind).length ≤ 1
  /-- Identifiers are words of the text. -/
  identifiers : ∀ node ∈ tree.preorder, node.kind = "identifier" →
    node.start < node.stop ∧ node.children = []
  /-- Declarators are more than punctuation. -/
  declarators : ∀ node ∈ tree.preorder, node.kind = "variable_declarator" → node.isNamed = true
  /-- All ends are places to cut in the text. -/
  cuts : ∀ node ∈ tree.preorder, (slice? source ⟨node.start, node.stop⟩).isSome = true

instance (tree : Node) : Decidable tree.IsNested :=
  inferInstanceAs (Decidable (∀ node ∈ tree.preorder, ∀ child ∈ node.children,
    node.start ≤ child.start ∧ child.stop ≤ node.stop))

instance (source : List Char) (tree : Node) : Decidable (IsTreeOf source tree) :=
  decidable_of_iff (tree.IsNested ∧
      (∀ node ∈ tree.preorder, node.children.Pairwise Node.Apart) ∧
      (∀ node ∈ tree.preorder, node.kind = "export_statement" →
        (node.children.filter fun child => declarationKinds.contains child.kind).length ≤ 1) ∧
      (∀ node ∈ tree.preorder, node.kind = "identifier" →
        node.start < node.stop ∧ node.children = []) ∧
      (∀ node ∈ tree.preorder, node.kind = "variable_declarator" → node.isNamed = true) ∧
      ∀ node ∈ tree.preorder, (slice? source ⟨node.start, node.stop⟩).isSome = true)
    ⟨fun ⟨hnested, hapart, hexports, hidentifiers, hdeclarators, hcuts⟩ =>
        ⟨hnested, hapart, hexports, hidentifiers, hdeclarators, hcuts⟩,
      fun h => ⟨h.nested, h.apart, h.exports, h.identifiers, h.declarators, h.cuts⟩⟩

/-- A child that is the only one of its kind: the declaration under an export, or the
variable of a declaration that declares no other. -/
def SoleChild (child parent : Node) : Prop :=
  (parent.kind = "export_statement" ∧ child.kind ∈ declarationKinds) ∨
    ((parent.kind = "lexical_declaration" ∨ parent.kind = "variable_declaration") ∧
      parent.namedChildren.length = 1 ∧ child.kind = "variable_declarator")

theorem kind_of_declaredName? (hname : declaredName? node = some name) :
    node.kind = "function_declaration" ∨ node.kind = "generator_function_declaration" ∨
      node.kind = "variable_declarator" := by
  unfold declaredName? at hname
  grind

/-- The statement that goes with a declaration: the export around it, if there is one. -/
def statement? (declaration : Node) : List Node → Option Node
  | [] => none
  | parent :: rest =>
    if parent.kind = "export_statement" then
      match rest with
      | [] => none
      | owner :: _ => if owner.kind ∈ statementLists then some parent else none
    else if parent.kind ∈ statementLists then some declaration else none

theorem removable?_of_ne (hkind : node.kind ≠ "variable_declarator") :
    removable? node around = statement? node around := by
  unfold removable? statement?
  rcases around with _ | ⟨parent, _ | ⟨owner, rest⟩⟩ <;> simp [hkind] <;> grind

theorem removable?_of_eq (hkind : node.kind = "variable_declarator") :
    removable? node (parent :: above) =
      if (parent.kind = "lexical_declaration" ∨ parent.kind = "variable_declaration") ∧
        parent.namedChildren.length = 1 then statement? parent above else none := by
  unfold removable? statement?
  rcases above with _ | ⟨parent, _ | ⟨owner, rest⟩⟩ <;> simp [hkind] <;> grind

theorem exists_of_statement? (hkind : node.kind ∈ declarationKinds)
    (hown : statement? node around = some own) :
    ∃ below owner above, node :: around = below ++ own :: owner :: above ∧
      owner.kind ∈ statementLists ∧ (below ++ [own]).IsChain SoleChild := by
  unfold statement? at hown
  split at hown
  · simp at hown
  · rename_i parent rest
    split at hown
    · rename_i hexport
      split at hown
      · simp at hown
      · rename_i owner above
        obtain ⟨howner, hsame⟩ := Option.ite_none_right_eq_some.mp hown
        obtain rfl := Option.some.inj hsame
        exact ⟨[node], owner, above, rfl, howner,
          List.isChain_pair.mpr (.inl ⟨hexport, hkind⟩)⟩
    · obtain ⟨howner, hsame⟩ := Option.ite_none_right_eq_some.mp hown
      obtain rfl := Option.some.inj hsame
      exact ⟨[], parent, rest, rfl, howner, List.isChain_singleton _⟩

/-- From a declaration to the statement that goes, each node is the only child of its kind;
and the statement stands in a list of statements. -/
theorem exists_of_removable? (hname : declaredName? node = some name)
    (hown : removable? node around = some own) :
    ∃ below owner above, node :: around = below ++ own :: owner :: above ∧
      owner.kind ∈ statementLists ∧ (below ++ [own]).IsChain SoleChild := by
  by_cases hkind : node.kind = "variable_declarator"
  · cases around with
    | nil => simp [removable?, hkind] at hown
    | cons parent around =>
      rw [removable?_of_eq hkind] at hown
      obtain ⟨⟨hparent, hsole⟩, hown⟩ := Option.ite_none_right_eq_some.mp hown
      have hlist : parent.kind ∈ declarationKinds := by
        rcases hparent with hparent | hparent <;> simp [hparent, declarationKinds]
      obtain ⟨below, owner, above, hline, howner, hchain⟩ := exists_of_statement? hlist hown
      refine ⟨node :: below, owner, above, congrArg (node :: ·) hline, howner, ?_⟩
      have hfirst : SoleChild node parent := .inr ⟨hparent, hsole, hkind⟩
      cases below with
      | nil =>
        obtain ⟨rfl, -⟩ := List.cons.inj hline
        exact List.isChain_pair.mpr hfirst
      | cons first below =>
        obtain ⟨rfl, -⟩ := List.cons.inj hline
        exact List.isChain_cons_cons.mpr ⟨hfirst, hchain⟩
  · rw [removable?_of_ne hkind] at hown
    refine exists_of_statement? ?_ hown
    rcases kind_of_declaredName? hname with hfunction | hfunction | hvariable
    · simp [hfunction, declarationKinds]
    · simp [hfunction, declarationKinds]
    · exact absurd hvariable hkind

/-- No two children of a node are each the only one of its kind. -/
theorem IsTreeOf.not_soleChild (htree : IsTreeOf source tree) (hparent : parent ∈ tree.preorder)
    (hchildren : [child, other].Sublist parent.children) (hchild : SoleChild child parent)
    (hother : SoleChild other parent) : False := by
  have hmem : ∀ inner ∈ [child, other], inner ∈ tree.preorder := fun inner hinner =>
    Node.child_mem_preorder tree hparent (hchildren.mem hinner)
  rcases hchild with ⟨hexport, hkind⟩ | ⟨hlist, hsole, hkind⟩
  · rcases hother with ⟨-, hkind'⟩ | ⟨hlist, -, -⟩
    · have htwo := (hchildren.filter fun child => declarationKinds.contains child.kind).length_le
      have hone := htree.exports parent hparent hexport
      rw [List.filter_cons_of_pos (by simpa using hkind),
        List.filter_cons_of_pos (by simpa using hkind')] at htwo
      exact absurd (Nat.le_trans htwo hone) (by simp)
    · rcases hlist with hlist | hlist <;> simp [hexport] at hlist
  · rcases hother with ⟨hexport, -⟩ | ⟨-, -, hkind'⟩
    · rcases hlist with hlist | hlist <;> simp [hexport] at hlist
    · have htwo := (hchildren.filter Node.isNamed).length_le
      have hnamed := htree.declarators child (hmem child (by simp)) hkind
      have hnamed' := htree.declarators other (hmem other (by simp)) hkind'
      unfold Node.namedChildren at hsole
      simp [hnamed, hnamed', hsole] at htwo

/-- Where a line has a child and its parent, a statement of the line is at the child or
below, or the child is the only one of its kind. -/
theorem mem_or_soleChild (hline : front ++ child :: parent :: above = below ++ own :: around)
    (hchain : (below ++ [own]).IsChain SoleChild) :
    own ∈ front ++ [child] ∨ own ∈ parent :: above ∧ SoleChild child parent := by
  rcases List.append_eq_append_iff.mp hline with ⟨more, rfl, hrest⟩ | ⟨more, rfl, hrest⟩
  · cases more with
    | nil =>
      obtain ⟨rfl, -⟩ := List.cons.inj hrest
      exact .inl (by simp)
    | cons first more =>
      obtain ⟨hfirst, hbehind⟩ : child = first ∧ parent :: above = more ++ own :: around := by
        simpa using hrest
      subst hfirst
      refine .inr ⟨by rw [hbehind]; simp, ?_⟩
      obtain ⟨last, hnext⟩ : ∃ last, more ++ [own] = parent :: last := by
        cases more with
        | nil => exact ⟨[], by rw [(List.cons.inj hbehind).1]; rfl⟩
        | cons second more => exact ⟨more ++ [own], by rw [(List.cons.inj hbehind).1]; rfl⟩
      rw [List.append_assoc, List.cons_append, hnext, List.isChain_append_cons_cons] at hchain
      exact hchain.2.1
  · cases more with
    | nil =>
      obtain ⟨rfl, -⟩ := List.cons.inj hrest
      exact .inl (by simp)
    | cons first more =>
      obtain ⟨rfl, -⟩ := List.cons.inj hrest
      exact .inl (by simp)

/-- A function of a tree: where it is declared, its name, and the statement that goes. -/
structure Declares (tree node : Node) (around : List Node) (name own : Node) : Prop where
  line : tree.Line (node :: around)
  name : declaredName? node = some name
  own : removable? node around = some own

namespace Declares

variable {node' name' own' first second : Node} {around' : List Node}

theorem encloses_node (hfunction : Declares tree node around name own)
    (htree : IsTreeOf source tree) : own.Encloses node := by
  rcases mem_of_removable? hfunction.own with rfl | hmem
  · exact .refl own
  · exact List.rel_of_pairwise_cons (hfunction.line.pairwise htree.nested) hmem

/-- The name of a function has bytes, all of them in its declaration and its statement. -/
theorem encloses (hfunction : Declares tree node around name own) (htree : IsTreeOf source tree) :
    node.Encloses name ∧ own.Encloses name ∧ name.start < name.stop ∧ name.children = [] := by
  obtain ⟨hchild, hkind⟩ := mem_children_of_declaredName? hfunction.name
  have hnode := hfunction.line.mem_preorder node List.mem_cons_self
  have hwithin := htree.nested node hnode name hchild
  exact ⟨hwithin, (hfunction.encloses_node htree).trans hwithin,
    htree.identifiers name (Node.child_mem_preorder tree hnode hchild) hkind⟩

/-- A statement without a byte of another function's name is not the statement of that
function. -/
theorem differ (hfunction : Declares tree node around name own) (htree : IsTreeOf source tree)
    (hapart : name.Apart other) : ¬ (own.start = other.start ∧ own.stop = other.stop) := by
  obtain ⟨-, hwithin, hbytes, -⟩ := hfunction.encloses htree
  unfold Node.Apart Node.Encloses at *
  omega

/-- Below the declaration of a function, the statement of another one stands in a list of
statements that is below that declaration too. -/
theorem exists_list_below (hfunction : Declares tree node around name own)
    (hinner : Declares tree node' around' name' own')
    (hline : node' :: around' = front ++ child :: node :: around) :
    ∃ below owner more, front ++ [child] = below ++ own' :: owner :: more := by
  obtain ⟨below, owner, above, hsplit, howner, hchain⟩ :=
    exists_of_removable? hinner.name hinner.own
  have hkind := kind_of_declaredName? hfunction.name
  have hlist : node.kind ∉ statementLists := by
    rcases hkind with hkind | hkind | hkind <;> simp [hkind, statementLists]
  have hsame : (front ++ [child]) ++ node :: around = (below ++ [own']) ++ owner :: above := by
    rw [List.append_assoc, List.append_assoc, List.singleton_append, List.singleton_append,
      ← hline, hsplit]
  rcases List.append_eq_append_iff.mp hsame with ⟨more, hbelow, hrest⟩ | ⟨more, hfront, hrest⟩
  · cases more with
    | nil =>
      obtain ⟨rfl, -⟩ := List.cons.inj hrest
      exact absurd howner hlist
    | cons next more =>
      -- The outer declaration would be part of the statement, as the parent of a sole child.
      obtain ⟨rfl, -⟩ := List.cons.inj hrest
      rw [hbelow, List.append_assoc, List.singleton_append, List.isChain_append_cons_cons] at hchain
      rcases hchain.2.1 with ⟨hexport, -⟩ | ⟨hdeclaration, -, -⟩
      · rcases hkind with hkind | hkind | hkind <;> simp [hkind] at hexport
      · rcases hkind with hkind | hkind | hkind <;> simp [hkind] at hdeclaration
  · cases more with
    | nil =>
      obtain ⟨rfl, -⟩ := List.cons.inj hrest
      exact absurd howner hlist
    | cons next more =>
      obtain ⟨rfl, -⟩ := List.cons.inj hrest
      exact ⟨below, owner, more, by simpa using hfront⟩

/-- A function that is declared below another one is declared beside its name, and so is
its whole statement. -/
theorem encloses_below (hfunction : Declares tree node around name own)
    (hinner : Declares tree node' around' name' own') (htree : IsTreeOf source tree)
    (hline : node' :: around' = front ++ child :: node :: around) :
    node.Encloses own' ∧ name.Apart own' := by
  obtain ⟨below, owner, more, hfront⟩ := hfunction.exists_list_below hinner hline
  have hplace : tree.Line (front ++ child :: node :: around) := hline ▸ hinner.line
  have hchild : child ∈ node.children := hplace.mem_children
  have hnode := hfunction.line.mem_preorder node List.mem_cons_self
  have hwithin : child.Encloses own' := hplace.encloses_self htree.nested (by rw [hfront]; simp)
  have hother : child ≠ name := by
    -- The child has a child of its own, and a name has none.
    rintro rfl
    obtain ⟨last, deeper, rfl⟩ : ∃ last deeper, front = last ++ [deeper] := by
      rcases List.eq_nil_or_concat front with rfl | hlast
      · have hlength := congrArg List.length hfront
        simp only [List.nil_append, List.length_append, List.length_cons, List.length_nil]
          at hlength
        omega
      · simpa using hlast
    rw [List.append_assoc, List.singleton_append] at hplace
    have hdeeper := hplace.mem_children
    rw [(hfunction.encloses htree).2.2.2] at hdeeper
    exact absurd hdeeper (by simp)
  have hapart : child.Apart name := (htree.apart node hnode).forall hchild
    (mem_children_of_declaredName? hfunction.name).1 hother
  exact ⟨(htree.nested node hnode child hchild).trans hwithin,
    hapart.symm.mono (.refl name) hwithin⟩

/-- Of functions that are declared below two children of one node, at most one has its
statement above these. -/
theorem settled_beside (hfunction : Declares tree node around name own)
    (hother : Declares tree node' around' name' own') (htree : IsTreeOf source tree)
    (hline : node :: around = front ++ first :: parent :: above)
    (hline' : node' :: around' = back ++ second :: parent :: above)
    (hchildren : [first, second].Sublist parent.children) :
    (spanOf own).Settled (spanOf own') := by
  obtain ⟨below, owner, rest, hsplit, -, hchain⟩ :=
    exists_of_removable? hfunction.name hfunction.own
  obtain ⟨below', owner', rest', hsplit', -, hchain'⟩ := exists_of_removable? hother.name hother.own
  have hplace : tree.Line (front ++ first :: parent :: above) := hline ▸ hfunction.line
  have hplace' : tree.Line (back ++ second :: parent :: above) := hline' ▸ hother.line
  have hparent : parent ∈ tree.preorder := hplace.mem_preorder parent (by simp)
  have hapart : first.Apart second :=
    List.rel_of_pairwise_cons ((htree.apart parent hparent).sublist hchildren) (by simp)
  have hname : first.Encloses name :=
    (hfunction.line.encloses_first htree.nested hline).trans (hfunction.encloses htree).1
  have hname' : second.Encloses name' :=
    (hother.line.encloses_first htree.nested hline').trans (hother.encloses htree).1
  rcases mem_or_soleChild (hline ▸ hsplit) hchain with hown | ⟨hown, hsole⟩
  · have hinner : first.Encloses own := hplace.encloses_self htree.nested hown
    refine Span.Settled.symm ⟨hother.differ htree (hapart.symm.mono hname' hinner), ?_⟩
    rcases mem_or_soleChild (hline' ▸ hsplit') hchain' with hown' | ⟨hown', -⟩
    · exact .inr (.inr (hapart.symm.mono (hplace'.encloses_self htree.nested hown') hinner))
    · rw [List.append_cons] at hplace
      exact .inl (hplace.encloses htree.nested hown hown')
  · rcases mem_or_soleChild (hline' ▸ hsplit') hchain' with hown' | ⟨-, hsole'⟩
    · have hinner : second.Encloses own' := hplace'.encloses_self htree.nested hown'
      rw [List.append_cons] at hplace'
      exact ⟨hfunction.differ htree (hapart.mono hname hinner),
        .inl (hplace'.encloses htree.nested hown' hown)⟩
    · exact (htree.not_soleChild hparent hchildren hsole hsole').elim

/-- The statements of two functions have different ends, and are nested or apart. -/
theorem settled (hfunction : Declares tree node around name own)
    (hother : Declares tree node' around' name' own') (htree : IsTreeOf source tree)
    (hparted : Node.Parted (node :: around) (node' :: around')) :
    (spanOf own).Settled (spanOf own') := by
  generalize hline : node :: around = line at hparted
  generalize hline' : node' :: around' = line' at hparted
  cases hparted with
  | below front child parent above =>
    obtain ⟨rfl, rfl⟩ := List.cons.inj hline
    obtain ⟨hinner, hapart⟩ := hfunction.encloses_below hother htree hline'
    exact ⟨hfunction.differ htree hapart, .inl ((hfunction.encloses_node htree).trans hinner)⟩
  | beside front back above hchildren =>
    exact hfunction.settled_beside hother htree hline hline' hchildren

end Declares

end Script

end Deadwood
