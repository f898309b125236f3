/-
# Where functions are declared

A function is recorded with its name and with the statement that would go. Where the
tree of a script keeps to its text, the name stands in that statement as a whole word;
and it still does in every text that reads alike from the byte before the statement to
the byte behind it.
-/

import Deadwood.Proofs.Verdict
import Deadwood.Script.Facts

namespace Deadwood

open Deadwood.Grammar
open Deadwood.Verdict (IsWordAt bytesOf isWordByte)

theorem fromUTF8?_toUTF8 (text : String) : String.fromUTF8? text.toUTF8 = some text := by
  rw [String.fromUTF8?]
  exact dif_pos text.isValidUTF8

/-! ## Trees -/

namespace Grammar.Node

variable {tree node child : Node} {line above : List Node}

/-- One node lies within the stretch of another. -/
def Encloses (outer inner : Node) : Prop :=
  outer.start ≤ inner.start ∧ inner.stop ≤ outer.stop

instance (outer inner : Node) : Decidable (outer.Encloses inner) :=
  inferInstanceAs (Decidable (_ ∧ _))

theorem Encloses.trans {outer between inner : Node} (houter : outer.Encloses between)
    (hinner : between.Encloses inner) : outer.Encloses inner :=
  ⟨Nat.le_trans houter.1 hinner.1, Nat.le_trans hinner.2 houter.2⟩

theorem mem_preorder_self (tree : Node) : tree ∈ tree.preorder := by
  cases tree
  exact List.mem_cons_self

theorem mem_preorderAll {nodes : List Node} (hnode : node ∈ nodes) : node ∈ preorderAll nodes := by
  induction nodes with
  | nil => simp at hnode
  | cons first rest ih =>
    rcases List.mem_cons.mp hnode with rfl | hnode
    · exact List.mem_append_left _ (mem_preorder_self node)
    · exact List.mem_append_right _ (ih hnode)

mutual

theorem child_mem_preorder (tree : Node) (hnode : node ∈ tree.preorder)
    (hchild : child ∈ node.children) : child ∈ tree.preorder := by
  match tree with
  | .mk kind named label start stop startLine stopLine missing broken children =>
    rcases List.mem_cons.mp hnode with rfl | hnode
    · exact List.mem_cons_of_mem _ (mem_preorderAll hchild)
    · exact List.mem_cons_of_mem _ (child_mem_preorderAll children hnode hchild)

theorem child_mem_preorderAll (nodes : List Node) (hnode : node ∈ preorderAll nodes)
    (hchild : child ∈ node.children) : child ∈ preorderAll nodes := by
  match nodes with
  | first :: rest =>
    rcases List.mem_append.mp hnode with hnode | hnode
    · exact List.mem_append_left _ (child_mem_preorder first hnode hchild)
    · exact List.mem_append_right _ (child_mem_preorderAll rest hnode hchild)

end

/-- Children lie within the stretches of their parents. -/
def IsNested (tree : Node) : Prop :=
  ∀ node ∈ tree.preorder, ∀ child ∈ node.children, node.Encloses child

/-- A node of a tree and the nodes above it, innermost first. -/
inductive Line (tree : Node) : List Node → Prop
  | root : Line tree [tree]
  | child {node inner : Node} {above : List Node} (hline : Line tree (node :: above))
      (hinner : inner ∈ node.children) : Line tree (inner :: node :: above)

theorem Line.mem_preorder (hline : Line tree line) : ∀ node ∈ line, node ∈ tree.preorder := by
  induction hline with
  | root => simpa using mem_preorder_self tree
  | @child node inner above hline hinner ih =>
    intro other hother
    rcases List.mem_cons.mp hother with rfl | hother
    · exact child_mem_preorder tree (ih node List.mem_cons_self) hinner
    · exact ih other hother

/-- The nodes above a node lie around it. -/
theorem Line.pairwise (hline : Line tree line) (hnested : tree.IsNested) :
    line.Pairwise fun inner outer => outer.Encloses inner := by
  induction hline with
  | root => exact List.pairwise_singleton _ _
  | @child node inner above hline hinner ih =>
    have hwithin := hnested node (hline.mem_preorder node List.mem_cons_self) inner hinner
    refine List.pairwise_cons.mpr ⟨fun outer houter => ?_, ih⟩
    rcases List.mem_cons.mp houter with rfl | houter
    · exact hwithin
    · exact ((List.pairwise_cons.mp ih).1 outer houter).trans hwithin

mutual

theorem line_of_mem_placed (part : Node) {around : List Node} (hpart : Line tree (part :: around))
    (hplaced : (node, above) ∈ part.placed around) : Line tree (node :: above) := by
  match part with
  | .mk kind named label start stop startLine stopLine missing broken children =>
    rcases List.mem_cons.mp hplaced with hself | hplaced
    · obtain ⟨rfl, rfl⟩ := Prod.mk.inj hself
      exact hpart
    · exact line_of_mem_placedAll children (fun child hchild => hpart.child hchild) hplaced

theorem line_of_mem_placedAll (nodes : List Node) {around : List Node}
    (hnodes : ∀ child ∈ nodes, Line tree (child :: around))
    (hplaced : (node, above) ∈ placedAll around nodes) : Line tree (node :: above) := by
  match nodes with
  | first :: rest =>
    rcases List.mem_append.mp hplaced with hplaced | hplaced
    · exact line_of_mem_placed first (hnodes first List.mem_cons_self) hplaced
    · exact line_of_mem_placedAll rest
        (fun child hchild => hnodes child (List.mem_cons_of_mem _ hchild)) hplaced

end

end Grammar.Node

/-! ## Declarations -/

namespace Script

variable {tree node name own : Node} {around : List Node} {source text file : String}
  {function : Symbol} {span : Span}

/-- A tree keeps to a text: children lie within their parents, and every identifier is
a whole word of the text. -/
structure KeepsTo (tree : Node) (source : String) : Prop where
  nested : tree.IsNested
  word : ∀ node ∈ tree.preorder, node.kind = "identifier" → ∃ word : String,
    node.stop = node.start + (bytesOf word).length ∧
      IsWordAt (bytesOf word) (bytesOf source) node.start

theorem mem_children_of_declaredName? (hname : declaredName? node = some name) :
    name ∈ node.children ∧ name.kind = "identifier" := by
  have hfound : (node.child? "name").filter (·.kind == "identifier") = some name := by
    unfold declaredName? at hname
    grind
  obtain ⟨hchild, hkind⟩ := Option.filter_eq_some_iff.mp hfound
  exact ⟨List.mem_of_find?_eq_some hchild, by simpa using hkind⟩

/-- The statement that goes is the declaration itself or stands around it. -/
theorem mem_of_removable? (hown : removable? node around = some own) :
    own = node ∨ own ∈ around := by
  unfold removable? at hown
  grind

/-- The functions of a script that can be read are those that a node declares and that
would go with a statement. They have the name from the node and the stretch of the
statement. -/
theorem mem_functions_iff {text : Text} :
    function ∈ (factsOf tree text file).functions ↔ tree.isBroken = false ∧
      ∃ node around name own, (node, around) ∈ tree.placed [] ∧ declaredName? node = some name ∧
        removable? node around = some own ∧
        function = .ofFunction (text.of name) file (spanOf own) := by
  cases hbroken : tree.isBroken with
  | true => simp [factsOf, hbroken]
  | false =>
    simp only [factsOf, hbroken, Bool.false_eq_true, if_false, List.mem_mergeSort,
      List.mem_filterMap, Option.map_eq_some_iff, true_and]
    constructor
    · rintro ⟨-, ⟨⟨node, around⟩, hplaced, name, hname, rfl⟩, own, hown, rfl⟩
      exact ⟨node, around, name, own, hplaced, hname, hown, rfl⟩
    · rintro ⟨node, around, name, own, hplaced, hname, hown, rfl⟩
      exact ⟨(name, some own), ⟨(node, around), hplaced, name, hname, by rw [hown]⟩, own, rfl, rfl⟩

/-- A text holds a word somewhere between two offsets, as a whole word. -/
def HasWordIn (word bytes : List UInt8) (start stop : Nat) : Prop :=
  ∃ offset, start ≤ offset ∧ offset + word.length ≤ stop ∧ IsWordAt word bytes offset

theorem toUTF8_extract_of_isWordAt {word : String} {start : Nat}
    (hword : IsWordAt (bytesOf word) (bytesOf source) start) :
    source.toUTF8.extract start (start + (bytesOf word).length) = word.toUTF8 := by
  obtain ⟨before, after, hbytes, rfl, -, -⟩ := hword
  apply ByteArray.ext
  apply Array.ext'
  have hextract : ((bytesOf source).drop before.length).take (bytesOf word).length =
      bytesOf word := by
    rw [hbytes]
    simp
  rw [ByteArray.data_extract, Array.toList_extract, List.extract_eq_take_drop,
    Nat.add_sub_cancel_left]
  exact hextract

theorem text_of_isWordAt {word : String} (hstop : node.stop = node.start + (bytesOf word).length)
    (hword : IsWordAt (bytesOf word) (bytesOf source) node.start) :
    (Text.ofString source).of node = word := by
  rw [Text.of, Text.ofString, hstop, toUTF8_extract_of_isWordAt hword, fromUTF8?_toUTF8]
  rfl

/-- The name of a function stands in the stretch that is recorded for it. -/
theorem hasWordIn_of_mem_functions (htree : KeepsTo tree source)
    (hfunction : function ∈ (factsOf tree (.ofString source) file).functions)
    (hspan : function.span = some span) :
    HasWordIn (bytesOf function.name) (bytesOf source) span.start span.stop := by
  obtain ⟨-, node, around, name, own, hplaced, hname, hown, rfl⟩ := mem_functions_iff.mp hfunction
  obtain rfl : spanOf own = span := Option.some.inj hspan
  have hline := Node.line_of_mem_placed tree .root hplaced
  have hnode := hline.mem_preorder node List.mem_cons_self
  have habove := (List.pairwise_cons.mp (hline.pairwise htree.nested)).1
  obtain ⟨hchild, hkind⟩ := mem_children_of_declaredName? hname
  have hinside : own.Encloses name := by
    have hwithin := htree.nested node hnode name hchild
    rcases mem_of_removable? hown with rfl | hmem
    · exact hwithin
    · exact (habove own hmem).trans hwithin
  obtain ⟨word, hstop, hword⟩ := htree.word name (Node.child_mem_preorder tree hnode hchild) hkind
  have hnamed : (Text.ofString source).of name = word := text_of_isWordAt hstop hword
  rw [Symbol.ofFunction, hnamed]
  exact ⟨name.start, hinside.1, by rw [← hstop]; exact hinside.2, hword⟩

/-! ## Texts that read alike -/

/-- Two texts read alike from the byte before a stretch to the byte behind it. -/
def ReadsAlike (span : Span) (text source : String) : Prop :=
  ∀ offset, span.start ≤ offset + 1 → offset ≤ span.stop →
    (bytesOf text)[offset]? = (bytesOf source)[offset]?

theorem isWordAt_iff_getElem? {word bytes : List UInt8} {start : Nat} :
    IsWordAt word bytes start ↔
      (∀ i < word.length, bytes[start + i]? = word[i]?) ∧
      (∀ i, i + 1 = start → bytes[i]?.any isWordByte = false) ∧
      bytes[start + word.length]?.any isWordByte = false ∧ start + word.length ≤ bytes.length := by
  constructor
  · rintro ⟨before, after, rfl, rfl, hbefore, hafter⟩
    refine ⟨?_, ?_, ?_, by simp⟩
    · intro i hi
      rw [List.getElem?_append_right (by omega), Nat.add_sub_cancel_left,
        List.getElem?_append_left hi]
    · intro i hi
      rw [List.getElem?_append_left (by omega)]
      rw [List.getLast?_eq_getElem?, ← hi, Nat.add_sub_cancel] at hbefore
      exact hbefore
    · rw [List.getElem?_append_right (by omega), Nat.add_sub_cancel_left,
        List.getElem?_append_right (Nat.le_refl _), Nat.sub_self, ← List.head?_eq_getElem?]
      exact hafter
  · rintro ⟨hword, hbefore, hafter, hlength⟩
    refine ⟨bytes.take start, bytes.drop (start + word.length), ?_, by simp; omega, ?_, ?_⟩
    · have hmiddle : (bytes.drop start).take word.length = word := by
        apply List.ext_getElem?
        intro i
        rw [List.getElem?_take]
        split
        · rename_i hi
          rw [List.getElem?_drop, hword i hi]
        · rename_i hi
          rw [List.getElem?_eq_none (by omega)]
      calc bytes = bytes.take start ++ bytes.drop start := (List.take_append_drop _ _).symm
        _ = bytes.take start ++ ((bytes.drop start).take word.length ++
            (bytes.drop start).drop word.length) := by rw [List.take_append_drop word.length]
        _ = _ := by rw [hmiddle, List.drop_drop]
    · rw [List.getLast?_eq_getElem?, List.length_take, Nat.min_eq_left (by omega)]
      cases start with
      | zero => simp
      | succ i =>
        rw [Nat.add_sub_cancel, List.getElem?_take_of_lt (Nat.lt_succ_self i)]
        exact hbefore i rfl
    · rw [List.head?_drop]
      exact hafter

/-- What stands in a stretch still stands there in a text that reads alike. -/
theorem HasWordIn.of_readsAlike {word : List UInt8} (halike : ReadsAlike span text source)
    (hword : HasWordIn word (bytesOf text) span.start span.stop) :
    HasWordIn word (bytesOf source) span.start span.stop := by
  obtain ⟨offset, hstart, hstop, hword⟩ := hword
  rw [isWordAt_iff_getElem?] at hword
  obtain ⟨hsame, hbefore, hafter, hlength⟩ := hword
  refine ⟨offset, hstart, hstop, isWordAt_iff_getElem?.mpr ⟨?_, ?_, ?_, ?_⟩⟩
  · intro i hi
    rw [← halike (offset + i) (by omega) (by omega)]
    exact hsame i hi
  · intro i hi
    rw [← halike i (by omega) (by omega)]
    exact hbefore i hi
  · rw [← halike (offset + word.length) (by omega) hstop]
    exact hafter
  · -- The last byte of the word, or the one before it if it is empty, is in both texts.
    cases hlast : offset + word.length with
    | zero => exact Nat.zero_le _
    | succ last =>
      have hboth := halike last (by omega) (by omega)
      rw [List.getElem?_eq_getElem (by omega)] at hboth
      exact (List.getElem?_eq_some_iff.mp hboth.symm).1

end Script

end Deadwood
