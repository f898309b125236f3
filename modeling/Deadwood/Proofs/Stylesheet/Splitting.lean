/-
# The selectors of a list

A list of selectors is parted at its commas. Those inside of parentheses, brackets and
strings, and those that are escaped, belong to a selector, so a list falls into the
selectors that it was written from.
-/

import Deadwood.Proofs.Stylesheet.Shading

namespace Deadwood.Css

open Deadwood.Text (isAsciiBlank isHexDigit)
open Deadwood.Selector (Depth split splitFrom)

variable {c : Char} {s : Depth}

theorem splitFrom_ne_nil (s : Depth) (text : List Char) : splitFrom s text ≠ [] := by
  cases text with
  | nil => simp [splitFrom]
  | cons c rest =>
    rw [splitFrom]
    split
    · simp
    · split <;> simp

/-- A text that belongs to a selector, from one place in a list to another. -/
def Joins (s : Depth) (text : List Char) (behind : Depth) : Prop :=
  ∀ rest, splitFrom s (text ++ rest) = (splitFrom behind rest).modifyHead (text ++ ·)

theorem Joins.append {between behind : Depth} {text others : List Char}
    (htext : Joins s text between) (hothers : Joins between others behind) :
    Joins s (text ++ others) behind := by
  intro rest
  rw [List.append_assoc, htext, hothers, List.modifyHead_modifyHead]
  simp [Function.comp_def]

theorem joins_char (hparts : s.parts c = false) : Joins s [c] (s.next c) := by
  intro rest
  rw [List.singleton_append, splitFrom, hparts, if_neg Bool.false_ne_true]
  split
  · rename_i hnil
    exact absurd hnil (splitFrom_ne_nil _ _)
  · rename_i part others hsplit
    rw [hsplit]
    rfl

theorem piecewise_joins (s : Depth) : Piecewise fun text => Joins s text s where
  nil := fun rest => by cases hsplit : splitFrom s rest <;> simp [hsplit]
  append := Joins.append

/-! ## What belongs to a selector -/

/-- A place that is not in a string, behind a number of open parentheses and
brackets. -/
def level (depth : Nat) : Depth :=
  { depth }

theorem joins_ordinary (depth : Nat) (c : Char) (hc : isOrdinary c = true) :
    Joins (level depth) [c] (level depth) := by
  simp only [isOrdinary_iff, marks, List.mem_cons, List.not_mem_nil, or_false, not_or] at hc
  have hsame : (level depth).next c = level depth := by simp [Depth.next, level, hc]
  have hjoins : Joins (level depth) [c] ((level depth).next c) :=
    joins_char (by simp [Depth.parts, hc])
  rwa [hsame] at hjoins

theorem joins_escape (hescaped : s.escaped = false) (c : Char) : Joins s ['\\', c] s := by
  have hfirst : Joins s ['\\'] { s with escaped := true } := by
    have hjoins : Joins s ['\\'] (s.next '\\') := joins_char (by simp [Depth.parts])
    simpa [Depth.next, hescaped] using hjoins
  have hsecond : Joins { s with escaped := true } [c] s := by
    have hjoins : Joins { s with escaped := true } [c] (Depth.next { s with escaped := true } c) :=
      joins_char (by simp [Depth.parts])
    have hsame : Depth.next { s with escaped := true } c = s := by simp [Depth.next, ← hescaped]
    rwa [hsame] at hjoins
  exact hfirst.append hsecond

theorem joins_quoted (depth : Nat) {quote : Char} (hquote : quote = '"' ∨ quote = '\'')
    {content : List Char} (hcontent : MadeOf (IsStringPiece quote) content) :
    Joins (level depth) (quote :: (content ++ [quote])) (level depth) := by
  let inside : Depth := { depth, quote := some quote }
  have hopen : Joins (level depth) [quote] inside := by
    rcases hquote with rfl | rfl <;> exact joins_char rfl
  have hclose : Joins inside [quote] (level depth) := by
    rcases hquote with rfl | rfl <;> exact joins_char rfl
  have hinside : Joins inside content inside := by
    refine hcontent.piecewise (piecewise_joins inside) ?_
    rintro piece (@⟨c, hc⟩ | c)
    · simp only [List.mem_cons, List.not_mem_nil, or_false, not_or] at hc
      have hjoins : Joins inside [c] (inside.next c) := joins_char (by simp [Depth.parts, inside])
      have hsame : inside.next c = inside := by simp [Depth.next, inside, hc]
      rwa [hsame] at hjoins
    · exact joins_escape rfl c
  exact hopen.append (hinside.append hclose)

theorem joins_condition (depth : Nat) (a : Attribute) :
    Joins (level depth) a.text (level depth) := by
  have hoperator : ∀ operator : Operator,
      Joins (level (depth + 1)) operator.text (level (depth + 1)) := by
    rintro (_ | _ | _ | _ | _ | _)
    · exact joins_char rfl
    all_goals exact Joins.append (joins_ordinary (depth + 1) _ (by decide)) (joins_char rfl)
  have hvalue : ∀ value : Value, Joins (level (depth + 1)) value.text (level (depth + 1)) := by
    rintro (name | ⟨quote, isQuote, letters, spelled⟩)
    · exact (piecewise_joins _).name (joins_ordinary (depth + 1)) (joins_escape rfl) name
    · exact joins_quoted (depth + 1) isQuote (madeOf_letters isQuote spelled)
  obtain ⟨inner, hbody, hinner⟩ := (piecewise_joins (level (depth + 1))).condition
    (joins_ordinary (depth + 1)) hoperator hvalue a
  have hopen : Joins (level depth) ['['] (level (depth + 1)) := joins_char rfl
  have hclose : Joins (level (depth + 1)) [']'] (level depth) := joins_char rfl
  rw [Attribute.text, hbody]
  exact hopen.append (hinner.append hclose)

/-- Selectors hold no comma that parts a list. -/
theorem nested_joins : Nested fun depth text => Joins (level depth) text (level depth) where
  piecewise depth := piecewise_joins (level depth)
  ordinary := joins_ordinary
  escape depth := joins_escape rfl
  dot depth := joins_char rfl
  colon depth := joins_char rfl
  condition := joins_condition
  parentheses := by
    intro depth inner hinner
    have hopen : Joins (level depth) ['('] (level (depth + 1)) := joins_char rfl
    have hclose : Joins (level (depth + 1)) [')'] (level depth) := joins_char rfl
    exact hopen.append (hinner.append hclose)
  comma depth := joins_char rfl

/-! ## Splitting -/

theorem Item.joins (item : Item) : Joins {} item.text {} := by
  have hpieces := piecewise_joins {}
  have hgap := hpieces.gap (joins_ordinary 0)
  exact hpieces.append (hgap item.before)
    (hpieces.append (nested_joins.selector 0 item.selector) (hgap item.behind))

theorem Alternatives.text_more (before : Gap) (selector : Selector) (behind : Gap)
    (others : Alternatives) :
    (Alternatives.more before selector behind others).text =
      Item.text ⟨before, selector, behind⟩ ++ ',' :: others.text := by
  simp [Alternatives.text, Item.text]

/-- A list falls into its selectors. -/
theorem split_text (list : Alternatives) : split list.text = list.items.map Item.text := by
  cases list with
  | last before selector behind =>
    have hjoins := Item.joins ⟨before, selector, behind⟩ []
    simp only [List.append_nil, splitFrom, List.modifyHead_cons] at hjoins
    exact hjoins
  | more before selector behind others =>
    have hjoins := Item.joins ⟨before, selector, behind⟩ (',' :: others.text)
    have hcomma : splitFrom {} (',' :: others.text) = [] :: split others.text := rfl
    rw [split, Alternatives.text_more, hjoins, hcomma, split_text others]
    simp [Alternatives.items]

end Deadwood.Css
