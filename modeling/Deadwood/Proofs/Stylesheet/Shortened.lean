/-
# Lists of selectors written anew

A rule that loses some of its selectors gets a list of the others, each without the
blanks around it. The list falls into these selectors again, as long as no blank is cut
off that belongs to a selector: one that is escaped, so that the backslash would escape
the comma, or one beyond ASCII that goes on with a name.
-/

import Deadwood.Proofs.Stylesheet.Trimming
import Mathlib.Data.List.Forall2

namespace Deadwood.Css

open Deadwood.Selector (Depth definedClasses requiredClasses split splitFrom)
open Deadwood.Stylesheet (Fate fateOf separatorOf survivors)
open Deadwood.Text

variable {c : Char} {s : Depth} {text rest gap list : List Char} {texts kept : List (List Char)}
  {goes : List Char → Bool}

/-! ## The fate of a list -/

theorem fateOf_eq_stays_iff :
    fateOf goes list = .stays ↔
      ∀ selector ∈ split list, (requiredClasses selector).any goes = false := by
  have hall : (survivors goes list).length = (split list).length ↔
      ∀ selector ∈ split list, (requiredClasses selector).any goes = false := by
    rw [survivors, List.length_filter_eq_length_iff]
    simp
  rw [← hall, fateOf]
  split
  · simpa
  · split <;> simpa

theorem fateOf_eq_goes_iff :
    fateOf goes list = .goes ↔
      ∀ selector ∈ split list, (requiredClasses selector).any goes = true := by
  have hnone : survivors goes list = [] ↔
      ∀ selector ∈ split list, (requiredClasses selector).any goes = true := by
    rw [survivors, List.filter_eq_nil_iff]
    simp
  have hlength : survivors goes list = [] → (survivors goes list).length ≠ (split list).length := by
    intro hempty
    have hpos := List.length_pos_iff.mpr (splitFrom_ne_nil {} list)
    rw [hempty]
    exact Nat.ne_of_lt hpos
  rw [← hnone, fateOf]
  split
  · rename_i hsame
    simpa using fun hempty => hlength hempty hsame
  · split <;> simp_all

/-- A list is written anew if it loses some of its selectors and keeps others. -/
theorem fateOf_eq_shrinks_iff :
    fateOf goes list = .shrinks text ↔
      (∃ selector ∈ split list, (requiredClasses selector).any goes = true) ∧
        survivors goes list ≠ [] ∧
        text = joinWith (separatorOf list) ((survivors goes list).map trim) := by
  have hlost : (survivors goes list).length ≠ (split list).length ↔
      ∃ selector ∈ split list, (requiredClasses selector).any goes = true := by
    rw [survivors, Ne, List.length_filter_eq_length_iff]
    simp
  rw [← hlost, fateOf]
  split
  · rename_i hsame
    simp [hsame]
  · split
    · rename_i hnone
      rw [List.isEmpty_iff] at hnone
      simp [hnone]
    · rename_i hshorter hkept
      rw [List.isEmpty_iff] at hkept
      simp [hshorter, hkept, eq_comm]

/-! ## Places behind a text -/

/-- What a place behind a text is inside of. -/
def depthBehind (s : Depth) (text : List Char) : Depth :=
  text.foldl Depth.next s

theorem depthBehind_append (s : Depth) (text rest : List Char) :
    depthBehind s (text ++ rest) = depthBehind (depthBehind s text) rest :=
  List.foldl_append

/-- No comma of a text parts two selectors. -/
def Unparted : Depth → List Char → Prop
  | _, [] => True
  | s, c :: rest => s.parts c = false ∧ Unparted (s.next c) rest

theorem unparted_append :
    Unparted s (text ++ rest) ↔ Unparted s text ∧ Unparted (depthBehind s text) rest := by
  induction text generalizing s with
  | nil => simp [Unparted, depthBehind]
  | cons c text ih => simp [Unparted, ih, depthBehind, and_assoc]

theorem Unparted.joins (htext : Unparted s text) : Joins s text (depthBehind s text) := by
  induction text generalizing s with
  | nil => exact (piecewise_joins s).nil
  | cons c text ih => exact (joins_char htext.1).append (ih htext.2)

theorem eq_of_parts (hparts : s.parts c = true) : s = {} := by
  obtain ⟨depth, quote, escaped⟩ := s
  simp only [Depth.parts, Bool.and_eq_true, Bool.not_eq_true', Option.isNone_iff_eq_none,
    beq_iff_eq] at hparts
  obtain ⟨⟨⟨-, rfl⟩, rfl⟩, rfl⟩ := hparts
  rfl

/-- No comma parts the selectors of a list further, and behind each but the last of them
nothing is open. -/
theorem splitFrom_spec (s : Depth) (text : List Char) :
    ∃ first others, splitFrom s text = first :: others ∧
      Unparted s first ∧ (∀ part ∈ others, Unparted {} part) ∧
      (others ≠ [] → depthBehind s first = {}) ∧
      ∀ part ∈ others.dropLast, depthBehind {} part = {} := by
  induction text generalizing s with
  | nil => exact ⟨[], [], rfl, trivial, by simp, by simp, by simp⟩
  | cons c text ih =>
    rw [splitFrom]
    by_cases hparts : s.parts c = true
    · obtain rfl := eq_of_parts hparts
      obtain ⟨first, others, hsplit, hfirst, hothers, hrest, hclosed⟩ := ih {}
      rw [if_pos hparts, hsplit]
      refine ⟨[], first :: others, rfl, trivial, ?_, fun _ => rfl, ?_⟩
      · rintro part (_ | ⟨_, hpart⟩)
        · exact hfirst
        · exact hothers part hpart
      · by_cases hnil : others = []
        · simp [hnil]
        · rw [List.dropLast_cons_of_ne_nil hnil]
          rintro part (_ | ⟨_, hpart⟩)
          · exact hrest hnil
          · exact hclosed part hpart
    · obtain ⟨first, others, hsplit, hfirst, hothers, hrest, hclosed⟩ := ih (s.next c)
      rw [if_neg hparts, hsplit]
      exact ⟨c :: first, others, rfl, ⟨by simpa using hparts, hfirst⟩, hothers, hrest, hclosed⟩

theorem unparted_of_mem_split {part : List Char} (hpart : part ∈ split list) :
    Unparted {} part := by
  obtain ⟨first, others, hsplit, hfirst, hothers, -⟩ := splitFrom_spec {} list
  rw [split, hsplit] at hpart
  rcases List.mem_cons.mp hpart with rfl | hpart
  · exact hfirst
  · exact hothers part hpart

theorem depthBehind_of_mem_dropLast {part : List Char} (hpart : part ∈ (split list).dropLast) :
    depthBehind {} part = {} := by
  obtain ⟨first, others, hsplit, -, -, hrest, hclosed⟩ := splitFrom_spec {} list
  rw [split, hsplit] at hpart
  by_cases hnil : others = []
  · simp [hnil] at hpart
  · rw [List.dropLast_cons_of_ne_nil hnil] at hpart
    rcases List.mem_cons.mp hpart with rfl | hpart
    · exact hrest hnil
    · exact hclosed part hpart

/-! ## Blanks and escapes -/

theorem quote_next (hquote : s.quote ∈ [none, some '"', some '\'']) (c : Char) :
    (s.next c).quote ∈ [none, some '"', some '\''] := by
  obtain ⟨depth, quote, escaped⟩ := s
  simp only [Depth.next]
  split
  · exact hquote
  split
  · exact hquote
  cases quote with
  | some quote =>
    dsimp only
    split
    · simp
    · exact hquote
  | none =>
    dsimp only
    split
    · rename_i hc
      rcases hc with rfl | rfl <;> simp
    · repeat' split
      all_goals simp

theorem quote_depthBehind (hquote : s.quote ∈ [none, some '"', some '\'']) (text : List Char) :
    (depthBehind s text).quote ∈ [none, some '"', some '\''] := by
  induction text generalizing s with
  | nil => exact hquote
  | cons c text ih => exact ih (quote_next hquote c)

/-- A blank opens and closes nothing, but it may be escaped. -/
theorem next_blank (hquote : s.quote ∈ [none, some '"', some '\'']) (hc : isBlank c = true) :
    s.next c = { s with escaped := false } := by
  have hmarks : c ∉ ['\\', '"', '\'', '(', '[', ')', ']'] := by
    intro hmem
    have hnone : ['\\', '"', '\'', '(', '[', ')', ']'].all (!isBlank ·) = true := by decide
    simpa [hc] using List.all_eq_true.mp hnone c hmem
  simp only [List.mem_cons, List.not_mem_nil, or_false, not_or] at hmarks
  obtain ⟨depth, quote, escaped⟩ := s
  cases escaped with
  | true => rfl
  | false =>
    simp only [List.mem_cons, List.not_mem_nil, or_false] at hquote
    rcases hquote with rfl | rfl | rfl <;> simp [Depth.next, hmarks]

theorem depthBehind_blanks {blanks : List Char} (hblanks : ∀ c ∈ blanks, isBlank c = true)
    (hquote : s.quote ∈ [none, some '"', some '\'']) :
    (depthBehind s blanks).depth = s.depth ∧ (depthBehind s blanks).quote = s.quote ∧
      (s.escaped = false → depthBehind s blanks = s) := by
  induction blanks generalizing s with
  | nil => exact ⟨rfl, rfl, fun _ => rfl⟩
  | cons c blanks ih =>
    have hnext := next_blank hquote (hblanks c List.mem_cons_self)
    obtain ⟨hdepth, hsame, hrest⟩ :=
      ih (fun d hd => hblanks d (List.mem_cons_of_mem _ hd)) (quote_next hquote c)
    rw [depthBehind, List.foldl_cons, ← depthBehind, hdepth, hsame]
    refine ⟨by rw [hnext], by rw [hnext], fun hescaped => ?_⟩
    have hstill : s.next c = s := by rw [hnext, ← hescaped]
    rw [hrest (by rw [hstill, hescaped]), hstill]

/-- A comma is escaped where the escape of a name is under way. -/
theorem escaped_depthBehind (text : List Char) :
    (depthBehind {} text).escaped = (escapeAt text == some 0) := by
  suffices hfold : ∀ (s : Depth) (escape : Option Nat), s.escaped = (escape == some 0) →
      (text.foldl Depth.next s).escaped = (text.foldl escapeStep escape == some 0) from
    hfold {} none rfl
  induction text with
  | nil => exact fun _ _ hsame => hsame
  | cons c text ih =>
    intro s escape hsame
    refine ih _ _ ?_
    have hhex : isHexDigit '\\' = false := by decide
    cases hescaped : s.escaped with
    | true =>
      obtain rfl : escape = some 0 := by simpa [hescaped] using hsame
      cases hdigit : isHexDigit c <;> simp [Depth.next, escapeStep, hescaped, hdigit]
    | false =>
      have hnot : escape ≠ some 0 := by simpa [hescaped] using hsame
      by_cases hc : c = '\\'
      · simp [Depth.next, escapeStep, hescaped, hc, hhex, hnot]
      · have hother : escapeStep escape c ≠ some 0 := by
          cases escape <;> simp [escapeStep, hc]
        have hnext : (s.next c).escaped = false := by
          simp only [Depth.next, hescaped, hc]
          grind
        rw [hnext]
        simpa using hother

/-! ## Joining -/

/-- Behind a text nothing is open but possibly an escape. -/
def Closed (text : List Char) : Prop :=
  depthBehind {} text = { escaped := escapeAt text == some 0 }

/-- Texts that can be written with commas between them. -/
structure Joinable (texts : List (List Char)) : Prop where
  unparted : ∀ text ∈ texts, Unparted {} text
  closed : ∀ text ∈ texts.dropLast, Closed text

theorem Joinable.tail (hjoinable : Joinable (text :: texts)) : Joinable texts := by
  refine ⟨fun other hother => hjoinable.unparted other (List.mem_cons_of_mem _ hother), ?_⟩
  intro other hother
  have hne : texts ≠ [] := by
    rintro rfl
    simp at hother
  refine hjoinable.closed other ?_
  rw [List.dropLast_cons_of_ne_nil hne]
  exact List.mem_cons_of_mem _ hother

theorem joins_blanks (hgap : ∀ c ∈ gap, isBlank c = true) : Joins {} gap {} := by
  have hunparted : Unparted {} gap := by
    induction gap with
    | nil => trivial
    | cons c gap ih =>
      have hblank := hgap c List.mem_cons_self
      have hcomma : c ≠ ',' := ne_of_isBlank (by decide) hblank
      refine ⟨by simp [Depth.parts, hcomma], ?_⟩
      rw [next_blank (by decide) hblank]
      exact ih fun d hd => hgap d (List.mem_cons_of_mem _ hd)
  have hjoins := hunparted.joins
  rwa [(depthBehind_blanks hgap (s := {}) (by decide)).2.2 rfl] at hjoins

/-- A text and the next one are parted by the comma between them. -/
theorem split_joined (hgap : ∀ c ∈ gap, isBlank c = true) (htext : Unparted {} text)
    (hclosed : Closed text) (hescape : escapeAt text ≠ some 0) (rest : List Char) :
    split (text ++ (',' :: gap) ++ rest) = text :: (split rest).modifyHead (gap ++ ·) := by
  have hend : depthBehind {} text = {} := by
    rw [hclosed, beq_false_of_ne hescape]
  have hjoins := htext.joins (',' :: (gap ++ rest))
  rw [hend] at hjoins
  have hcomma : splitFrom {} (',' :: (gap ++ rest)) = [] :: splitFrom {} (gap ++ rest) := rfl
  rw [hcomma, joins_blanks hgap rest, List.modifyHead_cons, List.append_nil] at hjoins
  rw [List.append_assoc, List.cons_append]
  exact hjoins

/-- A comma behind an escape that is under way parts nothing. -/
theorem length_split_escaped (hgap : ∀ c ∈ gap, isBlank c = true) (htext : Unparted {} text)
    (hclosed : Closed text) (hescape : escapeAt text = some 0) (rest : List Char) :
    (split (text ++ (',' :: gap) ++ rest)).length = (split rest).length := by
  have hend : depthBehind {} text = { escaped := true } := by
    rw [hclosed, hescape]
    rfl
  have hcomma : Joins { escaped := true } [','] {} := joins_char rfl
  have hjoins := (htext.joins.append (hend ▸ hcomma)).append (joins_blanks hgap) rest
  rw [List.append_assoc text, List.singleton_append] at hjoins
  rw [split, hjoins, List.length_modifyHead]
  rfl

theorem Joinable.split_joinWith (hgap : ∀ c ∈ gap, isBlank c = true)
    (hjoinable : Joinable (text :: texts))
    (hescape : ∀ other ∈ (text :: texts).dropLast, escapeAt other ≠ some 0) :
    split (joinWith (',' :: gap) (text :: texts)) = text :: texts.map (gap ++ ·) := by
  induction texts generalizing text with
  | nil =>
    have hjoins := (hjoinable.unparted text List.mem_cons_self).joins []
    rw [List.append_nil, splitFrom, List.modifyHead_cons, List.append_nil] at hjoins
    exact hjoins
  | cons next texts ih =>
    rw [List.dropLast_cons_cons] at hescape
    have hclosed := hjoinable.closed text (by rw [List.dropLast_cons_cons]; exact List.mem_cons_self)
    have hagain := ih hjoinable.tail fun other hother => hescape other (List.mem_cons_of_mem _ hother)
    rw [joinWith, split_joined hgap (hjoinable.unparted text List.mem_cons_self) hclosed
      (hescape text List.mem_cons_self), hagain]
    · rfl
    · simp

/-- Each text but the last adds a selector to the list, unless it escapes its comma. -/
theorem Joinable.length_split_joinWith (hgap : ∀ c ∈ gap, isBlank c = true)
    (hjoinable : Joinable (text :: texts)) :
    (split (joinWith (',' :: gap) (text :: texts))).length =
      ((text :: texts).dropLast.filter (escapeAt · != some 0)).length + 1 := by
  induction texts generalizing text with
  | nil => rw [hjoinable.split_joinWith hgap (by simp)]; rfl
  | cons next texts ih =>
    have hunparted := hjoinable.unparted text List.mem_cons_self
    have hclosed := hjoinable.closed text (by rw [List.dropLast_cons_cons]; exact List.mem_cons_self)
    rw [joinWith, List.dropLast_cons_cons, List.filter_cons]
    · by_cases hescape : escapeAt text = some 0
      · rw [length_split_escaped hgap hunparted hclosed hescape, ih hjoinable.tail, hescape]
        rfl
      · rw [split_joined hgap hunparted hclosed hescape, if_pos (by simpa using hescape),
          List.length_cons, List.length_cons, List.length_modifyHead, ih hjoinable.tail]
    · simp

/-! ## Trimmed selectors -/

theorem depthBehind_trim (text : List Char) :
    (depthBehind {} text).depth = (depthBehind {} (trim text)).depth ∧
      (depthBehind {} text).quote = (depthBehind {} (trim text)).quote ∧
      (Unparted {} text → Unparted {} (trim text)) := by
  obtain ⟨front, hfront, hwhole⟩ := exists_trim text
  have hstart : depthBehind {} front = {} :=
    (depthBehind_blanks hfront (s := {}) (by decide)).2.2 rfl
  have hquote : (depthBehind {} (trim text)).quote ∈ [none, some '"', some '\''] :=
    quote_depthBehind (by decide) _
  have hblanks : ∀ c ∈ endBlanks (trimStart text), isBlank c = true := fun _ =>
    isBlank_of_mem_endBlanks
  obtain ⟨hdepth, hsame, -⟩ := depthBehind_blanks hblanks hquote
  have hbehind : depthBehind {} text =
      depthBehind (depthBehind {} (trim text)) (endBlanks (trimStart text)) := by
    conv_lhs => rw [hwhole, depthBehind_append, hstart, depthBehind_append]
  refine ⟨by rw [hbehind, hdepth], by rw [hbehind, hsame], fun hunparted => ?_⟩
  rw [hwhole, unparted_append, hstart, unparted_append] at hunparted
  exact hunparted.2.1

theorem mem_dropLast_split (hselector : text ∈ (survivors goes list).dropLast) :
    text ∈ (split list).dropLast := by
  have hsublist : (survivors goes list).Sublist (split list) := List.filter_sublist
  have hdropLast := hsublist.reverse.tail
  rw [List.tail_reverse, List.tail_reverse, List.reverse_sublist] at hdropLast
  exact hdropLast.subset hselector

theorem joinable_survivors (goes : List Char → Bool) (list : List Char) :
    Joinable ((survivors goes list).map trim) := by
  constructor
  · intro text htext
    obtain ⟨selector, hselector, rfl⟩ := List.mem_map.mp htext
    exact (depthBehind_trim selector).2.2 (unparted_of_mem_split (List.mem_filter.mp hselector).1)
  · intro text htext
    rw [← List.map_dropLast] at htext
    obtain ⟨selector, hselector, rfl⟩ := List.mem_map.mp htext
    have hend := depthBehind_of_mem_dropLast (mem_dropLast_split hselector)
    obtain ⟨hdepth, hquote, -⟩ := depthBehind_trim selector
    rw [hend] at hdepth hquote
    rw [Closed, ← escaped_depthBehind]
    generalize depthBehind {} (trim selector) = s at hdepth hquote
    obtain ⟨depth, quote, escaped⟩ := s
    obtain ⟨rfl, rfl⟩ : 0 = depth ∧ none = quote := ⟨hdepth, hquote⟩
    rfl

/-- A stretch of a list is a selector with other blanks around it. -/
structure Same (part selector : List Char) : Prop where
  text : trim part = trim selector
  defined : definedClasses part = definedClasses selector
  required : requiredClasses part = requiredClasses selector

theorem same_blanks_append_iff (hgap : ∀ c ∈ gap, isBlank c = true) {part selector : List Char} :
    Same (gap ++ part) selector ↔ Same part selector := by
  have htrim : trim (gap ++ part) = trim part := trim_blanks_append hgap part
  have hdefined : definedClasses (gap ++ part) = definedClasses part :=
    classes_blanks_append hgap part false
  have hrequired : requiredClasses (gap ++ part) = requiredClasses part :=
    classes_blanks_append hgap part true
  constructor <;> rintro ⟨htext, hdef, hreq⟩ <;> constructor <;> simp_all

theorem same_trim {selector : List Char} (htrimmable : isTrimmable selector = true) :
    Same (trim selector) selector :=
  ⟨trim_trim selector, classes_trim htrimmable false, classes_trim htrimmable true⟩

/-- Where a list goes on behind a selector, no escape is left open by trimming it. -/
theorem escapeAt_trim_ne {selector : List Char} (htrimmable : isTrimmable selector = true)
    (hend : depthBehind {} selector = {}) : escapeAt (trim selector) ≠ some 0 := by
  simp only [isTrimmable, Bool.and_eq_true, Bool.or_eq_true, bne_iff_ne,
    List.isEmpty_iff] at htrimmable
  rcases htrimmable.2 with hnone | hescape
  · obtain ⟨front, hfront, hwhole⟩ := exists_trim selector
    have hstart : depthBehind {} front = {} :=
      (depthBehind_blanks hfront (s := {}) (by decide)).2.2 rfl
    rw [hwhole, hnone, List.append_nil, depthBehind_append, hstart] at hend
    have hescaped := escaped_depthBehind (trim selector)
    rw [hend] at hescaped
    simpa using hescaped.symm
  · exact hescape

/-- Trimmed selectors with commas between them fall into the same selectors again exactly
if each of them is the same without its blanks and none escapes its comma. -/
theorem forall₂_same_split_iff (hgap : ∀ c ∈ gap, isBlank c = true) (hne : kept ≠ [])
    (hjoinable : Joinable (kept.map trim)) :
    List.Forall₂ Same (split (joinWith (',' :: gap) (kept.map trim))) kept ↔
      (∀ selector ∈ kept.dropLast, escapeAt (trim selector) ≠ some 0) ∧
        ∀ selector ∈ kept, Same (trim selector) selector := by
  obtain ⟨first, others, rfl⟩ := List.exists_cons_of_ne_nil hne
  have hparts : (∀ selector ∈ (first :: others).dropLast, escapeAt (trim selector) ≠ some 0) →
      (List.Forall₂ Same (split (joinWith (',' :: gap) ((first :: others).map trim)))
        (first :: others) ↔ ∀ selector ∈ first :: others, Same (trim selector) selector) := by
    intro hescape
    have htexts : ∀ text ∈ ((first :: others).map trim).dropLast, escapeAt text ≠ some 0 := by
      intro text htext
      rw [← List.map_dropLast] at htext
      obtain ⟨selector, hselector, rfl⟩ := List.mem_map.mp htext
      exact hescape selector hselector
    rw [List.map_cons] at hjoinable htexts ⊢
    rw [hjoinable.split_joinWith hgap htexts, List.forall₂_cons, List.forall₂_map_left_iff,
      List.forall₂_map_left_iff, List.forall₂_same]
    simp only [same_blanks_append_iff hgap, List.forall_mem_cons]
  constructor
  · intro hsame
    have hlength := hsame.length_eq
    rw [List.map_cons, Joinable.length_split_joinWith hgap (by simpa using hjoinable),
      ← List.map_cons, ← List.map_dropLast, List.length_cons, Nat.add_right_cancel_iff] at hlength
    have hall : (((first :: others).dropLast.map trim).filter (escapeAt · != some 0)).length =
        ((first :: others).dropLast.map trim).length := by
      simpa using hlength
    rw [List.length_filter_eq_length_iff] at hall
    have hescape : ∀ selector ∈ (first :: others).dropLast, escapeAt (trim selector) ≠ some 0 :=
      fun selector hselector => by simpa using hall _ (List.mem_map_of_mem hselector)
    exact ⟨hescape, (hparts hescape).mp hsame⟩
  · rintro ⟨hescape, hsame⟩
    exact (hparts hescape).mpr hsame

/-! ## What a shortened list means -/

theorem exists_separatorOf (list : List Char) :
    ∃ gap, separatorOf list = ',' :: gap ∧ ∀ c ∈ gap, isBlank c = true := by
  rw [separatorOf]
  split
  · rename_i second _ _
    exact ⟨second.takeWhile isBlank, rfl, List.all_eq_true.mp List.all_takeWhile⟩
  · refine ⟨[' '], rfl, fun c hc => ?_⟩
    rw [List.mem_singleton.mp hc]
    decide

/-- A list that falls into survivors loses nothing more. -/
theorem stays_of_forall₂_same (hsame : List.Forall₂ Same (split text) (survivors goes list)) :
    ∀ part ∈ split text, (requiredClasses part).any goes = false := by
  have hclasses : (split text).map requiredClasses =
      (survivors goes list).map requiredClasses := by
    rw [← List.forall₂_eq_eq_eq, List.forall₂_map_left_iff, List.forall₂_map_right_iff]
    exact hsame.imp fun _ _ hpart => hpart.required
  intro part hpart
  have hmem := List.mem_map_of_mem (f := requiredClasses) hpart
  rw [hclasses] at hmem
  obtain ⟨selector, hselector, hrequired⟩ := List.mem_map.mp hmem
  rw [← hrequired]
  simpa using (List.mem_filter.mp hselector).2

/-- A list that loses some of its selectors and keeps others is written anew. If the
blanks at the ends of those kept are no part of them, the new list falls into just these,
in their order and with their classes, so that nothing more of it goes. This fails only
where such a selector is not the same without its blanks, or where it escapes the comma
behind it. -/
theorem shortened_means_survivors (hkept : survivors goes list ≠ [])
    (hlost : ∃ selector ∈ split list, (requiredClasses selector).any goes = true) :
    ∃ text, fateOf goes list = .shrinks text ∧
      ((∀ selector ∈ survivors goes list, isTrimmable selector = true) →
        List.Forall₂ Same (split text) (survivors goes list) ∧
          (∀ part ∈ split text, (requiredClasses part).any goes = false) ∧
          fateOf goes text = .stays) ∧
      (List.Forall₂ Same (split text) (survivors goes list) ↔
        (∀ selector ∈ (survivors goes list).dropLast, escapeAt (trim selector) ≠ some 0) ∧
          ∀ selector ∈ survivors goes list, Same (trim selector) selector) := by
  obtain ⟨gap, hseparator, hgap⟩ := exists_separatorOf list
  have hiff := forall₂_same_split_iff hgap hkept (joinable_survivors goes list)
  rw [← hseparator] at hiff
  refine ⟨_, fateOf_eq_shrinks_iff.mpr ⟨hlost, hkept, rfl⟩, fun htrimmable => ?_, hiff⟩
  have hsame := hiff.mpr ⟨fun selector hselector =>
    escapeAt_trim_ne (htrimmable selector ((List.dropLast_sublist _).subset hselector))
      (depthBehind_of_mem_dropLast (mem_dropLast_split hselector)),
    fun selector hselector => same_trim (htrimmable selector hselector)⟩
  have hstay := stays_of_forall₂_same hsame
  exact ⟨hsame, hstay, fateOf_eq_stays_iff.mpr hstay⟩

/-- A list with a blank that ends an escape, a comma in parentheses and a string that
stays open. -/
def openList : List Char :=
  ".\\31 ,\n.dead, :is(.b, .c) , [d=\"e, f".toList

def openListWithoutDead : List Char :=
  ".\\31,\n:is(.b, .c),\n[d=\"e, f".toList

theorem shortened_means_survivors_open :
    fateOf (· == "dead".toList) openList = .shrinks openListWithoutDead ∧
      List.Forall₂ Same (split openListWithoutDead)
        [".\\31 ".toList, " :is(.b, .c) ".toList, " [d=\"e, f".toList] ∧
      fateOf (· == "dead".toList) openListWithoutDead = .stays := by
  have hsurvivors : survivors (· == "dead".toList) openList =
      [".\\31 ".toList, " :is(.b, .c) ".toList, " [d=\"e, f".toList] := by
    decide +kernel
  have hkept : survivors (· == "dead".toList) openList ≠ [] := by
    rw [hsurvivors]
    simp
  obtain ⟨text, hfate, hmeans, -⟩ :=
    shortened_means_survivors hkept ⟨"\n.dead".toList, by decide +kernel, by decide +kernel⟩
  rw [hsurvivors] at hmeans
  have htext : fateOf (· == "dead".toList) openList = .shrinks openListWithoutDead := by
    decide +kernel
  obtain rfl := Fate.shrinks.inj (hfate.symm.trans htext)
  obtain ⟨hsame, -, hstays⟩ := hmeans (by decide +kernel)
  exact ⟨htext, hsame, hstays⟩

/-- Without its last blank the first selector has another class, or takes the comma
along. -/
example :
    fateOf (· == "dead".toList) ".foo\u00a0, .dead".toList = .shrinks ".foo".toList ∧
      (split ".foo\\, .bar".toList).length = 1 ∧
      fateOf (· == "dead".toList) ".foo\\ , .dead, .bar".toList =
        .shrinks ".foo\\, .bar".toList := by
  decide +kernel

end Deadwood.Css
