/-
# Comments in a list of selectors

A comment means nothing in a list of selectors, but a list is read without knowing of
comments. One that stands at a seam still changes nothing if it is quiet: it closes what
it opens, and in the open it has no comma and names no class. The list then falls into
as many selectors, they name the same classes, and the same of them stay.
-/

import Deadwood.Proofs.Stylesheet.Contained
import Deadwood.Proofs.Stylesheet.Uncut
import Deadwood.Stylesheet.Strip
import Mathlib.Data.List.Forall2

namespace Deadwood.Css

open Deadwood.Text
open Deadwood.Selector (Nesting classes definedClasses dottedNames isPlain requiredClasses shade
  split)
open Deadwood.Stylesheet (fateOf survivors)

variable {c : Char} {front back body filler text rest : List Char}

/-! ## Fillers -/

/-- A text in which nothing is found, and behind which the reading of a selector is
where it was. -/
structure Calm (filler : List Char) : Prop where
  shades : ∀ (negations : Bool) (n : Nat) (rest : List Char), ∃ shaded,
    shade negations (outside n) (filler ++ rest) = shaded ++ shade negations (outside n) rest ∧
      shaded.map (·.1) = filler ∧
      ∀ more, dottedClasses (maskOf shaded ++ more) = dottedClasses more
  conditionless : Conditionless filler
  guarded : Guarded filler

theorem Calm.append (hfiller : Calm filler) (hrest : Calm rest) : Calm (filler ++ rest) := by
  refine ⟨fun negations n more => ?_, hfiller.conditionless.append hrest.conditionless,
    hfiller.guarded.append hrest.guarded⟩
  obtain ⟨first, hfirst, hfirstText, hfirstNames⟩ := hfiller.shades negations n (rest ++ more)
  obtain ⟨second, hsecond, hsecondText, hsecondNames⟩ := hrest.shades negations n more
  refine ⟨first ++ second, ?_, ?_, fun more => ?_⟩
  · rw [List.append_assoc, hfirst, hsecond, List.append_assoc]
  · rw [List.map_append, hfirstText, hsecondText]
  · rw [maskOf_append, List.append_assoc, hfirstNames, hsecondNames]

/-- A character other than a dot is found in no name. -/
theorem dottedClasses_char (hc : c ≠ '.') (hidden : Bool) (more : List Char) :
    dottedClasses (maskOf [(c, hidden)] ++ more) = dottedClasses more := by
  cases hidden with
  | true => exact dottedClasses_hidden [c] more
  | false => exact @dottedClasses_append [c] (by simpa using Ne.symm hc) more

theorem calm_nil : Calm [] :=
  ⟨fun _ _ _ => ⟨[], rfl, rfl, fun _ => rfl⟩, conditionless_of_not_mem List.not_mem_nil,
    guarded_of_not_mem List.not_mem_nil⟩

theorem calm_char (hc : c ∉ ['\\', '"', '\'', '[', ']', '(', ')', ':', '.', '=']) : Calm [c] := by
  simp only [List.mem_cons, List.not_mem_nil, or_false, not_or] at hc
  refine ⟨fun negations n rest => ⟨[(c, (outside n).hides)], ?_, rfl, ?_⟩, ?_, ?_⟩
  · exact (leads_mute n (by simp [hc])).shade rest
  · exact dottedClasses_char (by simp [hc]) _
  · exact conditionless_of_not_mem (by simpa using Ne.symm hc.2.2.2.1)
  · exact guarded_char (by simp [hc])

theorem calm_separator (hc : c ∈ separators) : Calm [c] := by
  refine calm_char ?_
  simpa using @of_separator c
    (fun c => c ∉ ['\\', '"', '\'', '[', ']', '(', ')', ':', '.', '=']) (by decide) hc

/-! ## Quiet texts -/

/-- A text that closes what it opens, and a number of parentheses besides. In the open
it has no comma, no dot before a name, and no negation, and its brackets are none of a
condition on the class attribute. -/
inductive Quiet : Nat → List Char → Prop
  | nil : Quiet 0 []
  | char {depth : Nat} {c : Char} {rest : List Char}
      (hc : c ∉ ['\\', '"', '\'', '[', ']', '(', ')']) (hcomma : c = ',' → 0 < depth)
      (hdot : c = '.' → Stops rest)
      (hcolon : c = ':' → Nesting.continuesNegation rest = false) (hrest : Quiet depth rest) :
      Quiet depth (c :: rest)
  | escape {depth : Nat} {c : Char} {rest : List Char} (hc : c ∉ ['.', '['])
      (hrest : Quiet depth rest) : Quiet depth ('\\' :: c :: rest)
  | string {depth : Nat} {text rest : List Char} (htext : IsString text)
      (hrest : Quiet depth rest) : Quiet depth (text ++ rest)
  | brackets {depth : Nat} {inner rest : List Char} (hinner : MadeOf IsInnerPiece inner)
      (hnone : Conditionless ('[' :: (inner ++ [']']))) (hrest : Quiet depth rest) :
      Quiet depth ('[' :: (inner ++ [']']) ++ rest)
  | opens {depth : Nat} {rest : List Char} (hrest : Quiet (depth + 1) rest) :
      Quiet depth ('(' :: rest)
  | closes {depth : Nat} {rest : List Char} (hrest : Quiet depth rest) :
      Quiet (depth + 1) (')' :: rest)

variable {depth : Nat}

theorem Quiet.conditionless (hquiet : Quiet depth body) : Conditionless body := by
  have hchar : ∀ {c : Char}, c ≠ '[' → Conditionless [c] := fun hc =>
    conditionless_of_not_mem (by simpa using Ne.symm hc)
  induction hquiet with
  | nil => exact conditionless_of_not_mem List.not_mem_nil
  | char hc _ _ _ _ ih =>
    refine (hchar ?_).append ih
    rintro rfl
    simp at hc
  | @escape _ c _ hc _ ih =>
    have hescape : Conditionless ['\\', c] := by
      simp only [List.mem_cons, List.not_mem_nil, or_false, not_or] at hc
      exact conditionless_of_not_mem (by simpa using Ne.symm hc.2)
    exact hescape.append ih
  | string htext _ ih => exact htext.conditionless.append ih
  | brackets _ hnone _ ih => exact hnone.append ih
  | opens _ ih => exact (hchar (by decide)).append ih
  | closes _ ih => exact (hchar (by decide)).append ih

/-- A quiet text belongs to the selector in which it stands. -/
theorem Quiet.joins (hquiet : Quiet depth body) (n : Nat) :
    Joins (level (n + depth)) body (level n) := by
  induction hquiet with
  | nil => exact (piecewise_joins (level n)).nil
  | char hc hcomma _ _ _ ih =>
    refine Joins.append (joins_plain hc fun hsame => ?_) ih
    exact Nat.lt_of_lt_of_le (hcomma hsame) (Nat.le_add_left _ _)
  | escape _ _ ih => exact (joins_escape rfl _).append ih
  | string htext _ ih => exact (joins_string _ htext).append ih
  | brackets hinner _ _ ih => exact (joins_brackets _ hinner).append ih
  | @opens depth _ _ ih =>
    have hopen : Joins (level (n + depth)) ['('] (level (n + (depth + 1))) := joins_char rfl
    exact hopen.append ih
  | @closes depth _ _ ih =>
    have hclose : Joins (level (n + (depth + 1))) [')'] (level (n + depth)) := joins_char rfl
    exact hclose.append ih

/-- Parentheses are counted inside of a negation only. -/
def within (n depth : Nat) : Nat :=
  if n = 0 then 0 else n + depth

@[simp] theorem within_zero (n : Nat) : within n 0 = n := by
  rw [within]
  split <;> omega

theorem leads_opening {negations : Bool} (n depth : Nat) :
    Leads negations (outside (within n depth)) ['('] (outside n).hides
      (outside (within n (depth + 1))) := by
  refine leads_char fun rest => ?_
  cases n with
  | zero => simp [Nesting.step, Nesting.hides, within, outside]
  | succ n => simp [Nesting.step, Nesting.hides, within, outside, Nat.add_assoc]

theorem leads_closing {negations : Bool} (n depth : Nat) :
    Leads negations (outside (within n (depth + 1))) [')'] (outside n).hides
      (outside (within n depth)) := by
  refine leads_char fun rest => ?_
  cases n with
  | zero => simp [Nesting.step, Nesting.hides, within, outside]
  | succ n => simp [Nesting.step, Nesting.hides, within, outside]

theorem stops_mask {shaded : List (Char × Bool)} {more : List Char}
    (hmore : shaded = [] → Stops more)
    (hhead : ∀ entry ∈ shaded.head?, isPlain entry.1 = false ∧ entry.1 ≠ '\\') :
    Stops (maskOf shaded ++ more) := by
  cases shaded with
  | nil => exact hmore rfl
  | cons entry shaded =>
    obtain ⟨c, hidden⟩ := entry
    cases hidden with
    | false =>
      intro d hd
      obtain rfl := Option.some.inj hd
      exact hhead (c, false) rfl
    | true =>
      obtain ⟨size, hsize⟩ := Nat.exists_eq_succ_of_ne_zero (Nat.ne_of_gt c.utf8Size_pos)
      intro d hd
      obtain rfl : ' ' = d := by simpa [maskOf, hsize, List.replicate_succ] using hd
      decide

/-- A text that is read from one place to another without a name in it. -/
def Silent (negations : Bool) (s : Nesting) (text : List Char) (t : Nesting) (rest : List Char) :
    Prop :=
  ∃ shaded, shade negations s (text ++ rest) = shaded ++ shade negations t rest ∧
    shaded.map (·.1) = text ∧
    ∀ more, Stops more → dottedClasses (maskOf shaded ++ more) = dottedClasses more

variable {negations hidden : Bool} {s between t : Nesting}

theorem Silent.cons (htext : Silent negations between text t rest)
    (hstep : shade negations s (c :: (text ++ rest)) =
      (c, hidden) :: shade negations between (text ++ rest))
    (hdot : c = '.' → Stops text) : Silent negations s (c :: text) t rest := by
  obtain ⟨shaded, hshade, rfl, hnames⟩ := htext
  refine ⟨(c, hidden) :: shaded, ?_, rfl, fun more hmore => ?_⟩
  · rw [List.cons_append, hstep, hshade]
    rfl
  · have hmask : maskOf ((c, hidden) :: shaded) = maskOf [(c, hidden)] ++ maskOf shaded :=
      maskOf_append [_] shaded
    rw [hmask, List.append_assoc, ← hnames more hmore]
    by_cases hc : c = '.'
    · subst hc
      cases hidden with
      | true => exact dottedClasses_hidden ['.'] (maskOf shaded ++ more)
      | false =>
        have hstops : Stops (maskOf shaded ++ more) := by
          refine stops_mask (fun _ => hmore) fun entry hentry => hdot rfl entry.1 ?_
          rw [List.head?_map, hentry]
          rfl
        change dottedClasses ('.' :: (maskOf shaded ++ more)) = _
        simp [dottedClasses, dottedNames, hstops.takeName]
    · exact dottedClasses_char hc hidden (maskOf shaded ++ more)

theorem Silent.behind_hidden {others : List Char} (hothers : Silent negations between others t rest)
    (htext : Leads negations s text true between) :
    Silent negations s (text ++ others) t rest := by
  obtain ⟨shaded, hshade, hsame, hnames⟩ := hothers
  refine ⟨text.map (·, true) ++ shaded, ?_, ?_, fun more hmore => ?_⟩
  · rw [List.append_assoc, htext.shade, hshade, List.append_assoc]
  · rw [List.map_append, map_fst_shaded, hsame]
  · rw [maskOf_append, List.append_assoc, dottedClasses_hidden, hnames more hmore]

/-- No name is found in a quiet text, and behind it the reading is where it was before
the parentheses. -/
theorem Quiet.silent (hquiet : Quiet depth body) (negations : Bool) (n : Nat)
    (hrest : ∀ c ∈ rest.head?, c.toLower ∉ ['n', 'o', 't', '(']) :
    Silent negations (outside (within n depth)) body (outside n) rest := by
  induction hquiet with
  | nil => exact ⟨[], by rw [within_zero]; rfl, rfl, fun _ _ => rfl⟩
  | @char depth c body hc _ hdot hcolon _ ih =>
    have hstep : shade negations (outside (within n depth)) (c :: (body ++ rest)) =
        (c, (outside (within n depth)).hides) ::
          shade negations (outside (within n depth)) (body ++ rest) := by
      by_cases hmute : c = ':'
      · subst hmute
        have hcontinues : Nesting.continuesNegation (body ++ rest) = false := by
          rw [continuesNegation_append hrest, hcolon rfl]
        simp [shade, Nesting.step, outside, hcontinues]
      · refine (leads_mute _ ?_).shade (body ++ rest)
        simp only [List.mem_cons, List.not_mem_nil, or_false, not_or] at hc ⊢
        tauto
    exact ih.cons hstep hdot
  | @escape depth c body hc _ ih =>
    have hescaped : Silent negations { outside (within n depth) with literal := 1 } (c :: body)
        (outside n) rest := by
      refine ih.cons rfl ?_
      rintro rfl
      simp at hc
    exact hescaped.cons rfl (by simp)
  | string htext _ ih => exact ih.behind_hidden (leads_string (atRest_outside _) htext)
  | @brackets depth inner body hinner _ _ ih =>
    have hinside := ih.behind_hidden (leads_inner hinner _)
    exact hinside.cons rfl (by simp)
  | opens _ ih => exact ih.cons ((leads_opening n _).shade _) (by simp)
  | closes _ ih => exact ih.cons ((leads_closing n _).shade _) (by simp)

/-! ## Comments -/

/-- A text between the marks of a comment. -/
def comment (body : List Char) : List Char :=
  ['/', '*'] ++ (body ++ ['*', '/'])

theorem calm_comment (hquiet : Quiet 0 body) : Calm (comment body) := by
  have hslash : Calm ['/'] := calm_char (by decide)
  have hstar : Calm ['*'] := calm_char (by decide)
  have hbegin : Calm ['/', '*'] := hslash.append hstar
  have hend : Calm ['*', '/'] := hstar.append hslash
  refine ⟨fun negations n rest => ?_, hbegin.conditionless.append
    (hquiet.conditionless.append hend.conditionless), guarded_cons (by decide) (by decide) _⟩
  obtain ⟨third, hthird, hthirdText, hthirdNames⟩ := hend.shades negations n rest
  obtain ⟨second, hsecond, hsecondText, hsecondNames⟩ :=
    hquiet.silent negations n (show ∀ c ∈ (['*', '/'] ++ rest).head?, _ by simp)
  obtain ⟨first, hfirst, hfirstText, hfirstNames⟩ :=
    hbegin.shades negations n (body ++ (['*', '/'] ++ rest))
  rw [within_zero] at hsecond
  refine ⟨first ++ (second ++ third), ?_, ?_, fun more => ?_⟩
  · rw [comment, List.append_assoc, List.append_assoc, hfirst, hsecond, hthird]
    simp
  · rw [List.map_append, List.map_append, hfirstText, hsecondText, hthirdText, comment]
  · -- What follows the body is the star of the comment, or a blank in its place.
    have hstops : Stops (maskOf third ++ more) := by
      obtain ⟨star, third, rfl, hstar, -⟩ := List.map_eq_cons_iff.mp hthirdText
      refine stops_mask (by simp) fun entry hentry => ?_
      obtain rfl := Option.some.inj hentry
      rw [hstar]
      decide
    rw [maskOf_append, maskOf_append, List.append_assoc, List.append_assoc, hfirstNames,
      hsecondNames _ hstops, hthirdNames]

theorem joins_comment (hquiet : Quiet 0 body) (n : Nat) :
    Joins (level n) (comment body) (level n) := by
  have hslash : Joins (level n) ['/'] (level n) := joins_plain (by decide) (by simp)
  have hstar : Joins (level n) ['*'] (level n) := joins_plain (by decide) (by simp)
  have hbody : Joins (level n) body (level n) := hquiet.joins n
  exact (hslash.append hstar).append (hbody.append (hstar.append hslash))

/-! ## Classes around a filler -/

/-- A place where what follows goes on with nothing that stands before it. -/
def Parted (front back : List Char) : Prop :=
  front = [] ∨ ∀ c ∈ back.head?, c ∈ '/' :: separators ∧ (isBlank c = true → ¬ EndsOpen front)

theorem Parted.shade_append (hparted : Parted front back) (negations : Bool) :
    shade negations {} (front ++ back) =
      shade negations {} front ++ shade negations (endOf negations {} front) back := by
  rcases hparted with rfl | hparted
  · rfl
  · refine Css.shade_append fun c hc => ?_
    have hnone : ('/' :: separators).all (fun c => c.toLower ∉ ['n', 'o', 't', '(']) = true := by
      decide
    simpa using List.all_eq_true.mp hnone c (hparted c hc).1

/-- The first character of a mask is that of the text, or a blank if it is hidden. -/
theorem exists_head_mask (hc : c ∈ '/' :: separators) (negations : Bool) (n : Nat)
    (rest : List Char) : ∃ d more, maskOf (shade negations (outside n) (c :: rest)) = d :: more ∧
      d ∈ '/' :: separators ∧ (n = 0 → d = c) := by
  have hmute : ('/' :: separators).all
      (fun c => c ∉ ['\\', '"', '\'', '[', ']', '(', ')', ':']) = true := by decide
  have hleads : Leads negations (outside n) [c] (outside n).hides (outside n) :=
    leads_mute n (by simpa using List.all_eq_true.mp hmute c hc)
  have hshade := hleads.shade rest
  rw [List.singleton_append] at hshade
  rw [hshade, maskOf_append]
  cases n with
  | zero => exact ⟨c, _, rfl, hc, fun _ => rfl⟩
  | succ n =>
    obtain ⟨size, hsize⟩ := Nat.exists_eq_succ_of_ne_zero (Nat.ne_of_gt c.utf8Size_pos)
    refine ⟨' ', List.replicate size ' ' ++ maskOf (shade negations (outside (n + 1)) rest), ?_,
      by decide, by simp⟩
    simp [maskOf, hides_outside, hsize, List.replicate_succ]

/-- Where a text is parted, names are found on both sides, whatever is hidden. -/
theorem Parted.dottedClasses_append (hparted : Parted front back) (hfront : Lexed front)
    {negations : Bool} {n : Nat} (hend : endOf negations {} front = outside n) :
    dottedClasses (maskOf (shade negations {} front) ++
        maskOf (shade negations (outside n) back)) =
      dottedClasses (maskOf (shade negations {} front)) ++
        dottedClasses (maskOf (shade negations (outside n) back)) := by
  rcases hparted with rfl | hparted
  · rfl
  apply Uncut.dottedClasses_append
  have hescape : escapeAt (maskOf (shade negations {} front)) ≠ some 0 := fun hzero =>
    hfront.escapeAt_ne (of_escapeAt_mask hend hzero).2
  cases back with
  | nil => exact ⟨by simp [shade, maskOf, Stops], hescape, by simp [shade, maskOf]⟩
  | cons c back =>
    obtain ⟨hc, hopen⟩ := hparted c rfl
    obtain ⟨d, more, hmask, hd, hvisible⟩ := exists_head_mask hc negations n back
    rw [hmask]
    refine ⟨?_, hescape, ?_⟩
    · rintro e he
      obtain rfl := Option.some.inj he
      have hall : ('/' :: separators).all (fun c => isPlain c = false ∧ c ≠ '\\') = true := by
        decide
      simpa using List.all_eq_true.mp hall d hd
    · rintro hblank ⟨count, hcount⟩
      obtain ⟨hzero, hopened⟩ := of_escapeAt_mask hend hcount
      rw [hvisible hzero] at hblank
      exact hopen hblank ⟨count, hopened⟩

/-- The classes of a text depend on what stands on both sides of a filler alone. -/
theorem Calm.classes_eq (hfiller : Calm filler) (hfront : Lexed front) (hback : Guarded back)
    (hparted : Parted front (filler ++ back)) (skips : Bool) :
    classes skips (front ++ (filler ++ back)) =
      ((conditionsIn skips 0 (shade true {} front) ++
          conditionsIn skips 0 (shade true (endOf true {} front) back)).flatMap words ++
        (dottedClasses (maskOf (shade skips {} front)) ++
          dottedClasses (maskOf (shade skips (endOf skips {} front) back)))).eraseReps := by
  have hconditions : conditionsIn skips 0 (shade true {} (front ++ (filler ++ back))) =
      conditionsIn skips 0 (shade true {} front) ++
        conditionsIn skips 0 (shade true (endOf true {} front) back) := by
    obtain ⟨n, hend⟩ := @exists_endOf _ true hfront 0
    change endOf true {} front = outside n at hend
    obtain ⟨shaded, hshade, rfl, -⟩ := hfiller.shades true n back
    have hnone : conditionsIn skips 0 shaded = [] :=
      conditionsIn_of_conditionless hfiller.conditionless
    have hcontained := hfront.contained (hfiller.guarded.append hback)
    rw [hparted.shade_append, conditionsIn_append ?_ (Nat.zero_le _), hend, hshade,
      conditionsIn_append ?_ (Nat.zero_le _), hnone, List.nil_append]
    · rw [map_fst_shade]
      exact hfiller.conditionless.contained
    · rwa [map_fst_shade, map_fst_shade]
  have hdotted : dottedClasses (maskOf (shade skips {} (front ++ (filler ++ back)))) =
      dottedClasses (maskOf (shade skips {} front)) ++
        dottedClasses (maskOf (shade skips (endOf skips {} front) back)) := by
    obtain ⟨n, hend⟩ := @exists_endOf _ skips hfront 0
    change endOf skips {} front = outside n at hend
    obtain ⟨shaded, hshade, -, hnames⟩ := hfiller.shades skips n back
    rw [hparted.shade_append, maskOf_append, hend, hparted.dottedClasses_append hfront hend, hshade,
      maskOf_append, hnames]
  rw [Css.classes_eq, hconditions, hdotted]

/-- A quiet comment at a seam adds no class and takes none away. -/
theorem Seam.classes_comment (hseam : Seam front back) (hfront : Lexed front) (hback : Guarded back)
    (hquiet : Quiet 0 body) (skips : Bool) :
    classes skips (front ++ (comment body ++ back)) = classes skips (front ++ back) := by
  have hcalm := calm_comment hquiet
  have hsame : Parted front back →
      classes skips (front ++ (comment body ++ back)) = classes skips (front ++ back) := by
    intro hparted
    have hcommented : Parted front (comment body ++ back) := by
      refine .inr fun c hc => ?_
      obtain rfl := Option.some.inj hc
      exact ⟨List.mem_cons_self, fun hblank => absurd hblank (by decide)⟩
    have hplain := calm_nil.classes_eq hfront hback hparted skips
    rw [List.nil_append] at hplain
    rw [hplain, hcalm.classes_eq hfront hback hcommented]
  cases hseam with
  | start => exact hsame (.inl rfl)
  | stop => exact hsame (.inr (by simp))
  | before back hc hopen =>
    refine hsame (.inr fun d hd => ?_)
    obtain rfl := Option.some.inj hd
    exact ⟨List.mem_cons_of_mem _ hc, hopen⟩
  | @behind front c back hlexed hc hopen =>
    -- Here the separator belongs to the filler, with the comment or without it.
    have hparted : ∀ rest, Parted front (c :: rest) := by
      refine fun rest => .inr fun d hd => ?_
      obtain rfl := Option.some.inj hd
      exact ⟨List.mem_cons_of_mem _ hc, hopen⟩
    have hseparator : Calm [c] := calm_separator hc
    have hplain := hseparator.classes_eq hlexed hback (hparted _) skips
    have hcommented := (hseparator.append hcalm).classes_eq hlexed hback (hparted _) skips
    simpa using hcommented.trans hplain.symm

/-! ## Lists with a comment -/

/-- A text and the same with a comment in it, or none. -/
inductive Commented (body : List Char) : List Char → List Char → Prop
  | same (text : List Char) : Commented body text text
  | added (front back : List Char) :
      Commented body (front ++ back) (front ++ (comment body ++ back))

/-- A seam of a list lies in one of its selectors. With a quiet comment there, that one
has the comment and the same classes, and all others are as they were. -/
theorem Seam.exists_split (hseam : Seam front back) (hfront : Lexed front) (hback : Lexed back)
    (hquiet : Quiet 0 body) :
    ∃ before selector commented behind, split (front ++ back) = before ++ selector :: behind ∧
      split (front ++ (comment body ++ back)) = before ++ commented :: behind ∧
      Commented body selector commented ∧ requiredClasses commented = requiredClasses selector := by
  obtain ⟨depth, before, first, second, behind, hfirst, hinner, ⟨more, rfl⟩, hsplit⟩ :=
    hseam.exists_parts hfront
  have hplain := hsplit [] (piecewise_joins _).nil
  rw [List.nil_append, List.nil_append] at hplain
  exact ⟨before, first ++ second, first ++ (comment body ++ second), behind, hplain,
    hsplit _ (joins_comment hquiet depth), .added first second,
    hinner.classes_comment hfirst hback.guarded.left hquiet true⟩

theorem forall₂_commented {before behind middle others : List (List Char)}
    (hmiddle : List.Forall₂ (Commented body) middle others) :
    List.Forall₂ (Commented body) (before ++ (middle ++ behind))
      (before ++ (others ++ behind)) := by
  have hsame : ∀ texts, List.Forall₂ (Commented body) texts texts := fun texts =>
    List.forall₂_same.mpr fun text _ => .same text
  exact List.rel_append (hsame before) (List.rel_append hmiddle (hsame behind))

/-- Whether a rule stays, or goes, depends on how many selectors it has and how many of
them survive. -/
theorem fateOf_congr {goes : List Char → Bool} {list other : List Char}
    (hsplit : (split list).length = (split other).length)
    (hkept : (survivors goes list).length = (survivors goes other).length) :
    (fateOf goes other = .stays ↔ fateOf goes list = .stays) ∧
      (fateOf goes other = .goes ↔ fateOf goes list = .goes) := by
  simp only [fateOf, List.isEmpty_iff_length_eq_zero, hsplit, hkept]
  split_ifs <;> simp

/-- A quiet comment between two selectors, or beside a combinator, changes nothing: the
list defines and requires the same classes, it falls into as many selectors, and the
same of them stay, with the comment in at most one of them. -/
theorem comment_transparent (hfront : Lexed front) (hback : Lexed back) (hseam : Seam front back)
    (hquiet : Quiet 0 body) :
    definedClasses (front ++ (comment body ++ back)) = definedClasses (front ++ back) ∧
      requiredClasses (front ++ (comment body ++ back)) = requiredClasses (front ++ back) ∧
      List.Forall₂ (Commented body) (split (front ++ back))
        (split (front ++ (comment body ++ back))) ∧
      ∀ goes, List.Forall₂ (Commented body) (survivors goes (front ++ back))
          (survivors goes (front ++ (comment body ++ back))) ∧
        (fateOf goes (front ++ (comment body ++ back)) = .stays ↔
          fateOf goes (front ++ back) = .stays) ∧
        (fateOf goes (front ++ (comment body ++ back)) = .goes ↔
          fateOf goes (front ++ back) = .goes) := by
  obtain ⟨before, selector, commented, behind, hplain, hsplit, hadded, hrequired⟩ :=
    hseam.exists_split hfront hback hquiet
  have hparts : List.Forall₂ (Commented body) (split (front ++ back))
      (split (front ++ (comment body ++ back))) := by
    rw [hplain, hsplit]
    exact @forall₂_commented _ before behind [selector] [commented] (.cons hadded .nil)
  refine ⟨hseam.classes_comment hfront hback.guarded hquiet false,
    hseam.classes_comment hfront hback.guarded hquiet true, hparts, fun goes => ?_⟩
  have hkept : List.Forall₂ (Commented body) (survivors goes (front ++ back))
      (survivors goes (front ++ (comment body ++ back))) := by
    rw [survivors, survivors, hplain, hsplit]
    simp only [List.filter_append, List.filter_cons, hrequired]
    split
    · exact @forall₂_commented _ _ _ [selector] [commented] (.cons hadded .nil)
    · exact @forall₂_commented _ _ _ [] [] .nil
  exact ⟨hkept, fateOf_congr hparts.length_eq hkept.length_eq⟩

/-! ## A link with a note -/

/-- A link to an address with a bracket in it. -/
def link : List Char :=
  'a' :: '[' :: (['h', 'r', 'e', 'f', '='] ++ ['"', '[', 'x', '"'] ++ [']'])

theorem lexed_link : Lexed link := by
  have haddress : IsString ['"', '[', 'x', '"'] := by
    refine @IsString.quoted '"' ['[', 'x'] (.inl rfl) (.of_all .char (by decide)) ?_
    intro front behind hsplit
    cases front with
    | nil =>
      obtain ⟨-, rfl⟩ := List.cons.inj hsplit
      exact guarded_cons (by decide) (by decide) _
    | cons d front =>
      obtain ⟨-, hsplit⟩ := List.cons.inj hsplit
      have hmem : '[' ∈ ['x'] := by simp [hsplit]
      exact absurd hmem (by decide)
  have hname : MadeOf IsInnerPiece ['h', 'r', 'e', 'f', '='] := .of_all .char (by decide)
  have htag : Lexed ['a'] := .singleton (.char (by decide))
  exact htag.append (.singleton (.condition (hname.append (.singleton (.string haddress)))))

def note : List Char :=
  '(' :: 'e' :: ',' :: (['"', '.', 'b', '"'] ++ [')'])

theorem quiet_note : Quiet 0 note := by
  have hclass : IsString ['"', '.', 'b', '"'] := by
    refine @IsString.quoted '"' ['.', 'b'] (.inl rfl) (.of_all .char (by decide)) ?_
    intro front behind hsplit
    have hmem : '[' ∈ ['.', 'b'] := by simp [hsplit]
    exact absurd hmem (by decide)
  refine .opens (.char (by decide) (by simp) (by simp) (by simp) ?_)
  exact .char (by decide) (by simp) (by simp) (by simp) (.string hclass (.closes .nil))

/-- A note behind a link, with parentheses, a comma, quotes and a dot in it. -/
theorem comment_transparent_link :
    definedClasses (link ++ (comment note ++ " .a, .b".toList)) = [['a'], ['b']] ∧
      (split (link ++ (comment note ++ " .a, .b".toList))).length = 2 ∧
      (survivors (· == ['b']) (link ++ (comment note ++ " .a, .b".toList))).length = 1 := by
  have hback : Lexed " .a, .b".toList := .of_all .char (by decide)
  have hseam : Seam link " .a, .b".toList := by
    refine .before _ (by decide) fun _ hopen => ?_
    obtain ⟨count, hcount⟩ := hopen
    rw [show escapeAt link = none by decide] at hcount
    simp at hcount
  have htransparent := comment_transparent lexed_link hback hseam quiet_note
  refine ⟨htransparent.1.trans (by decide +kernel), ?_, ?_⟩
  · exact htransparent.2.2.1.length_eq.symm.trans (by decide +kernel)
  · exact (htransparent.2.2.2 _).1.length_eq.symm.trans (by decide +kernel)

end Deadwood.Css
