/-
# Paths by their steps

A path is a text, and many texts mean one path. What a look-up makes of a path
are its steps: the segments between slashes, without the empty ones and without
dots. This module computes the steps of the paths that are built elsewhere: by
joining a name, by changing the last name, and by going down a list of names.

Nothing here speaks of disks. That the steps decide where a path leads is shown
with the look-ups themselves.
-/

import Deadwood.Path
import Deadwood.Proofs.Text.Words
import Mathlib.Tactic.Common

namespace Deadwood

deriving instance ReflBEq, LawfulBEq for Path.Part

namespace Path

/-- A list that is not empty has a last item behind the others. -/
theorem exists_append_singleton {α : Type} {items : List α} (hne : items ≠ []) :
    ∃ front last, items = front ++ [last] :=
  ⟨_, _, (List.dropLast_concat_getLast hne).symm⟩

/-! ## Segments and texts -/

/-- Whether a look-up passes over a segment. -/
def isIdle (segment : String) : Bool :=
  segment.isEmpty || segment == "."

@[simp]
theorem isIdle_empty : isIdle "" = true := by decide

/-- The segments of a path that a look-up acts on. -/
def steps (path : Path) : List String :=
  path.segments.filter (!isIdle ·)

/-- A name that an entry of a directory can have. -/
structure IsName (name : String) : Prop where
  notEmpty : name ≠ ""
  notHere : name ≠ "."
  notUp : name ≠ ".."
  noSlash : '/' ∉ name.toList
  noZero : ∀ c ∈ name.toList, c.toNat ≠ 0

instance (name : String) : Decidable (IsName name) :=
  decidable_of_iff (name ≠ "" ∧ name ≠ "." ∧ name ≠ ".." ∧ '/' ∉ name.toList ∧
      name.toList.all (·.toNat != 0) = true)
    ⟨fun ⟨hempty, hhere, hup, hslash, hzero⟩ => ⟨hempty, hhere, hup, hslash, by simpa using hzero⟩,
      fun hname => ⟨hname.notEmpty, hname.notHere, hname.notUp, hname.noSlash,
        by simpa using hname.noZero⟩⟩

theorem IsName.not_isIdle {name : String} (hname : IsName name) : isIdle name = false := by
  simp [isIdle, hname.notEmpty, hname.notHere]

/-- A segment stands for no part exactly if a look-up passes over it. -/
theorem ofSegment?_eq_none_iff {segment : String} :
    Part.ofSegment? segment = none ↔ isIdle segment = true := by
  unfold Part.ofSegment? isIdle
  split <;> rename_i hidle
  · simp [hidle]
  · simp only [Bool.not_eq_true] at hidle
    split <;> simp [hidle]

theorem IsName.ofSegment? {name : String} (hname : IsName name) :
    Part.ofSegment? name = some (.named name) := by
  simp [Part.ofSegment?, hname.notEmpty, hname.notHere, hname.notUp]

theorem segments_ne_nil (path : Path) : path.segments ≠ [] := by
  simp [segments]

/-- A slash between two texts parts their segments. -/
theorem segments_append_slash (front back : String) :
    Path.segments ⟨front ++ "/" ++ back⟩ = Path.segments ⟨front⟩ ++ Path.segments ⟨back⟩ := by
  have htext : (front ++ "/" ++ back).toList = front.toList ++ '/' :: back.toList := by simp
  simp only [segments, htext]
  rw [List.splitOnP_append_cons _ _ (by simp), List.map_append]

/-- No segment contains a slash. -/
theorem slash_not_mem_of_mem_segments {path : Path} {segment : String}
    (hsegment : segment ∈ path.segments) : '/' ∉ segment.toList := by
  obtain ⟨chars, hchars, rfl⟩ := List.mem_map.mp hsegment
  rw [String.toList_ofList]
  intro hslash
  simpa using (Text.exists_mem_splitOnP_iff.mp ⟨chars, hchars, hslash⟩).2

theorem segments_of_noSlash {text : String} (htext : '/' ∉ text.toList) :
    Path.segments ⟨text⟩ = [text] := by
  rw [segments, List.splitOnP_eq_singleton]
  · simp
  · intro c hc
    simp only [beq_eq_false_iff_ne, ne_eq]
    rintro rfl
    exact htext hc

/-- Segments that are put between slashes are found again. -/
theorem segments_ofSegments {segments : List String} (hne : segments ≠ [])
    (hslash : ∀ segment ∈ segments, '/' ∉ segment.toList) :
    (ofSegments segments).segments = segments := by
  have hsplit : (ofSegments segments).text.toList.splitOnP (· == '/') =
      segments.map String.toList := by
    rw [← List.splitOn_eq_splitOnP, ofSegments, String.toList_intercalate]
    apply List.splitOn_intercalate
    · intro chars hchars
      obtain ⟨segment, hsegment, rfl⟩ := List.mem_map.mp hchars
      exact hslash segment hsegment
    · simpa using hne
  rw [Path.segments, hsplit, List.map_map]
  simp

/-- A path begins at the root exactly if an empty segment stands in front of
others. -/
theorem isAbsolute_iff {path : Path} :
    path.isAbsolute = true ↔ ∃ rest, rest ≠ [] ∧ path.segments = "" :: rest := by
  unfold isAbsolute segments
  cases path.text.toList with
  | nil => simp
  | cons c rest =>
    rw [List.splitOnP_cons_eq_if_modifyHead]
    by_cases hc : c = '/'
    · simp [hc]
    · cases hsplit : rest.splitOnP (· == '/') with
      | nil => simp at hsplit
      | cons first others =>
        simp [hc]

/-- A path follows segments: it takes their steps, from the root or not, and has no
segments but these and empty ones. -/
structure Follows (path : Path) (segments : List String) (absolute : Bool) : Prop where
  steps : path.steps = segments.filter (!isIdle ·)
  absolute : path.isAbsolute = absolute
  known : ∀ segment ∈ path.segments, segment = "" ∨ segment ∈ segments

/-- A path that follows segments follows others with the same steps around them. -/
theorem Follows.widen {path : Path} {segments others : List String} {absolute : Bool}
    (hfollows : Follows path segments absolute)
    (hsteps : segments.filter (!isIdle ·) = others.filter (!isIdle ·))
    (hmem : ∀ segment ∈ segments, segment = "" ∨ segment ∈ others) :
    Follows path others absolute where
  steps := hfollows.steps.trans hsteps
  absolute := hfollows.absolute
  known segment hsegment := by
    rcases hfollows.known segment hsegment with rfl | hsegment
    · exact .inl rfl
    · exact hmem segment hsegment

/-- Segments between slashes, none of them empty in front, are followed by a path that
does not begin at the root. -/
theorem follows_ofSegments {segments : List String}
    (hslash : ∀ segment ∈ segments, '/' ∉ segment.toList) (hfirst : segments.head? ≠ some "") :
    Follows (ofSegments segments) segments false := by
  by_cases hne : segments = []
  · subst hne
    have hempty : (ofSegments []).segments = [""] := by decide
    exact ⟨by decide, by decide, by simp [hempty]⟩
  · have hagain := segments_ofSegments hne hslash
    refine ⟨by rw [steps, hagain], ?_, fun segment hsegment => .inr (hagain ▸ hsegment)⟩
    rw [Bool.eq_false_iff]
    intro habsolute
    obtain ⟨rest, -, hrest⟩ := isAbsolute_iff.mp habsolute
    rw [hagain] at hrest
    exact hfirst (by simp [hrest])

/-- With a slash in front, segments are followed from the root. -/
theorem follows_slash {segments : List String}
    (hslash : ∀ segment ∈ segments, '/' ∉ segment.toList) :
    Follows ⟨"/" ++ (ofSegments segments).text⟩ segments true := by
  by_cases hne : segments = []
  · subst hne
    have hempty : Path.segments ⟨"/" ++ (ofSegments []).text⟩ = ["", ""] := by decide
    exact ⟨by decide, by decide, by simp [hempty]⟩
  · have hparted : Path.segments ⟨"/" ++ (ofSegments segments).text⟩ = "" :: segments := by
      have hslashed := segments_append_slash "" (ofSegments segments).text
      rwa [String.empty_append, segments_ofSegments hne hslash] at hslashed
    refine ⟨?_, isAbsolute_iff.mpr ⟨_, hne, hparted⟩, ?_⟩
    · simp [steps, hparted]
    · simp [hparted]

/-! ## Joining -/

/-- A join lists the segments of the inner path behind those of the outer one; at
most an empty one between them is lost. -/
theorem segments_join (path : Path) {inner : Path} (hinner : inner.isAbsolute = false) :
    ∃ front, front.filter (!isIdle ·) = path.steps ∧
      (∀ segment ∈ front, segment ∈ path.segments) ∧
      (path.join inner).segments = front ++ inner.segments := by
  by_cases hempty : path.text = ""
  · refine ⟨[], ?_, by simp, ?_⟩
    · simp [steps, segments, hempty]
    · simp [join, hinner, hempty]
  by_cases hslash : path.text.toList.getLast? = some '/'
  · obtain ⟨front, hfront⟩ := List.getLast?_eq_some_iff.mp hslash
    have htext : path.text = String.ofList front ++ "/" := by
      apply String.toList_injective
      simp [hfront]
    have hpath : path.segments = Path.segments ⟨String.ofList front⟩ ++ [""] := by
      have hparted := segments_append_slash (String.ofList front) ""
      rw [String.append_empty, ← htext] at hparted
      rw [hparted]
      exact congrArg _ (segments_of_noSlash (by simp))
    refine ⟨Path.segments ⟨String.ofList front⟩, ?_, ?_, ?_⟩
    · simp [steps, hpath]
    · intro segment hsegment
      rw [hpath]
      exact List.mem_append_left _ hsegment
    · have hjoin : path.join inner = ⟨String.ofList front ++ "/" ++ inner.text⟩ := by
        simp [join, hinner, htext]
      rw [hjoin, segments_append_slash]
  · refine ⟨path.segments, rfl, fun _ h => h, ?_⟩
    have hjoin : path.join inner = ⟨path.text ++ "/" ++ inner.text⟩ := by
      simp [join, hinner, hslash, hempty]
    rw [hjoin, segments_append_slash]

theorem isAbsolute_join {path inner : Path} (hinner : inner.isAbsolute = false) :
    (path.join inner).isAbsolute = path.isAbsolute := by
  unfold join
  rw [hinner]
  by_cases hempty : path.text = ""
  · simpa [hempty, isAbsolute] using hinner
  · have hne : path.text.toList ≠ [] := by simpa using hempty
    obtain ⟨c, rest, hchars⟩ := List.exists_cons_of_ne_nil hne
    simp only [Bool.false_eq_true, if_false]
    split <;> simp [isAbsolute, hchars]

/-! ## The path around the last name -/

theorem exists_eq_dropTrailing_append (segments : List String) :
    ∃ tail, segments = dropTrailing segments ++ tail ∧ ∀ segment ∈ tail, isIdle segment := by
  refine ⟨(segments.reverse.takeWhile fun s => (Part.ofSegment? s).isNone).reverse, ?_, ?_⟩
  · rw [dropTrailing, ← List.reverse_append, List.takeWhile_append_dropWhile, List.reverse_reverse]
  · intro segment hsegment
    have hnone := List.all_takeWhile
      (l := segments.reverse) (p := fun s => (Part.ofSegment? s).isNone)
    rw [List.all_eq_true] at hnone
    have := hnone segment (List.mem_reverse.mp hsegment)
    rwa [Option.isNone_iff_eq_none, ofSegment?_eq_none_iff] at this

theorem filter_dropTrailing (segments : List String) :
    (dropTrailing segments).filter (!isIdle ·) = segments.filter (!isIdle ·) := by
  obtain ⟨tail, hsegments, hidle⟩ := exists_eq_dropTrailing_append segments
  have htail : tail.filter (!isIdle ·) = [] := by
    rw [List.filter_eq_nil_iff]
    intro segment hsegment
    simp [hidle segment hsegment]
  calc (dropTrailing segments).filter (!isIdle ·)
      = (dropTrailing segments ++ tail).filter (!isIdle ·) := by
        rw [List.filter_append, htail, List.append_nil]
    _ = segments.filter (!isIdle ·) := by rw [← hsegments]

theorem mem_of_mem_dropTrailing {segments : List String} {segment : String}
    (hsegment : segment ∈ dropTrailing segments) : segment ∈ segments := by
  obtain ⟨tail, hsegments, -⟩ := exists_eq_dropTrailing_append segments
  rw [hsegments]
  exact List.mem_append_left _ hsegment

theorem dropTrailing_append_name {front : List String} {name : String} (hname : IsName name) :
    dropTrailing (front ++ [name]) = front ++ [name] := by
  simp [dropTrailing, hname.ofSegment?]

/-- What is left of a path that does not begin at the root has no empty segment in
front. -/
theorem head?_dropTrailing_ne {path : Path} (hrelative : path.isAbsolute = false) :
    (dropTrailing path.segments).head? ≠ some "" := by
  intro hhead
  obtain ⟨tail, hparted, -⟩ := exists_eq_dropTrailing_append path.segments
  obtain ⟨kept, hkept⟩ := List.head?_eq_some_iff.mp hhead
  have hsingle : kept ++ tail = [] := by
    by_contra hne
    have habsolute := isAbsolute_iff.mpr ⟨kept ++ tail, hne, by rw [hparted, hkept]; rfl⟩
    simp [hrelative] at habsolute
  rw [hkept, List.cons_append, hsingle] at hparted
  rw [hparted] at hhead
  exact absurd hhead (by decide)

/-- Trimming changes neither the steps of a path nor where it begins. -/
theorem follows_trimmed (path : Path) :
    Follows path.trimmed path.segments path.isAbsolute := by
  have hslash : ∀ segment ∈ path.segments, '/' ∉ segment.toList := fun _ =>
    slash_not_mem_of_mem_segments
  obtain ⟨first, others, hsegments⟩ := List.exists_cons_of_ne_nil path.segments_ne_nil
  have hothers : ∀ segment ∈ dropTrailing others, segment ∈ path.segments := by
    intro segment hsegment
    rw [hsegments]
    exact List.mem_cons_of_mem _ (mem_of_mem_dropTrailing hsegment)
  by_cases habsolute : path.isAbsolute = true
  · obtain ⟨rest, -, hrooted⟩ := isAbsolute_iff.mp habsolute
    obtain ⟨rfl, rfl⟩ := List.cons.inj (hsegments.symm.trans hrooted)
    have hpath : path.trimmed = ⟨"/" ++ (ofSegments (dropTrailing others)).text⟩ := by
      cases htrimmed : dropTrailing others with
      | nil => simp [trimmed, habsolute, hsegments, htrimmed, ofSegments]
      | cons => simp [trimmed, habsolute, hsegments, htrimmed, ofSegments]
    rw [hpath, habsolute]
    refine (follows_slash fun segment hsegment => hslash segment (hothers segment hsegment)).widen
      ?_ fun segment hsegment => .inr (hothers segment hsegment)
    rw [filter_dropTrailing, hsegments]
    simp
  · rw [Bool.not_eq_true] at habsolute
    rw [habsolute]
    by_cases hdot : first = "."
    · have hpath : path.trimmed = ofSegments (first :: dropTrailing others) := by
        simp [trimmed, habsolute, hsegments, hdot]
      have hmem : ∀ segment ∈ first :: dropTrailing others, segment ∈ path.segments := by
        intro segment hsegment
        rcases List.mem_cons.mp hsegment with rfl | hsegment
        · simp [hsegments]
        · exact hothers segment hsegment
      rw [hpath]
      refine (follows_ofSegments (fun segment hsegment => hslash segment (hmem segment hsegment))
        (by simp [hdot])).widen ?_ fun segment hsegment => .inr (hmem segment hsegment)
      rw [hsegments, List.filter_cons, List.filter_cons, filter_dropTrailing]
    · have hpath : path.trimmed = ofSegments (dropTrailing path.segments) := by
        simp [trimmed, habsolute, hsegments, hdot]
      rw [hpath]
      exact (follows_ofSegments (fun segment hsegment =>
        hslash segment (mem_of_mem_dropTrailing hsegment)) (head?_dropTrailing_ne habsolute)).widen
          (filter_dropTrailing _) fun segment hsegment => .inr (mem_of_mem_dropTrailing hsegment)

theorem getLast?_parts_of_segments {path : Path} {front : List String} {name : String}
    (hname : IsName name) (hsegments : path.segments = front ++ [name]) :
    path.parts.getLast? = some (.named name) := by
  unfold parts
  split
  · simp [hsegments, hname.ofSegment?, List.getLast?_cons]
  · cases front with
    | nil =>
      simp [hsegments, Part.ofFirst?, hname.notHere, hname.ofSegment?]
    | cons first others =>
      simp [hsegments, hname.ofSegment?]

theorem name?_of_segments {path : Path} {front : List String} {name : String}
    (hname : IsName name) (hsegments : path.segments = front ++ [name]) :
    path.name? = some name := by
  simp [name?, getLast?_parts_of_segments hname hsegments]

/-- The path around a last name has all steps but that name. -/
theorem follows_parent? {path : Path} {front : List String} {name : String}
    (hname : IsName name) (hsegments : path.segments = front ++ [name]) :
    ∃ parent, path.parent? = some parent ∧ Follows parent front path.isAbsolute := by
  have hkept : (dropTrailing path.segments).dropLast = front := by
    rw [hsegments, dropTrailing_append_name hname, List.dropLast_concat]
  have hslash : ∀ segment ∈ front, '/' ∉ segment.toList := fun segment hsegment =>
    slash_not_mem_of_mem_segments (hsegments ▸ List.mem_append_left _ hsegment)
  -- Before trimming, the path around follows the segments in front of the name.
  obtain ⟨raw, hparent, hraw⟩ : ∃ raw : Path, path.parent? = some raw.trimmed ∧
      Follows raw front path.isAbsolute := by
    by_cases habsolute : path.isAbsolute = true
    · obtain ⟨rest, hrest, hrooted⟩ := isAbsolute_iff.mp habsolute
      obtain ⟨others, rfl⟩ : ∃ others, front = "" :: others := by
        cases front with
        | nil => simp_all
        | cons first others => exact ⟨others, by simp_all⟩
      refine ⟨⟨"/" ++ (ofSegments others).text⟩, ?_, ?_⟩
      · simp [parent?, getLast?_parts_of_segments hname hsegments, hkept, habsolute]
      · rw [habsolute]
        exact (follows_slash fun segment hsegment =>
          hslash segment (List.mem_cons_of_mem _ hsegment)).widen (by simp)
            fun segment hsegment => .inr (List.mem_cons_of_mem _ hsegment)
    · rw [Bool.not_eq_true] at habsolute
      have hfirst : front.head? ≠ some "" := by
        intro hhead
        obtain ⟨others, rfl⟩ := List.head?_eq_some_iff.mp hhead
        have := isAbsolute_iff.mpr ⟨others ++ [name], by simp, by simpa using hsegments⟩
        simp [habsolute] at this
      refine ⟨ofSegments front, ?_, ?_⟩
      · simp [parent?, getLast?_parts_of_segments hname hsegments, hkept, habsolute]
      · rw [habsolute]
        exact follows_ofSegments hslash hfirst
  have htrimmed := raw.follows_trimmed
  rw [hraw.absolute] at htrimmed
  exact ⟨raw.trimmed, hparent, htrimmed.widen hraw.steps hraw.known⟩

/-! ## Paths below a root -/

/-- No segment contains the character that ends names. -/
def NoZero (path : Path) : Prop :=
  ∀ segment ∈ path.segments, ∀ c ∈ segment.toList, c.toNat ≠ 0

/-- Nor does a path that follows segments of such a path. -/
theorem NoZero.follows {path other : Path} {segments : List String} {absolute : Bool}
    (hzero : path.NoZero) (hfollows : Follows other segments absolute)
    (hmem : ∀ segment ∈ segments, segment ∈ path.segments) : other.NoZero := by
  intro segment hsegment
  rcases hfollows.known segment hsegment with rfl | hsegment
  · simp
  · exact hzero segment (hmem segment hsegment)

theorem NoZero.any_eq_false {path : Path} (hpath : path.NoZero) :
    path.text.toList.any (·.toNat == 0) = false := by
  rw [List.any_eq_false]
  intro c hc
  cases hslash : c == '/' with
  | true => simp [eq_of_beq hslash]
  | false =>
    obtain ⟨piece, hpiece, hmem⟩ : ∃ piece ∈ path.text.toList.splitOnP (· == '/'), c ∈ piece :=
      Text.exists_mem_splitOnP_iff.mpr ⟨hc, hslash⟩
    have := hpath (String.ofList piece) (List.mem_map_of_mem hpiece) c (by simpa using hmem)
    simpa using this

theorem noZero_of_any_eq_false {path : Path}
    (hzero : path.text.toList.any (·.toNat == 0) = false) : path.NoZero := by
  intro segment hsegment c hc
  obtain ⟨piece, hpiece, rfl⟩ := List.mem_map.mp hsegment
  rw [String.toList_ofList] at hc
  simpa using List.any_eq_false.mp hzero c (Text.exists_mem_splitOnP_iff.mp ⟨piece, hpiece, hc⟩).1

theorem isAbsolute_of_noSlash {text : String} (htext : '/' ∉ text.toList) :
    isAbsolute ⟨text⟩ = false := by
  rw [Bool.eq_false_iff]
  intro habsolute
  obtain ⟨rest, hrest, hsegments⟩ := isAbsolute_iff.mp habsolute
  rw [segments_of_noSlash htext] at hsegments
  simp_all

theorem IsName.isAbsolute_eq_false {name : String} (hname : IsName name) :
    isAbsolute ⟨name⟩ = false :=
  isAbsolute_of_noSlash hname.noSlash

/-- A path that goes down from a root by the given names: it begins where the root
begins, and nothing stands behind its last name. -/
structure IsBelow (path root : Path) (names : List String) : Prop where
  absolute : path.isAbsolute = root.isAbsolute
  steps : path.steps = root.steps ++ names
  last : path.segments.getLast? = names.getLast?
  noZero : path.NoZero

/-- One more name is one more step. -/
theorem isBelow_join {path root : Path} {names : List String} {name : String}
    (habsolute : path.isAbsolute = root.isAbsolute) (hsteps : path.steps = root.steps ++ names)
    (hzero : path.NoZero) (hname : IsName name) :
    IsBelow (path.join ⟨name⟩) root (names ++ [name]) := by
  obtain ⟨front, hfront, hmem, hsegments⟩ := path.segments_join hname.isAbsolute_eq_false
  rw [segments_of_noSlash hname.noSlash] at hsegments
  refine ⟨?_, ?_, by simp [hsegments], ?_⟩
  · rw [isAbsolute_join hname.isAbsolute_eq_false, habsolute]
  · rw [Path.steps, hsegments, List.filter_append, hfront, hsteps]
    simp [hname.not_isIdle]
  · intro segment hsegment
    rw [hsegments, List.mem_append, List.mem_singleton] at hsegment
    rcases hsegment with hsegment | rfl
    · exact hzero segment (hmem segment hsegment)
    · exact hname.noZero

namespace IsBelow

variable {path root : Path} {names : List String} {name : String}

/-- The segments of a path below a root end in its last name. -/
theorem segments_eq (hpath : IsBelow path root (names ++ [name])) (hname : IsName name) :
    ∃ front, path.segments = front ++ [name] ∧
      front.filter (!isIdle ·) = root.steps ++ names := by
  have hlast := hpath.last
  rw [List.getLast?_concat] at hlast
  obtain ⟨front, hfront⟩ := List.getLast?_eq_some_iff.mp hlast
  refine ⟨front, hfront, ?_⟩
  have hsteps := hpath.steps
  rw [Path.steps, hfront, List.filter_append, ← List.append_assoc] at hsteps
  have hlastStep : [name].filter (!isIdle ·) = [name] := by simp [hname.not_isIdle]
  rw [hlastStep] at hsteps
  exact List.append_cancel_right hsteps

theorem name? (hpath : IsBelow path root (names ++ [name])) (hname : IsName name) :
    path.name? = some name := by
  obtain ⟨front, hsegments, -⟩ := hpath.segments_eq hname
  exact name?_of_segments hname hsegments

/-- Another last name makes a path beside the first. -/
theorem withName {other : String} (hpath : IsBelow path root (names ++ [name]))
    (hname : IsName name) (hother : IsName other) :
    IsBelow (path.withName other) root (names ++ [other]) := by
  obtain ⟨front, hsegments, hfront⟩ := hpath.segments_eq hname
  obtain ⟨parent, hparent, hfollows⟩ := follows_parent? hname hsegments
  have hwith : path.withName other = parent.join ⟨other⟩ := by
    simp [Path.withName, hpath.name? hname, hparent]
  rw [hwith]
  refine isBelow_join (hfollows.absolute.trans hpath.absolute) (hfollows.steps.trans hfront) ?_
    hother
  exact hpath.noZero.follows hfollows fun segment hsegment =>
    hsegments ▸ List.mem_append_left _ hsegment

theorem text_ne_empty (hpath : IsBelow path root names) (hne : names ≠ []) : path.text ≠ "" := by
  intro hempty
  have hsteps := hpath.steps
  have : path.steps = [] := by simp [Path.steps, segments, hempty]
  simp_all

end IsBelow

/-- The path that a walk builds on its way down. -/
def down (root : Path) (names : List String) : Path :=
  names.foldl (fun path name => path.join ⟨name⟩) root

theorem down_append (root : Path) (names others : List String) :
    root.down (names ++ others) = (root.down names).down others := by
  simp [down]

private theorem down_spec {names : List String} (hnames : ∀ name ∈ names, IsName name) :
    ∀ {root : Path}, root.NoZero →
      (root.down names).isAbsolute = root.isAbsolute ∧
        (root.down names).steps = root.steps ++ names ∧ (root.down names).NoZero := by
  induction names with
  | nil => intro root hzero; simp [down, hzero]
  | cons name others ih =>
    intro root hzero
    have hname := hnames name List.mem_cons_self
    have hjoin : IsBelow (root.join ⟨name⟩) root [name] := by
      simpa using isBelow_join rfl (List.append_nil _).symm hzero hname
    obtain ⟨habsolute, hsteps, hrest⟩ :=
      ih (fun other hother => hnames other (List.mem_cons_of_mem _ hother)) hjoin.noZero
    refine ⟨habsolute.trans hjoin.absolute, ?_, hrest⟩
    exact hsteps.trans (by rw [hjoin.steps, List.append_assoc, List.singleton_append])

/-- Going down by names leads below. -/
theorem isBelow_down {root : Path} {names : List String} (hzero : root.NoZero)
    (hne : names ≠ []) (hnames : ∀ name ∈ names, IsName name) :
    IsBelow (root.down names) root names := by
  obtain ⟨front, name, rfl⟩ := exists_append_singleton hne
  have hfront : ∀ other ∈ front, IsName other := fun other hother =>
    hnames other (List.mem_append_left _ hother)
  obtain ⟨habsolute, hsteps, hdown⟩ := down_spec hfront hzero
  rw [down_append]
  exact isBelow_join habsolute hsteps hdown (hnames name (by simp))

end Path

end Deadwood
