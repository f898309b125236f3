/-
# Paths of locations and paths as shown

Every location has one path from the root of all paths, its names between
slashes. Scans work with these paths, show them relative to the root of their
project, and find the files again by what they showed.

The main statement is that this goes well for names without a backslash. A
backslash is shown as a slash, so a name that has one is taken for several.
-/

import Deadwood.Discovery
import Deadwood.Proofs.Path

namespace Deadwood

namespace Path

/-- The path of a location. -/
def ofLocation (location : Location) : Path :=
  ⟨"/" ++ "/".intercalate location⟩

section

variable {location here : Location} {names : List String}

private theorem noSlash_of_names (hnames : ∀ name ∈ names, IsName name) :
    ∀ name ∈ names, '/' ∉ name.toList :=
  fun name hname => (hnames name hname).noSlash

theorem segments_ofLocation (hne : location ≠ []) (hnames : ∀ name ∈ location, IsName name) :
    (ofLocation location).segments = "" :: location := by
  have hparted := segments_append_slash "" ("/".intercalate location)
  rw [String.empty_append] at hparted
  rw [ofLocation, hparted, segments_of_noSlash (by simp)]
  exact congrArg _ (segments_ofSegments hne (noSlash_of_names hnames))

theorem segments_ofLocation_nil : (ofLocation []).segments = ["", ""] := by decide

theorem isAbsolute_ofLocation (location : Location) : (ofLocation location).isAbsolute = true := by
  simp [isAbsolute, ofLocation]

theorem steps_ofLocation (hnames : ∀ name ∈ location, IsName name) :
    (ofLocation location).steps = location := by
  by_cases hne : location = []
  · subst hne
    decide
  · rw [steps, segments_ofLocation hne hnames]
    simp only [List.filter_cons, isIdle_empty, Bool.not_true, Bool.false_eq_true, if_false]
    rw [List.filter_eq_self]
    intro name hname
    simp [(hnames name hname).not_isIdle]

/-- Locations made of names differ in their paths. -/
theorem ofLocation_inj {other : Location} (hlocation : ∀ name ∈ location, IsName name)
    (hother : ∀ name ∈ other, IsName name) (hsame : ofLocation location = ofLocation other) :
    location = other := by
  rw [← steps_ofLocation hlocation, hsame, steps_ofLocation hother]

theorem noZero_ofLocation (hnames : ∀ name ∈ location, IsName name) :
    (ofLocation location).NoZero := by
  intro segment hsegment
  by_cases hne : location = []
  · subst hne
    rw [segments_ofLocation_nil] at hsegment
    simp_all
  · rw [segments_ofLocation hne hnames] at hsegment
    rcases List.mem_cons.mp hsegment with rfl | hsegment
    · simp
    · exact (hnames segment hsegment).noZero

private theorem getLast?_text_ofLocation (hne : location ≠ [])
    (hnames : ∀ name ∈ location, IsName name) :
    (ofLocation location).text.toList.getLast? ≠ some '/' := by
  obtain ⟨front, name, rfl⟩ := exists_append_singleton hne
  have hname := hnames name (by simp)
  have hend : ∃ before, (ofLocation (front ++ [name])).text = before ++ name := by
    by_cases hfront : front = []
    · exact ⟨"/", by simp [ofLocation, hfront]⟩
    · refine ⟨"/" ++ "/".intercalate front ++ "/", ?_⟩
      rw [ofLocation, String.intercalate_append_of_ne_nil hfront (by simp)]
      simp [String.append_assoc]
  obtain ⟨before, hbefore⟩ := hend
  have hchars : name.toList ≠ [] := by simpa using hname.notEmpty
  obtain ⟨start, c, hc⟩ := exists_append_singleton hchars
  rw [hbefore, String.toList_append, hc, ← List.append_assoc, List.getLast?_concat]
  rintro ⟨rfl⟩
  exact hname.noSlash (by simp [hc])

private theorem isAbsolute_intercalate (hne : names ≠ [])
    (hnames : ∀ name ∈ names, IsName name) : isAbsolute ⟨"/".intercalate names⟩ = false := by
  refine (follows_ofSegments (noSlash_of_names hnames) ?_).absolute
  obtain ⟨first, others, rfl⟩ := List.exists_cons_of_ne_nil hne
  simpa using (hnames first List.mem_cons_self).notEmpty

/-- A relative path inside the path of a location leads to the location below. -/
theorem join_ofLocation (hhere : ∀ name ∈ here, IsName name) (hne : names ≠ [])
    (hnames : ∀ name ∈ names, IsName name) :
    (ofLocation here).join ⟨"/".intercalate names⟩ = ofLocation (here ++ names) := by
  have hinner := isAbsolute_intercalate hne hnames
  by_cases hroot : here = []
  · subst hroot
    simp [join, hinner, ofLocation]
  · have hslash := getLast?_text_ofLocation hroot hhere
    have htext : (ofLocation here).text ≠ "" := by simp [ofLocation]
    simp only [join, hinner, Bool.false_eq_true, if_false, String.isEmpty_iff, htext, hslash,
      Bool.or_eq_true, beq_iff_eq, or_self]
    simp [ofLocation, String.intercalate_append_of_ne_nil hroot hne, String.append_assoc]

theorem down_ofLocation (hhere : ∀ name ∈ here, IsName name)
    (hnames : ∀ name ∈ names, IsName name) :
    (ofLocation here).down names = ofLocation (here ++ names) := by
  induction names generalizing here with
  | nil => simp [down]
  | cons name others ih =>
    have hname := hnames name List.mem_cons_self
    have hjoin : (ofLocation here).join ⟨name⟩ = ofLocation (here ++ [name]) := by
      simpa using join_ofLocation hhere (List.cons_ne_nil name []) (by simpa using hname)
    have hthere : ∀ other ∈ here ++ [name], IsName other := by
      intro other hother
      rcases List.mem_append.mp hother with hother | hother
      · exact hhere other hother
      · rwa [List.mem_singleton.mp hother]
    calc (ofLocation here).down (name :: others)
        = ((ofLocation here).join ⟨name⟩).down others := rfl
      _ = (ofLocation (here ++ [name])).down others := by rw [hjoin]
      _ = ofLocation (here ++ (name :: others)) := by
        rw [ih hthere fun other hother => hnames other (List.mem_cons_of_mem _ hother)]
        simp

theorem isBelow_ofLocation (hne : names ≠ []) (hhere : ∀ name ∈ here, IsName name)
    (hnames : ∀ name ∈ names, IsName name) :
    IsBelow (ofLocation (here ++ names)) (ofLocation here) names := by
  rw [← down_ofLocation hhere hnames]
  exact isBelow_down (noZero_ofLocation hhere) hne hnames

/-! ## Parts -/

theorem parts_ofLocation (hnames : ∀ name ∈ location, IsName name) :
    (ofLocation location).parts = .root :: location.map .named := by
  have hparts : ∀ {names : List String}, (∀ name ∈ names, IsName name) →
      names.filterMap Part.ofSegment? = names.map .named := by
    intro names hnames
    induction names with
    | nil => rfl
    | cons name others ih =>
      rw [List.filterMap_cons, (hnames name List.mem_cons_self).ofSegment?]
      simp [ih fun other hother => hnames other (List.mem_cons_of_mem _ hother)]
  rw [parts, isAbsolute_ofLocation, if_pos rfl]
  by_cases hne : location = []
  · subst hne
    decide
  · rw [segments_ofLocation hne hnames, List.filterMap_cons]
    simp [ofSegment?_eq_none_iff.mpr isIdle_empty, hparts hnames]

theorem isSame_trans {a b c : Path} (hab : a.isSame b = true) (hbc : b.isSame c = true) :
    a.isSame c = true := by
  rw [isSame, beq_iff_eq] at *
  exact hab.trans hbc

/-- Paths of locations are the same only if the locations are. -/
theorem isSame_ofLocation_iff {other : Location} (hlocation : ∀ name ∈ location, IsName name)
    (hother : ∀ name ∈ other, IsName name) :
    (ofLocation location).isSame (ofLocation other) = true ↔ location = other := by
  rw [isSame, parts_ofLocation hlocation, parts_ofLocation hother, beq_iff_eq, List.cons.injEq]
  simp only [true_and]
  exact List.map_inj_right fun _ _ h => by simpa using h

/-! ## Showing -/

theorem dropParts_append (hhere : ∀ name ∈ here, IsName name) (names : List String) :
    dropParts here.length (here ++ names) = names := by
  induction here with
  | nil => simp [dropParts]
  | cons name others ih =>
    have hname := (hhere name List.mem_cons_self).ofSegment?
    simp [dropParts, hname, ih fun other hother => hhere other (List.mem_cons_of_mem _ hother)]

/-- What stands behind the path of a location are the names from there. -/
theorem relativeTo?_ofLocation (hhere : ∀ name ∈ here, IsName name) (hne : names ≠ [])
    (hnames : ∀ name ∈ names, IsName name) :
    (ofLocation (here ++ names)).relativeTo? (ofLocation here) = some (ofSegments names) := by
  have hall : ∀ name ∈ here ++ names, IsName name := fun name hname =>
    (List.mem_append.mp hname).elim (hhere name) (hnames name)
  have hstarts : (ofLocation (here ++ names)).startsWith (ofLocation here) = true := by
    rw [startsWith, parts_ofLocation hhere, parts_ofLocation hall, List.map_append,
      ← List.cons_append]
    exact List.isPrefixOf_iff_prefix.mpr (List.prefix_append _ _)
  have hsegments : (ofLocation (here ++ names)).segments = "" :: (here ++ names) :=
    segments_ofLocation (by simp [hne]) hall
  have hempty : Part.ofSegment? "" = none := ofSegment?_eq_none_iff.mpr isIdle_empty
  obtain ⟨first, others, rfl⟩ := List.exists_cons_of_ne_nil hne
  have hfirst := (hnames first List.mem_cons_self).ofSegment?
  have hrest : (dropParts here.length ("" :: (here ++ first :: others))).dropWhile
      (fun s => (Part.ofSegment? s).isNone) = first :: others := by
    cases hhere' : here with
    | nil => simp [dropParts, hempty, hfirst]
    | cons name more =>
      have hdrop := dropParts_append hhere (first :: others)
      rw [hhere', List.length_cons, List.cons_append] at hdrop
      rw [List.length_cons, dropParts]
      simp [hempty, hdrop, hfirst]
  have hkept : dropTrailing (first :: others) = first :: others := by
    obtain ⟨front, last, hlast⟩ := exists_append_singleton (List.cons_ne_nil first others)
    rw [hlast]
    exact dropTrailing_append_name (hnames last (by simp [hlast]))
  rw [relativeTo?, if_pos hstarts, parts_ofLocation hhere]
  simp [hsegments, hrest, hkept]

/-- Names without a backslash are shown as they are. -/
theorem shownIn_ofLocation (hhere : ∀ name ∈ here, IsName name) (hne : names ≠ [])
    (hnames : ∀ name ∈ names, IsName name) (hplain : ∀ name ∈ names, '\\' ∉ name.toList) :
    (ofLocation (here ++ names)).shownIn (ofLocation here) = "/".intercalate names := by
  rw [shownIn, relativeTo?_ofLocation hhere hne hnames, Option.getD_some, ofSegments]
  have hsame : ∀ c ∈ ("/".intercalate names).toList, (if c = '\\' then '/' else c) = c := by
    intro c hc
    rw [if_neg]
    rintro rfl
    obtain ⟨piece, hpiece, hmem⟩ :
        ∃ piece ∈ ("/".intercalate names).toList.splitOnP (· == '/'), '\\' ∈ piece :=
      Text.exists_mem_splitOnP_iff.mpr ⟨hc, rfl⟩
    have hname : String.ofList piece ∈ names := by
      rw [← segments_ofSegments hne (noSlash_of_names hnames)]
      exact List.mem_map_of_mem hpiece
    exact hplain _ hname (by simpa using hmem)
  rw [List.map_congr_left hsame, List.map_id', String.ofList_toList]

end

end Path

/-- A file is found again by what was shown of it, if no name on the way to it has
a backslash. -/
theorem Sources.resolve_shown {sources : Sources} {here : Location} {names : List String}
    (hroot : sources.root = .ofLocation here) (hhere : ∀ name ∈ here, Path.IsName name)
    (hne : names ≠ []) (hnames : ∀ name ∈ names, Path.IsName name)
    (hplain : ∀ name ∈ names, '\\' ∉ name.toList) :
    sources.resolve (sources.shown (.ofLocation (here ++ names))) =
      .ofLocation (here ++ names) := by
  rw [resolve, shown, hroot, Path.shownIn_ofLocation hhere hne hnames hplain]
  exact Path.join_ofLocation hhere hne hnames

end Deadwood
