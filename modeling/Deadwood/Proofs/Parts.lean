/-
# Parts of absolute paths

Paths are compared by their parts, and the parts of an absolute path are told by
its steps. This module computes them for what is put inside the path of a location,
and says which paths the path of a location begins with: those that mean a location
around it, or that location itself.
-/

import Deadwood.Proofs.Shown
import Mathlib.Data.List.Basic

namespace Deadwood.Path

variable {path inner front : Path} {here location : Location} {names : List String}

/-! ## Parts and steps -/

theorem filterMap_ofSegment?_filter (segments : List String) :
    (segments.filter (!isIdle ·)).filterMap Part.ofSegment? =
      segments.filterMap Part.ofSegment? := by
  rw [List.filterMap_filter]
  apply List.filterMap_congr
  intro segment _
  by_cases hidle : isIdle segment = true
  · simp [hidle, ofSegment?_eq_none_iff.mpr hidle]
  · simp [hidle]

theorem parts_of_isAbsolute (habsolute : path.isAbsolute = true) :
    path.parts = .root :: path.steps.filterMap Part.ofSegment? := by
  rw [parts, if_pos habsolute, steps, filterMap_ofSegment?_filter]

theorem filterMap_ofSegment?_of_names (hnames : ∀ name ∈ names, IsName name) :
    names.filterMap Part.ofSegment? = names.map .named := by
  rw [← List.filterMap_eq_map]
  apply List.filterMap_congr
  intro name hname
  exact (hnames name hname).ofSegment?

/-- Names between slashes are parts. -/
theorem parts_ofSegments (hnames : ∀ name ∈ names, IsName name) :
    (ofSegments names).parts = names.map .named := by
  cases names with
  | nil => decide
  | cons first others =>
    have hfirst := hnames first List.mem_cons_self
    have hslash : ∀ name ∈ first :: others, '/' ∉ name.toList := fun name hname =>
      (hnames name hname).noSlash
    have hrelative := (follows_ofSegments hslash (by simpa using hfirst.notEmpty)).absolute
    have hothers := filterMap_ofSegment?_of_names fun name hname =>
      hnames name (List.mem_cons_of_mem first hname)
    rw [parts, if_neg (by simp [hrelative]), segments_ofSegments (by simp) hslash]
    simp [Part.ofFirst?, hfirst.notHere, hfirst.ofSegment?, hothers]

theorem eq_of_ofSegment? {segment name : String}
    (hpart : Part.ofSegment? segment = some (.named name)) : segment = name := by
  unfold Part.ofSegment? at hpart
  split at hpart
  · simp at hpart
  · split at hpart
    · simp at hpart
    · simpa using hpart

/-- A name is one of the segments. -/
theorem mem_segments_of_named {name : String} (hpart : .named name ∈ path.parts) :
    name ∈ path.segments := by
  have hothers (segments : List String)
      (hmem : .named name ∈ segments.filterMap Part.ofSegment?) : name ∈ segments := by
    obtain ⟨segment, hsegment, hname⟩ := List.mem_filterMap.mp hmem
    exact eq_of_ofSegment? hname ▸ hsegment
  unfold parts at hpart
  split at hpart
  · exact hothers _ (by simpa using hpart)
  · split at hpart
    · simp at hpart
    · rename_i first others hsegments
      rw [hsegments]
      rcases List.mem_append.mp hpart with hfirst | hpart
      · rw [Option.mem_toList, Part.ofFirst?] at hfirst
        split at hfirst
        · simp at hfirst
        · exact List.mem_cons.mpr (.inl (eq_of_ofSegment? hfirst).symm)
      · exact List.mem_cons_of_mem _ (hothers others hpart)

theorem mem_segments_of_name? {name : String} (hname : path.name? = some name) :
    name ∈ path.segments := by
  unfold name? at hname
  split at hname
  · rename_i last hlast
    obtain rfl := Option.some.inj hname
    exact mem_segments_of_named (List.mem_of_getLast? hlast)
  · simp at hname

theorem steps_join (path : Path) (hinner : inner.isAbsolute = false) :
    (path.join inner).steps = path.steps ++ inner.steps := by
  obtain ⟨segments, hsteps, -, hjoin⟩ := path.segments_join hinner
  rw [steps, hjoin, List.filter_append, hsteps]
  rfl

/-- What is put inside the path of a location has the parts of both. -/
theorem parts_join_ofLocation (hhere : ∀ name ∈ here, IsName name)
    (hinner : inner.isAbsolute = false) :
    ((ofLocation here).join inner).parts =
      (ofLocation here).parts ++ inner.steps.filterMap Part.ofSegment? := by
  have habsolute : ((ofLocation here).join inner).isAbsolute = true := by
    rw [isAbsolute_join hinner, isAbsolute_ofLocation]
  rw [parts_of_isAbsolute habsolute, steps_join _ hinner, steps_ofLocation hhere,
    List.filterMap_append, filterMap_ofSegment?_of_names hhere, parts_ofLocation hhere,
    List.cons_append]

/-! ## What a path begins with -/

theorem startsWith_iff : path.startsWith front = true ↔ front.parts <+: path.parts := by
  rw [startsWith, List.isPrefixOf_iff_prefix]

theorem startsWith_congr {other : Path} (hsame : front.isSame other = true) (path : Path) :
    path.startsWith front = path.startsWith other := by
  rw [isSame, beq_iff_eq] at hsame
  rw [startsWith, startsWith, hsame]

theorem isSame_congr {other : Path} (hsame : front.isSame other = true) (path : Path) :
    front.isSame path = other.isSame path := by
  rw [isSame, beq_iff_eq] at hsame
  rw [isSame, isSame, hsame]

/-- The path of a location begins with what means a location around it, or that
location itself. -/
theorem startsWith_ofLocation_iff (hfront : front.isAbsolute = true)
    (hlocation : ∀ name ∈ location, IsName name) :
    (ofLocation location).startsWith front = true ↔
      ∃ outer, outer <+: location ∧ front.isSame (ofLocation outer) = true := by
  rw [startsWith_iff, parts_ofLocation hlocation]
  constructor
  · rintro ⟨back, hback⟩
    rw [parts_of_isAbsolute hfront, List.cons_append, List.cons.injEq] at hback
    obtain ⟨outer, rest, rfl, houter, -⟩ := List.append_eq_map_iff.mp hback.2
    refine ⟨outer, List.prefix_append outer rest, ?_⟩
    have hnames : ∀ name ∈ outer, IsName name := fun name hname =>
      hlocation name (List.mem_append_left _ hname)
    rw [isSame, beq_iff_eq, parts_of_isAbsolute hfront, parts_ofLocation hnames, houter]
  · rintro ⟨outer, ⟨rest, rfl⟩, hsame⟩
    have hnames : ∀ name ∈ outer, IsName name := fun name hname =>
      hlocation name (List.mem_append_left _ hname)
    rw [isSame, beq_iff_eq, parts_ofLocation hnames] at hsame
    rw [hsame, List.map_append, ← List.cons_append]
    exact List.prefix_append _ _

end Deadwood.Path
