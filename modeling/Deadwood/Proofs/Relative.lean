/-
# Paths relative to a root

What is shown of a file is its path behind a root, with slashes for backslashes. Where
there is no backslash to be replaced, the shown path leads from the root to where the
path leads. Both have the same steps, and a look-up of a path that ends with a name
depends on nothing else.
-/

import Deadwood.Proofs.Disk.Ends
import Deadwood.Proofs.Parts

namespace Deadwood

open Deadwood.Path (IsName isIdle)

namespace Path

variable {path root rel : Path} {segments : List String} {segment : String}

/-- The text of a part is the segment that it was. -/
theorem text_of_ofSegment? {part : Part} (hpart : Part.ofSegment? segment = some part) :
    part.text = segment := by
  unfold Part.ofSegment? at hpart
  split at hpart
  · simp at hpart
  · split at hpart
    · rename_i hup
      rw [← Option.some.inj hpart, eq_of_beq hup]
      rfl
    · rw [← Option.some.inj hpart]
      rfl

/-- The steps of a path can be told from its parts. -/
theorem map_text_steps (path : Path) :
    (path.steps.filterMap Part.ofSegment?).map Part.text = path.steps := by
  have hstep : ∀ segment ∈ path.steps, (Part.ofSegment? segment).map Part.text = some segment := by
    intro segment hsegment
    have hidle : isIdle segment = false := by simpa [steps] using (List.mem_filter.mp hsegment).2
    cases hpart : Part.ofSegment? segment with
    | none =>
      rw [ofSegment?_eq_none_iff.mp hpart] at hidle
      exact absurd hidle (by decide)
    | some part => rw [Option.map_some, text_of_ofSegment? hpart]
  rw [List.map_filterMap, List.filterMap_congr hstep, List.filterMap_some]

theorem length_filterMap_steps (path : Path) :
    (path.steps.filterMap Part.ofSegment?).length = path.steps.length := by
  have hlength := congrArg List.length (map_text_steps path)
  rwa [List.length_map] at hlength

theorem filter_dropParts (count : Nat) (segments : List String) :
    (dropParts count segments).filter (!isIdle ·) =
      (segments.filter (!isIdle ·)).drop count := by
  induction segments generalizing count with
  | nil => cases count <;> simp [dropParts]
  | cons segment segments ih =>
    cases count with
    | zero => rfl
    | succ count =>
      cases hpart : Part.ofSegment? segment with
      | none =>
        have hidle := ofSegment?_eq_none_iff.mp hpart
        simp [dropParts, hpart, hidle, ih]
      | some part =>
        have hidle : isIdle segment = false := by
          rw [← Bool.not_eq_true]
          intro hidle
          rw [ofSegment?_eq_none_iff.mpr hidle] at hpart
          simp at hpart
        simp [dropParts, hpart, hidle, ih]

theorem mem_of_mem_dropParts {count : Nat} (hsegment : segment ∈ dropParts count segments) :
    segment ∈ segments := by
  induction segments generalizing count with
  | nil => cases count <;> simp [dropParts] at hsegment
  | cons first segments ih =>
    cases count with
    | zero => exact hsegment
    | succ count =>
      rw [dropParts] at hsegment
      split at hsegment
      · exact List.mem_cons_of_mem _ (ih hsegment)
      · exact List.mem_cons_of_mem _ (ih hsegment)

/-- Of segments without idle ones at their end the last is a step. -/
theorem getLast?_dropTrailing (segments : List String) :
    (dropTrailing segments).getLast? = ((dropTrailing segments).filter (!isIdle ·)).getLast? := by
  rw [dropTrailing, List.filter_reverse, List.getLast?_reverse, List.getLast?_reverse]
  cases hkept : segments.reverse.dropWhile fun s => (Part.ofSegment? s).isNone with
  | nil => rfl
  | cons last others =>
    have hhead := List.head?_dropWhile_not (fun s => (Part.ofSegment? s).isNone) segments.reverse
    rw [hkept, List.head?_cons] at hhead
    have hidle : isIdle last = false := by
      rw [← Bool.not_eq_true, ← ofSegment?_eq_none_iff]
      intro hnone
      simp [hnone] at hhead
    simp [hidle]

/-- Idle segments in front are no steps, and what is left begins with a step. -/
theorem dropWhile_idle (segments : List String) :
    (segments.dropWhile fun s => (Part.ofSegment? s).isNone).filter (!isIdle ·) =
        segments.filter (!isIdle ·) ∧
      ∀ first ∈ (segments.dropWhile fun s => (Part.ofSegment? s).isNone).head?,
        isIdle first = false := by
  induction segments with
  | nil => simp
  | cons segment segments ih =>
    cases hidle : isIdle segment with
    | true => simpa [ofSegment?_eq_none_iff.mpr hidle, hidle] using ih
    | false =>
      have hpart : (Part.ofSegment? segment).isNone = false := by
        rw [← Bool.not_eq_true, Option.isNone_iff_eq_none, ofSegment?_eq_none_iff, hidle]
        exact Bool.false_ne_true
      simp [hpart, hidle]

/-- What stands behind an absolute path has the steps that are missing there. -/
theorem relativeTo?_spec (hroot : root.isAbsolute = true) (hpath : path.isAbsolute = true)
    (hrel : path.relativeTo? root = some rel) :
    path.steps = root.steps ++ rel.steps ∧ rel.isAbsolute = false ∧
      (rel.steps ≠ [] → rel.segments.getLast? = rel.steps.getLast?) := by
  rw [relativeTo?] at hrel
  split at hrel
  · rename_i hstarts
    rw [startsWith_iff, parts_of_isAbsolute hroot, parts_of_isAbsolute hpath,
      List.cons_prefix_cons] at hstarts
    have hprefix := hstarts.2.map Part.text
    rw [map_text_steps, map_text_steps] at hprefix
    obtain ⟨missing, hmissing⟩ := hprefix
    rw [parts_of_isAbsolute hroot] at hrel
    dsimp only at hrel
    rw [length_filterMap_steps] at hrel
    obtain ⟨hsteps, hfirst⟩ := dropWhile_idle (dropParts root.steps.length path.segments)
    rw [filter_dropParts, ← steps, ← hmissing, List.drop_left] at hsteps
    have hmem := fun segment => @List.dropWhile_subset _ (dropParts root.steps.length path.segments)
      (fun s => (Part.ofSegment? s).isNone) segment
    generalize (dropParts root.steps.length path.segments).dropWhile
      (fun s => (Part.ofSegment? s).isNone) = rest at hrel hsteps hfirst hmem
    have hslash : ∀ segment ∈ dropTrailing rest, '/' ∉ segment.toList := fun segment hsegment =>
      slash_not_mem_of_mem_segments
        (mem_of_mem_dropParts (hmem segment (mem_of_mem_dropTrailing hsegment)))
    have hhead : (dropTrailing rest).head? ≠ some "" := by
      intro hhead
      obtain ⟨kept, hkept⟩ := List.head?_eq_some_iff.mp hhead
      obtain ⟨tail, htail, -⟩ := exists_eq_dropTrailing_append rest
      have hidle := hfirst "" (by rw [htail, hkept]; rfl)
      exact absurd hidle (by decide)
    obtain ⟨hown, hrelative, -⟩ := follows_ofSegments hslash hhead
    obtain rfl := Option.some.inj hrel
    rw [hown, filter_dropTrailing, hsteps, ← hmissing]
    refine ⟨rfl, hrelative, fun hne => ?_⟩
    have hsegments : dropTrailing rest ≠ [] := by
      intro hnone
      rw [← hsteps, ← filter_dropTrailing, hnone] at hne
      exact hne rfl
    rw [segments_ofSegments hsegments hslash, getLast?_dropTrailing, filter_dropTrailing, hsteps]
  · simp at hrel

/-- What is shown of a path is the path behind the root exactly if that has no
backslash. -/
theorem shownIn_eq_iff (path root : Path) :
    path.shownIn root = ((path.relativeTo? root).getD path).text ↔
      '\\' ∉ ((path.relativeTo? root).getD path).text.toList := by
  rw [shownIn]
  generalize ((path.relativeTo? root).getD path).text = text
  constructor
  · intro hsame hmem
    rw [← hsame, String.toList_ofList, List.mem_map] at hmem
    obtain ⟨c, -, hc⟩ := hmem
    split at hc
    · simp at hc
    · contradiction
  · intro hplain
    have hkept : ∀ c ∈ text.toList, (if c = '\\' then '/' else c) = id c := by
      intro c hc
      rw [if_neg (by rintro rfl; exact hplain hc)]
      rfl
    rw [List.map_congr_left hkept, List.map_id, String.ofList_toList]

end Path

namespace Disk

variable {disk : Disk} {path other : Path} {here inner location : Location} {bytes : ByteArray}

theorem steps_ne_nil_of_find (hfind : disk.find path = .ok (location, .file bytes)) :
    path.steps ≠ [] := by
  obtain ⟨-, -, hlookUp⟩ := place_eq_ok_iff.mp (find_eq_ok_iff_place.mp hfind)
  obtain ⟨name, hidle, -, hname, -⟩ := getLast?_of_lookUp hlookUp (.inr ⟨bytes, rfl⟩)
  exact List.ne_nil_of_mem (List.mem_filter.mpr ⟨List.mem_of_getLast? hname, by simp [hidle]⟩)

/-- The path of a file can be replaced by one with the same steps, if that does not go
on behind its last step. -/
theorem find_of_steps (hfind : disk.find path = .ok (location, .file bytes))
    (habsolute : other.isAbsolute = path.isAbsolute) (hsteps : other.steps = path.steps)
    (hlast : other.segments.getLast? = other.steps.getLast?) :
    disk.find other = .ok (location, .file bytes) := by
  rw [find_eq_ok_iff_place, place_eq_ok_iff] at hfind ⊢
  obtain ⟨-, hzero, hlookUp⟩ := hfind
  obtain ⟨name, hidle, -, hname, -⟩ := getLast?_of_lookUp hlookUp (.inr ⟨bytes, rfl⟩)
  have hend : other.segments.getLast? = some name := by
    obtain ⟨front, hfront⟩ := List.getLast?_eq_some_iff.mp hname
    rw [hlast, hsteps, Path.steps, hfront, List.filter_append]
    simp [hidle]
  refine ⟨?_, ?_, ?_⟩
  · intro hempty
    obtain rfl : "" = name := by simpa [Path.segments, hempty] using hend
    simp at hidle
  · apply Path.NoZero.any_eq_false
    intro segment hsegment
    cases hstep : isIdle segment with
    | false =>
      have hmem : segment ∈ other.steps := List.mem_filter.mpr ⟨hsegment, by simp [hstep]⟩
      rw [hsteps] at hmem
      exact Path.noZero_of_any_eq_false hzero segment (List.mem_of_mem_filter hmem)
    | true =>
      rcases (by simpa [isIdle] using hstep : segment = "" ∨ segment = ".") with rfl | rfl <;> simp
  · rwa [habsolute, lookUp_filter hend hidle, ← Path.steps, hsteps, Path.steps,
      ← lookUp_filter hname hidle]

/-- A file is found from the root by what is shown of it, if that has no backslash to
show. -/
theorem find_join_shownIn (hhere : ∀ name ∈ here, IsName name)
    (hroot : disk.LeadsInto (.ofLocation here) inner) (hpath : path.isAbsolute = true)
    (hplain : '\\' ∉ ((path.relativeTo? (.ofLocation here)).getD path).text.toList)
    (hfind : disk.find path = .ok (location, .file bytes)) :
    disk.find ((Path.ofLocation here).join ⟨path.shownIn (.ofLocation here)⟩) =
      .ok (location, .file bytes) := by
  rw [(Path.shownIn_eq_iff path (.ofLocation here)).mpr hplain]
  cases hrel : path.relativeTo? (.ofLocation here) with
  | none =>
    rwa [Option.getD_none, Path.join, if_pos hpath]
  | some rel =>
    have habsolute := Path.isAbsolute_ofLocation here
    obtain ⟨hsteps, hrelative, hlast⟩ := Path.relativeTo?_spec habsolute hpath hrel
    have hne : rel.steps ≠ [] := by
      -- Otherwise the root would lead to the file.
      intro hnone
      rw [hnone, List.append_nil, Path.steps_ofLocation hhere] at hsteps
      have hne : here ≠ [] := hsteps ▸ steps_ne_nil_of_find hfind
      have hfile : disk.find (.ofLocation here) = .ok (location, .file bytes) := by
        refine find_of_steps hfind (habsolute.trans hpath.symm) ?_ ?_
        · rw [Path.steps_ofLocation hhere, hsteps]
        · rw [Path.segments_ofLocation hne hhere, Path.steps_ofLocation hhere,
            List.getLast?_cons_of_ne_nil hne]
      have hlookUp := (place_eq_ok_iff.mp (find_eq_ok_iff_place.mp hfile)).2.2
      have hsame := hroot.symm.trans hlookUp
      simp at hsame
    refine find_of_steps hfind ?_ ?_ ?_
    · rw [Option.getD_some, Path.isAbsolute_join hrelative, habsolute, hpath]
    · rw [Option.getD_some, Path.steps_join _ hrelative, hsteps]
    · obtain ⟨front, -, -, hsegments⟩ := (Path.ofLocation here).segments_join hrelative
      rw [Option.getD_some, hsegments, Path.steps_join _ hrelative,
        List.getLast?_append_of_ne_nil _ rel.segments_ne_nil, List.getLast?_append_of_ne_nil _ hne,
        hlast hne]

end Disk

end Deadwood
