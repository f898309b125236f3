/-
# Paths of backups

A backup stands beside its file, so its path is that of the file with another last name.
Changing the last name leaves out what a path has too much at its end: segments that stand
for no part right before the name, and all of them behind it. So a path is given back by its
parts, and letter by letter if nothing is left out.

A name may hold the mark of backups and digits itself. Only the last mark counts, since
digits alone follow it.
-/

import Deadwood.Proofs.Fix.Naming
import Deadwood.Proofs.Relative
import Mathlib.Data.List.DropRight

namespace Deadwood

namespace Path

variable {path inner : Path} {front segments : List String} {name other last : String}

/-! ## Paths by their segments -/

theorem ofSegments_segments (path : Path) : ofSegments path.segments = path := by
  obtain ⟨text⟩ := path
  have htext : (ofSegments (segments ⟨text⟩)).text = text := by
    apply String.toList_injective
    rw [ofSegments, String.toList_intercalate, segments, List.map_map]
    simp [← List.splitOn_eq_splitOnP, Function.comp_def]
  exact congrArg Path.mk htext

/-- A path ends with its last segment. -/
theorem text_of_segments (hsegments : path.segments = front ++ [last]) (hne : front ≠ []) :
    path.text = (ofSegments front).text ++ "/" ++ last := by
  have hpath := path.ofSegments_segments
  rw [hsegments] at hpath
  rw [← hpath, ofSegments, String.intercalate_append_of_ne_nil hne (by simp)]
  simp [ofSegments]

/-- The segments of a path that a join keeps: all but an empty one at the end. -/
def base (path : Path) : List String :=
  if path.segments.getLast? = some "" then path.segments.dropLast else path.segments

theorem segments_join_eq (path : Path) (hinner : inner.isAbsolute = false) :
    (path.join inner).segments = path.base ++ inner.segments := by
  rw [base]
  obtain ⟨front, last, hsegments⟩ := exists_append_singleton path.segments_ne_nil
  have hslash : ∀ segment ∈ front ++ [last], '/' ∉ segment.toList := fun segment hsegment =>
    slash_not_mem_of_mem_segments (hsegments ▸ hsegment)
  by_cases hlast : last = ""
  · subst hlast
    rw [if_pos (by simp [hsegments]), hsegments, List.dropLast_concat]
    by_cases hfront : front = []
    · subst hfront
      have htext : path.text = "" := by
        rw [← path.ofSegments_segments, hsegments]
        rfl
      simp [join, hinner, htext]
    · have htext := text_of_segments hsegments hfront
      have hjoin : path.join inner = ⟨(ofSegments front).text ++ "/" ++ inner.text⟩ := by
        simp [join, hinner, htext]
      rw [hjoin, segments_append_slash, segments_ofSegments hfront fun segment hsegment =>
        hslash segment (List.mem_append_left _ hsegment)]
  · rw [if_neg (by simpa [hsegments] using hlast)]
    -- The text ends with the last segment, so it is not empty and does not end with a slash.
    obtain ⟨before, htext⟩ : ∃ before, path.text = before ++ last := by
      by_cases hfront : front = []
      · refine ⟨"", ?_⟩
        rw [← path.ofSegments_segments, hsegments, hfront]
        simp [ofSegments]
      · exact ⟨_, text_of_segments hsegments hfront⟩
    obtain ⟨chars, c, hchars⟩ : ∃ chars c, last.toList = chars ++ [c] :=
      exists_append_singleton (by simpa using hlast)
    have hc : c ≠ '/' := by
      rintro rfl
      exact hslash last (by simp) (by simp [hchars])
    have hjoin : path.join inner = ⟨path.text ++ "/" ++ inner.text⟩ := by
      simp [join, hinner, htext, hlast, hchars, hc]
    rw [hjoin, segments_append_slash]

/-! ## Parts and segments -/

/-- What a path begins with. -/
def lead (path : Path) : List Part :=
  if path.isAbsolute then [.root] else if path.segments.head? = some "." then [.here] else []

theorem parts_eq_lead_append (path : Path) :
    path.parts = path.lead ++ path.steps.filterMap Part.ofSegment? := by
  rw [lead]
  by_cases habsolute : path.isAbsolute = true
  · rw [if_pos habsolute, parts_of_isAbsolute habsolute]
    rfl
  · obtain ⟨first, others, hsegments⟩ := List.exists_cons_of_ne_nil path.segments_ne_nil
    rw [if_neg habsolute, steps, filterMap_ofSegment?_filter, parts, if_neg habsolute, hsegments]
    by_cases hdot : first = "."
    · subst hdot
      rfl
    · cases hpart : Part.ofSegment? first <;> simp [Part.ofFirst?, hdot, hpart]

theorem lead_of_segments {first : String} {others : List String}
    (hsegments : path.segments = first :: others) :
    path.lead = if first = "" ∧ others ≠ [] then [.root] else if first = "." then [.here]
      else [] := by
  have habsolute : path.isAbsolute = true ↔ first = "" ∧ others ≠ [] := by
    rw [isAbsolute_iff, hsegments]
    simp [and_comm]
  simp only [lead, habsolute, hsegments, List.head?_cons, Option.some.injEq]

theorem name?_of_segments_eq (hsegments : path.segments = front ++ [name])
    (hname : Part.ofSegment? name = some (.named name)) : path.name? = some name := by
  have hidle : isIdle name = false := by
    rw [← Bool.not_eq_true, ← ofSegment?_eq_none_iff, hname]
    simp
  have hlast : path.parts.getLast? = some (.named name) := by
    rw [parts_eq_lead_append, steps, hsegments]
    simp [hidle, hname]
  rw [name?, hlast]

theorem slash_not_mem_of_name? (hname : path.name? = some name) : '/' ∉ name.toList :=
  slash_not_mem_of_mem_segments (mem_segments_of_name? hname)

theorem getLast?_parts_of_name? (hname : path.name? = some name) :
    path.parts.getLast? = some (.named name) := by
  unfold name? at hname
  split at hname
  · rename_i last hlast
    rw [hlast, Option.some.inj hname]
  · simp at hname

/-- The name at the end of a path is its last segment that stands for a part. -/
theorem exists_front_of_name? (hname : path.name? = some name) :
    Part.ofSegment? name = some (.named name) ∧
      ∃ front, dropTrailing path.segments = front ++ [name] := by
  have hlast := getLast?_parts_of_name? hname
  rw [parts_eq_lead_append] at hlast
  by_cases hnone : path.steps = []
  · -- What a path begins with is no name.
    have hlead : .named name ∈ path.lead := by
      simpa [hnone] using List.mem_of_getLast? hlast
    unfold lead at hlead
    split at hlead
    · simp at hlead
    · split at hlead <;> simp at hlead
  · obtain ⟨before, step, hsteps⟩ := exists_append_singleton hnone
    have hstep : isIdle step = false := by
      have hmem : step ∈ path.steps := by simp [hsteps]
      simpa using (List.mem_filter.mp hmem).2
    obtain ⟨part, hpart⟩ : ∃ part, Part.ofSegment? step = some part := by
      rw [← Option.isSome_iff_exists, ← Option.not_isNone, Bool.not_eq_true',
        ← Bool.not_eq_true, Option.isNone_iff_eq_none, ofSegment?_eq_none_iff, hstep]
      exact Bool.false_ne_true
    have hnamed : part = .named name := by simpa [hsteps, hpart] using hlast
    obtain rfl := eq_of_ofSegment? (hnamed ▸ hpart)
    refine ⟨hnamed ▸ hpart, List.getLast?_eq_some_iff.mp ?_⟩
    rw [getLast?_dropTrailing, filter_dropTrailing, ← steps, hsteps, List.getLast?_concat]

/-! ## The path around a name -/

/-- Leaves out the segments at the end that stand for no part, except in front. -/
def tighten : List String → List String
  | [] => []
  | first :: others => first :: dropTrailing others

theorem filter_tighten (segments : List String) :
    (tighten segments).filter (!isIdle ·) = segments.filter (!isIdle ·) := by
  cases segments with
  | nil => rfl
  | cons first others => rw [tighten, List.filter_cons, List.filter_cons, filter_dropTrailing]

theorem dropTrailing_dropTrailing (segments : List String) :
    dropTrailing (dropTrailing segments) = dropTrailing segments := by
  rw [dropTrailing, dropTrailing, List.reverse_reverse, List.dropWhile_idempotent]

theorem tighten_tighten (segments : List String) :
    tighten (tighten segments) = tighten segments := by
  cases segments with
  | nil => rfl
  | cons first others => rw [tighten, tighten, dropTrailing_dropTrailing]

theorem mem_of_mem_tighten {segment : String} (hsegment : segment ∈ tighten segments) :
    segment ∈ segments := by
  cases segments with
  | nil => exact hsegment
  | cons first others =>
    exact List.mem_cons.mpr ((List.mem_cons.mp hsegment).imp_right mem_of_mem_dropTrailing)

theorem getLast?_dropTrailing_ne (segments : List String) :
    (dropTrailing segments).getLast? ≠ some "" := by
  intro hlast
  rw [getLast?_dropTrailing] at hlast
  simpa using (List.mem_filter.mp (List.mem_of_getLast? hlast)).2

theorem dropTrailing_cons {segment : String} (hidle : isIdle segment = false)
    (segments : List String) :
    dropTrailing (segment :: segments) = segment :: dropTrailing segments := by
  have hpart : (Part.ofSegment? segment).isNone = false := by
    rw [← Bool.not_eq_true, Option.isNone_iff_eq_none, ofSegment?_eq_none_iff, hidle]
    exact Bool.false_ne_true
  rw [dropTrailing, List.reverse_cons, List.dropWhile_append]
  split
  · rename_i hnone
    simp [hpart, dropTrailing, List.isEmpty_iff.mp hnone]
  · simp [dropTrailing]

theorem base_ofSegments_tighten (hslash : ∀ segment ∈ front, '/' ∉ segment.toList)
    (hfirst : front.head? ≠ some "") (hne : front ≠ []) :
    (ofSegments (tighten front)).base = tighten front := by
  obtain ⟨first, others, rfl⟩ := List.exists_cons_of_ne_nil hne
  have hsegments : (ofSegments (tighten (first :: others))).segments = tighten (first :: others) :=
    segments_ofSegments (by simp [tighten]) fun segment hsegment =>
      hslash segment (mem_of_mem_tighten hsegment)
  have hlast : (tighten (first :: others)).getLast? ≠ some "" := by
    rw [tighten, List.getLast?_cons]
    intro hempty
    cases hothers : (dropTrailing others).getLast? with
    | none => simp [hothers] at hempty hfirst; exact hfirst hempty
    | some last =>
      rw [hothers] at hempty
      exact getLast?_dropTrailing_ne others (hothers.trans hempty)
  rw [base, hsegments, if_neg hlast]

/-- Segments with something in front, trimmed. -/
theorem base_trimmed (hslash : ∀ segment ∈ front, '/' ∉ segment.toList)
    (hfirst : front.head? ≠ some "") : (ofSegments front).trimmed.base = tighten front := by
  cases front with
  | nil => decide
  | cons first others =>
    have hrelative := (follows_ofSegments hslash hfirst).absolute
    have hsegments := segments_ofSegments (by simp) hslash
    have htrimmed : (ofSegments (first :: others)).trimmed =
        ofSegments (tighten (first :: others)) := by
      by_cases hdot : first = "."
      · subst hdot
        simp [trimmed, hrelative, hsegments, tighten]
      · have hidle : isIdle first = false := by
          simpa [isIdle, hdot] using hfirst
        simp [trimmed, hrelative, hsegments, hdot, tighten, dropTrailing_cons hidle]
    rw [htrimmed]
    exact base_ofSegments_tighten hslash hfirst (by simp)

/-- Segments behind the root, trimmed. -/
theorem base_trimmed_root (hslash : ∀ segment ∈ front, '/' ∉ segment.toList) :
    (Path.mk ("/" ++ (ofSegments front).text)).trimmed.base = tighten ("" :: front) := by
  have hsegments : Path.segments ⟨"/" ++ (ofSegments front).text⟩ =
      "" :: (ofSegments front).segments := by
    have hparted := segments_append_slash "" (ofSegments front).text
    rw [String.empty_append] at hparted
    rw [hparted]
    rfl
  have habsolute : Path.isAbsolute ⟨"/" ++ (ofSegments front).text⟩ = true :=
    isAbsolute_iff.mpr ⟨_, (ofSegments front).segments_ne_nil, hsegments⟩
  have hsame : dropTrailing (ofSegments front).segments = dropTrailing front := by
    by_cases hne : front = []
    · subst hne
      decide
    · rw [segments_ofSegments hne hslash]
  cases hkept : dropTrailing front with
  | nil =>
    have htrimmed : (Path.mk ("/" ++ (ofSegments front).text)).trimmed = ⟨"/"⟩ := by
      simp [trimmed, habsolute, hsegments, hsame, hkept]
    rw [htrimmed, tighten, hkept]
    decide
  | cons first others =>
    have htrimmed : (Path.mk ("/" ++ (ofSegments front).text)).trimmed =
        ofSegments ("" :: dropTrailing front) := by
      simp [trimmed, habsolute, hsegments, hsame, hkept]
    have hagain : (ofSegments ("" :: dropTrailing front)).segments = "" :: dropTrailing front := by
      refine segments_ofSegments (by simp) fun segment hsegment => ?_
      rcases List.mem_cons.mp hsegment with rfl | hsegment
      · simp
      · exact hslash segment (mem_of_mem_dropTrailing hsegment)
    have hlast : ("" :: dropTrailing front).getLast? ≠ some "" := by
      rw [List.getLast?_cons_of_ne_nil (by simp [hkept])]
      exact getLast?_dropTrailing_ne front
    rw [htrimmed, base, hagain, if_neg hlast, tighten]

/-- A join with the path around the last name keeps the segments before it, except for those
at their end that stand for no part. -/
theorem exists_parent? (hname : path.name? = some name)
    (hfront : dropTrailing path.segments = front ++ [name]) :
    ∃ parent, path.parent? = some parent ∧ parent.base = tighten front := by
  obtain ⟨hnamed, -⟩ := exists_front_of_name? hname
  obtain ⟨tail, hsegments, -⟩ := exists_eq_dropTrailing_append path.segments
  rw [hfront, List.append_assoc, List.singleton_append] at hsegments
  have hkept : (dropTrailing path.segments).dropLast = front := by
    rw [hfront, List.dropLast_concat]
  have hslash : ∀ segment ∈ front, '/' ∉ segment.toList := fun segment hsegment =>
    slash_not_mem_of_mem_segments (hsegments ▸ List.mem_append_left _ hsegment)
  cases habsolute : path.isAbsolute with
  | true =>
    obtain ⟨rest, -, hrooted⟩ := isAbsolute_iff.mp habsolute
    rw [hrooted] at hsegments
    cases front with
    | nil =>
      obtain ⟨rfl, -⟩ := List.cons.inj hsegments
      simp [Part.ofSegment?] at hnamed
    | cons first others =>
      obtain ⟨rfl, -⟩ := List.cons.inj hsegments
      refine ⟨_, ?_, base_trimmed_root fun segment hsegment =>
        hslash segment (List.mem_cons_of_mem _ hsegment)⟩
      simp [parent?, getLast?_parts_of_name? hname, hkept, habsolute]
  | false =>
    have hfirst : front.head? ≠ some "" := by
      intro hhead
      obtain ⟨others, rfl⟩ := List.head?_eq_some_iff.mp hhead
      have hrooted := isAbsolute_iff.mpr ⟨others ++ name :: tail, by simp, hsegments⟩
      exact absurd (habsolute.symm.trans hrooted) Bool.false_ne_true
    refine ⟨_, ?_, base_trimmed hslash hfirst⟩
    simp [parent?, getLast?_parts_of_name? hname, hkept, habsolute]

/-- Another last name leaves out what stands too much before the name and behind it. -/
theorem segments_withName (hname : path.name? = some name)
    (hfront : dropTrailing path.segments = front ++ [name]) (hother : '/' ∉ other.toList) :
    (path.withName other).segments = tighten front ++ [other] := by
  obtain ⟨parent, hparent, hbase⟩ := exists_parent? hname hfront
  have hjoin : path.withName other = parent.join ⟨other⟩ := by
    simp [withName, hname, hparent]
  rw [hjoin, segments_join_eq parent (isAbsolute_of_noSlash hother), hbase,
    segments_of_noSlash hother]

theorem name?_withName (hname : path.name? = some name)
    (hnamed : Part.ofSegment? other = some (.named other)) (hother : '/' ∉ other.toList) :
    (path.withName other).name? = some other := by
  obtain ⟨-, front, hfront⟩ := exists_front_of_name? hname
  exact name?_of_segments_eq (segments_withName hname hfront hother) hnamed

/-- Of two changes of the last name the second alone counts. -/
theorem withName_withName (hname : path.name? = some name)
    (hnamed : Part.ofSegment? last = some (.named last)) (hlast : '/' ∉ last.toList)
    (hother : '/' ∉ other.toList) : (path.withName last).withName other = path.withName other := by
  obtain ⟨-, front, hfront⟩ := exists_front_of_name? hname
  have hfirst := segments_withName hname hfront hlast
  have hname' := name?_withName hname hnamed hlast
  have hfront' : dropTrailing (path.withName last).segments = tighten front ++ [last] := by
    rw [hfirst]
    simp [dropTrailing, hnamed]
  have hsecond := segments_withName hname' hfront' hother
  rw [tighten_tighten, ← segments_withName hname hfront hother] at hsecond
  rw [← ofSegments_segments ((path.withName last).withName other), hsecond, ofSegments_segments]

/-- With its own last name a path is the same. -/
theorem isSame_withName (hname : path.name? = some name) :
    (path.withName name).isSame path = true := by
  obtain ⟨hnamed, front, hfront⟩ := exists_front_of_name? hname
  obtain ⟨tail, hsegments, -⟩ := exists_eq_dropTrailing_append path.segments
  rw [hfront, List.append_assoc, List.singleton_append] at hsegments
  have hself := segments_withName hname hfront (slash_not_mem_of_name? hname)
  have hsteps : (path.withName name).steps = path.steps := by
    rw [steps, hself, List.filter_append, filter_tighten, ← List.filter_append, ← hfront,
      filter_dropTrailing, steps]
  have hlead : (path.withName name).lead = path.lead := by
    cases front with
    | nil =>
      have hempty : name ≠ "" := by
        rintro rfl
        simp [Part.ofSegment?] at hnamed
      rw [lead_of_segments hself, lead_of_segments hsegments]
      simp [hempty]
    | cons first others =>
      rw [lead_of_segments hself, lead_of_segments hsegments]
      simp
  rw [isSame, beq_iff_eq, parts_eq_lead_append, parts_eq_lead_append, hsteps, hlead]

/-- Nothing stands behind the last name of a path, and nothing that stands for no part right
before it, except in front. -/
def IsTight (path : Path) : Prop :=
  path.segments.getLast? = path.name? ∧
    tighten path.segments.dropLast = path.segments.dropLast

instance (path : Path) : Decidable path.IsTight :=
  inferInstanceAs (Decidable (_ ∧ _))

/-- With its own last name a path is letter by letter what it was if nothing is left out. -/
theorem withName_eq_self_iff (hname : path.name? = some name) :
    path.withName name = path ↔ path.IsTight := by
  obtain ⟨hnamed, front, hfront⟩ := exists_front_of_name? hname
  have hself := segments_withName hname hfront (slash_not_mem_of_name? hname)
  constructor
  · intro hsame
    rw [hsame] at hself
    rw [IsTight, hself, hname, List.getLast?_concat, List.dropLast_concat, tighten_tighten]
    exact ⟨rfl, rfl⟩
  · rintro ⟨hlast, hdropped⟩
    obtain ⟨before, hsegments⟩ := List.getLast?_eq_some_iff.mp (hlast.trans hname)
    have hbefore : before = front := by
      have hkept : dropTrailing path.segments = before ++ [name] := by
        rw [hsegments]
        simp [dropTrailing, hnamed]
      exact List.append_cancel_right (hkept.symm.trans hfront)
    rw [hsegments, List.dropLast_concat, hbefore] at hdropped
    rw [hdropped, ← hbefore, ← hsegments] at hself
    rw [← ofSegments_segments (path.withName name), hself, ofSegments_segments]

example : IsTight ⟨"p//q/x"⟩ ∧ ¬ IsTight ⟨"p//x"⟩ ∧ ¬ IsTight ⟨"p/./x"⟩ ∧ ¬ IsTight ⟨"p/x/"⟩ := by
  decide +kernel

end Path

namespace Fix

open Deadwood.Path (IsTight isSame_withName name?_withName slash_not_mem_of_name? withName_withName
  withName_eq_self_iff)

variable {path : Path} {name digits : String} {backup : Backup}

/-! ## Backups and their files -/

theorem backup_eq_withName (hname : path.name? = some name) (millis : String) :
    path.backup millis = path.withName (backupName name millis) := by
  rw [Path.backup, hname]
  rfl

theorem slash_not_mem_backupName_iff (hdigits : IsDigits digits) :
    '/' ∉ (backupName name digits).toList ↔ '/' ∉ name.toList := by
  have hmark : '/' ∉ backupMark := by decide
  simp [toList_backupName, hmark, hdigits.fitsInName.1]

/-- The name of a backup stands for itself. -/
theorem ofSegment?_backupName (name millis : String) :
    Path.Part.ofSegment? (backupName name millis) = some (.named (backupName name millis)) := by
  have hb : 'b' ∈ (backupName name millis).toList := by simp [toList_backupName, backupMark]
  have hne : ∀ text : String, 'b' ∉ text.toList → backupName name millis ≠ text := by
    rintro text htext rfl
    exact htext hb
  simp [Path.Part.ofSegment?, hne "" (by simp), hne "." (by simp), hne ".." (by simp)]

/-- The path of a backup is read as what it was made of. -/
theorem ofPath?_backup (hname : path.name? = some name) (hbreak : '\n' ∉ name.toList)
    (hdigits : IsDigits digits) :
    Backup.ofPath? (path.backup digits) =
      some ⟨path.backup digits, path.withName name, digits⟩ := by
  have hslash := slash_not_mem_of_name? hname
  have hslash' := (slash_not_mem_backupName_iff hdigits).mpr hslash
  have hself := ofSegment?_backupName name digits
  have hempty : name ≠ "" := by
    rintro rfl
    obtain ⟨hnamed, -⟩ := Path.exists_front_of_name? hname
    simp [Path.Part.ofSegment?] at hnamed
  apply ofPath?_eq_some_iff.mpr
  refine ⟨name, hempty, hbreak, hdigits, ?_, rfl, ?_⟩
  · rw [backup_eq_withName hname]
    exact name?_withName hname hself hslash'
  · rw [backup_eq_withName hname, withName_withName hname hself hslash' hslash]

/-- What is read of the path of a backup has that backup, if its name is one. -/
theorem exists_backup_source (hbackup : Backup.ofPath? path = some backup)
    (hdot : path.name? ≠ some (backupName "." backup.stamp))
    (hdots : path.name? ≠ some (backupName ".." backup.stamp)) :
    ∃ name, path.name? = some name ∧ backup.source.backup backup.stamp = path.withName name := by
  obtain ⟨own, hempty, -, hdigits, hname, -, hsource⟩ := ofPath?_eq_some_iff.mp hbackup
  have hslash := slash_not_mem_of_name? hname
  have hslash' := (slash_not_mem_backupName_iff hdigits).mp hslash
  have hself : Path.Part.ofSegment? own = some (.named own) := by
    have hdot' : own ≠ "." := by
      rintro rfl
      exact hdot hname
    have hdots' : own ≠ ".." := by
      rintro rfl
      exact hdots hname
    simp [Path.Part.ofSegment?, hempty, hdot', hdots']
  have hown : backup.source.name? = some own := by
    rw [hsource]
    exact name?_withName hname hself hslash'
  refine ⟨_, hname, ?_⟩
  rw [backup_eq_withName hown, hsource, withName_withName hname hself hslash' hslash]

/-- Making the path of a backup and reading it undo each other, in both orders: the digits are
the same, and the path has the same parts, and the same letters if it is tight. -/
theorem backup_ofPath?_inverse :
    (∀ {path : Path} {name digits : String}, path.name? = some name → '\n' ∉ name.toList →
      IsDigits digits → ∃ source,
        Backup.ofPath? (path.backup digits) = some ⟨path.backup digits, source, digits⟩ ∧
        source.isSame path = true ∧ (source = path ↔ path.IsTight)) ∧
    ∀ {path : Path} {backup : Backup}, Backup.ofPath? path = some backup →
      path.name? ≠ some (backupName "." backup.stamp) →
      path.name? ≠ some (backupName ".." backup.stamp) →
        (backup.source.backup backup.stamp).isSame path = true ∧
        (backup.source.backup backup.stamp = path ↔ path.IsTight) := by
  constructor
  · intro path name digits hname hbreak hdigits
    exact ⟨path.withName name, ofPath?_backup hname hbreak hdigits, isSame_withName hname,
      withName_eq_self_iff hname⟩
  · intro path backup hbackup hdot hdots
    obtain ⟨name, hname, hsource⟩ := exists_backup_source hbackup hdot hdots
    rw [hsource]
    exact ⟨isSame_withName hname, withName_eq_self_iff hname⟩

/-- A name that looks like that of a backup, in a path with a slash too much, and digits that
begin with zeros. -/
theorem backup_ofPath?_inverse_marked :
    (∃ source, Backup.ofPath? (Path.backup ⟨"p//x.bak.12"⟩ "007") =
        some ⟨Path.backup ⟨"p//x.bak.12"⟩ "007", source, "007"⟩ ∧
      source.isSame ⟨"p//x.bak.12"⟩ = true ∧
      (source = ⟨"p//x.bak.12"⟩ ↔ IsTight ⟨"p//x.bak.12"⟩)) ∧
    Backup.ofPath? ⟨"p/x.bak.12.bak.007"⟩ =
      some ⟨⟨"p/x.bak.12.bak.007"⟩, ⟨"p/x.bak.12"⟩, "007"⟩ ∧
    (Path.backup ⟨"p/x.bak.12"⟩ "007").isSame ⟨"p/x.bak.12.bak.007"⟩ = true ∧
    (Path.backup ⟨"p/x.bak.12"⟩ "007" = ⟨"p/x.bak.12.bak.007"⟩ ↔
      IsTight ⟨"p/x.bak.12.bak.007"⟩) := by
  have hname : Path.name? ⟨"p//x.bak.12"⟩ = some "x.bak.12" := by decide +kernel
  have hread : Backup.ofPath? ⟨"p/x.bak.12.bak.007"⟩ =
      some ⟨⟨"p/x.bak.12.bak.007"⟩, ⟨"p/x.bak.12"⟩, "007"⟩ := by decide +kernel
  have hown : Path.name? ⟨"p/x.bak.12.bak.007"⟩ = some (backupName "x.bak.12" "007") := by
    decide +kernel
  have hagain := backup_ofPath?_inverse.2 hread (by rw [hown]; decide) (by rw [hown]; decide)
  have hdigits : IsDigits "007" := ⟨by decide, List.all_eq_true.mp (by decide)⟩
  exact ⟨backup_ofPath?_inverse.1 hname (by decide) hdigits, hread, hagain⟩

end Fix

end Deadwood
