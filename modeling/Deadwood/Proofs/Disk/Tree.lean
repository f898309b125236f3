/-
# Disks as trees

The table of a disk is a tree if it lists its places in order, if every name is
one that a directory can hold, and if whatever stands somewhere stands in a
directory. This module says what `put` does to the places, that it keeps a tree
a tree, and which entries a directory has below it.

Disks that hold the same files may still differ in what their next writes run
into; `Alike` forgets that difference.
-/

import Deadwood.Disk.Basic
import Deadwood.Proofs.Path

namespace Deadwood.Disk

open Deadwood.Path (IsName)

variable {disk other : Disk} {location here : Location} {name : String} {entry : Entry}

/-! ## Places after writing -/

@[simp]
theorem get?_nil (disk : Disk) : disk.get? [] = some .directory := rfl

theorem get?_of_ne_nil (hne : location ≠ []) :
    disk.get? location = List.lookup location disk.entries := by
  simp [get?, hne]

private theorem lookup_cons_of_ne {place there : Location} (hne : place ≠ there) (old : Entry)
    (rest : List (Location × Entry)) :
    List.lookup place ((there, old) :: rest) = List.lookup place rest := by
  rw [List.lookup_cons, beq_eq_false_iff_ne.mpr hne]

private theorem lookup_insertEntry (location : Location) (entry : Entry)
    (entries : List (Location × Entry)) (place : Location) :
    List.lookup place (insertEntry location entry entries) =
      if place = location then some entry else List.lookup place entries := by
  by_cases hplace : place = location
  · subst hplace
    rw [if_pos rfl]
    induction entries with
    | nil => simp [insertEntry]
    | cons first rest ih =>
      obtain ⟨there, old⟩ := first
      rw [insertEntry]
      split
      · simp
      · rename_i hdifferent
        split
        · simp
        · rw [lookup_cons_of_ne hdifferent, ih]
  · rw [if_neg hplace]
    induction entries with
    | nil => rw [insertEntry, lookup_cons_of_ne hplace]
    | cons first rest ih =>
      obtain ⟨there, old⟩ := first
      rw [insertEntry]
      split
      · rename_i hsame
        subst hsame
        rw [lookup_cons_of_ne hplace, lookup_cons_of_ne hplace]
      · split
        · rw [lookup_cons_of_ne hplace]
        · rw [List.lookup_cons, List.lookup_cons, ih]

/-- After writing, the place written holds the new entry and all others what they
held. -/
theorem get?_put (hne : location ≠ []) (place : Location) :
    (disk.put location entry).get? place =
      if place = location then some entry else disk.get? place := by
  by_cases hplace : place = []
  · subst hplace
    simp [Ne.symm hne]
  · rw [get?_of_ne_nil hplace, get?_of_ne_nil hplace]
    exact lookup_insertEntry location entry disk.entries place

theorem get?_put_self (hne : location ≠ []) : (disk.put location entry).get? location = some entry := by
  rw [get?_put hne, if_pos rfl]

theorem get?_put_of_ne (hne : location ≠ []) {place : Location} (hplace : place ≠ location) :
    (disk.put location entry).get? place = disk.get? place := by
  rw [get?_put hne, if_neg hplace]

/-! ## Trees -/

/-- A name that fits into a directory. -/
def FitsName (name : String) : Prop :=
  IsName name ∧ name.utf8ByteSize ≤ 255

instance (name : String) : Decidable (FitsName name) :=
  inferInstanceAs (Decidable (_ ∧ _))

/-- A disk whose table is a tree of directories. -/
structure IsTree (disk : Disk) : Prop where
  ordered : disk.entries.Pairwise fun first second => first.1 < second.1
  rootless : ∀ entry ∈ disk.entries, entry.1 ≠ []
  named : ∀ location entry, disk.get? location = some entry → ∀ name ∈ location, FitsName name
  nested : ∀ location name entry, disk.get? (location ++ [name]) = some entry →
    disk.get? location = some .directory

/-- What stands somewhere is listed in the table. -/
theorem mem_of_get? (hne : location ≠ []) (hentry : disk.get? location = some entry) :
    (location, entry) ∈ disk.entries := by
  rw [get?_of_ne_nil hne, List.lookup_eq_some_iff] at hentry
  obtain ⟨before, after, hentries, -⟩ := hentry
  simp [hentries]

/-- The root is a directory, so anything else is listed. -/
theorem mem_of_get?_of_ne (hentry : disk.get? location = some entry) (hother : entry ≠ .directory) :
    (location, entry) ∈ disk.entries := by
  apply mem_of_get? _ hentry
  rintro rfl
  exact hother (Option.some.inj (hentry.symm.trans (get?_nil disk)))

private theorem lookup_of_mem {entries : List (Location × Entry)}
    (hordered : entries.Pairwise fun first second => first.1 < second.1)
    (hmem : (location, entry) ∈ entries) : List.lookup location entries = some entry := by
  induction entries with
  | nil => simp at hmem
  | cons first rest ih =>
    obtain ⟨hfirst, hrest⟩ := List.pairwise_cons.mp hordered
    rcases List.mem_cons.mp hmem with rfl | hlater
    · simp
    · obtain ⟨there, old⟩ := first
      have hne : location ≠ there := by
        rintro rfl
        exact List.lt_irrefl _ (hfirst (location, entry) hlater)
      rw [lookup_cons_of_ne hne]
      exact ih hrest hlater

/-- A table is a tree if it is in order, has names only, and lists the directory
of each of its entries. -/
theorem isTree_of_entries
    (hordered : disk.entries.Pairwise fun first second => first.1 < second.1)
    (hnamed : ∀ item ∈ disk.entries, item.1 ≠ [] ∧ ∀ name ∈ item.1, FitsName name)
    (hnested : ∀ item ∈ disk.entries,
      item.1.dropLast = [] ∨ (item.1.dropLast, .directory) ∈ disk.entries) : disk.IsTree := by
  refine ⟨hordered, fun item hitem => (hnamed item hitem).1, ?_, ?_⟩
  · intro location entry hentry
    by_cases hne : location = []
    · simp [hne]
    · exact (hnamed _ (mem_of_get? hne hentry)).2
  · intro location name entry hentry
    rcases hnested _ (mem_of_get? (by simp) hentry) with hroot | hmem
    · rw [List.dropLast_concat] at hroot
      simp [hroot]
    · rw [List.dropLast_concat] at hmem
      rw [get?_of_ne_nil (hnamed _ hmem).1, lookup_of_mem hordered hmem]

namespace IsTree

/-- Everything on the way to an entry is a directory. -/
theorem get?_front (tree : disk.IsTree) {front back : List String} (hback : back ≠ [])
    (hentry : disk.get? (front ++ back) = some entry) : disk.get? front = some .directory := by
  induction back generalizing front entry with
  | nil => exact absurd rfl hback
  | cons name rest ih =>
    by_cases hrest : rest = []
    · subst hrest
      exact tree.nested front name entry hentry
    · have hinner : disk.get? (front ++ [name]) = some .directory :=
        ih hrest (by simpa using hentry)
      exact tree.nested front name .directory hinner

/-- In a tree the table lists exactly what stands at each place. -/
theorem mem_entries_iff (tree : disk.IsTree) :
    (location, entry) ∈ disk.entries ↔ location ≠ [] ∧ disk.get? location = some entry := by
  constructor
  · intro hmem
    have hne := tree.rootless _ hmem
    exact ⟨hne, (get?_of_ne_nil hne).trans (lookup_of_mem tree.ordered hmem)⟩
  · rintro ⟨hne, hentry⟩
    exact mem_of_get? hne hentry

theorem named_of_mem (tree : disk.IsTree) (hentry : disk.get? location = some entry) :
    ∀ name ∈ location, IsName name :=
  fun name hname => (tree.named location entry hentry name hname).1

end IsTree

private theorem mem_insertEntry {entries : List (Location × Entry)}
    {second : Location × Entry} (hsecond : second ∈ insertEntry location entry entries) :
    second = (location, entry) ∨ second ∈ entries := by
  induction entries with
  | nil => simpa [insertEntry] using hsecond
  | cons first rest ih =>
    obtain ⟨there, old⟩ := first
    rw [insertEntry] at hsecond
    split at hsecond
    · exact (List.mem_cons.mp hsecond).imp_right (List.mem_cons_of_mem _)
    · split at hsecond
      · exact List.mem_cons.mp hsecond
      · rcases List.mem_cons.mp hsecond with rfl | hsecond
        · exact .inr List.mem_cons_self
        · exact (ih hsecond).imp_right (List.mem_cons_of_mem _)

private theorem insertEntry_ordered {entries : List (Location × Entry)}
    (hordered : entries.Pairwise fun first second => first.1 < second.1) :
    (insertEntry location entry entries).Pairwise fun first second => first.1 < second.1 := by
  induction entries with
  | nil => simp [insertEntry]
  | cons first rest ih =>
    obtain ⟨there, old⟩ := first
    obtain ⟨hfirst, hrest⟩ := List.pairwise_cons.mp hordered
    rw [insertEntry]
    split
    · rename_i hsame
      subst hsame
      exact List.pairwise_cons.mpr ⟨hfirst, hrest⟩
    · rename_i hdifferent
      split
      · rename_i hbefore
        refine List.pairwise_cons.mpr ⟨?_, hordered⟩
        intro second hsecond
        rcases List.mem_cons.mp hsecond with rfl | hsecond
        · exact hbefore
        · exact List.lt_trans hbefore (hfirst second hsecond)
      · rename_i hafter
        refine List.pairwise_cons.mpr ⟨?_, ih hrest⟩
        intro second hsecond
        rcases mem_insertEntry hsecond with rfl | hsecond
        · exact (List.le_iff_lt_or_eq.mp (List.not_lt.mp hafter)).resolve_right
            (Ne.symm hdifferent)
        · exact hfirst second hsecond

/-- Writing into a directory keeps a tree a tree, unless it takes the place of a
directory. -/
theorem IsTree.put (tree : disk.IsTree) (hhere : disk.get? here = some .directory)
    (hname : FitsName name) (hplace : disk.get? (here ++ [name]) ≠ some .directory) :
    (disk.put (here ++ [name]) entry).IsTree := by
  have hne : here ++ [name] ≠ [] := by simp
  refine ⟨insertEntry_ordered tree.ordered, ?_, ?_, ?_⟩
  · intro second hsecond
    rcases mem_insertEntry hsecond with rfl | hsecond
    · exact hne
    · exact tree.rootless second hsecond
  · intro location old hold part hpart
    by_cases hlocation : location = here ++ [name]
    · subst hlocation
      rcases List.mem_append.mp hpart with hpart | hpart
      · exact tree.named here _ hhere part hpart
      · rwa [List.mem_singleton.mp hpart]
    · rw [get?_put_of_ne hne hlocation] at hold
      exact tree.named location old hold part hpart
  · intro location part old hold
    have houter : disk.get? location = some .directory := by
      by_cases hlocation : location ++ [part] = here ++ [name]
      · rw [(List.append_inj' hlocation rfl).1]
        exact hhere
      · rw [get?_put_of_ne hne hlocation] at hold
        exact tree.nested location part old hold
    rw [get?_put_of_ne hne]
    · exact houter
    · rintro rfl
      exact hplace houter

/-! ## Below a directory -/

/-- What stands below a directory are the entries behind its names. -/
theorem IsTree.mem_below_iff (tree : disk.IsTree) {names : List String} :
    (names, entry) ∈ disk.below here ↔ names ≠ [] ∧ disk.get? (here ++ names) = some entry := by
  simp only [below, List.mem_filterMap, Prod.exists]
  constructor
  · rintro ⟨location, found, hmem, hfound⟩
    split at hfound
    · rename_i hbelow
      simp only [Bool.and_eq_true, List.isPrefixOf_iff_prefix, decide_eq_true_eq] at hbelow
      obtain ⟨⟨rest, rfl⟩, hlength⟩ := hbelow
      simp only [List.drop_left', Option.some.injEq, Prod.mk.injEq] at hfound
      obtain ⟨rfl, rfl⟩ := hfound
      refine ⟨?_, (tree.mem_entries_iff.mp hmem).2⟩
      rintro rfl
      simp at hlength
    · simp at hfound
  · rintro ⟨hne, hentry⟩
    refine ⟨here ++ names, entry, tree.mem_entries_iff.mpr ⟨by simp [hne], hentry⟩, ?_⟩
    have hpositive := List.length_pos_iff.mpr hne
    simp [List.isPrefixOf_iff_prefix, hpositive]

/-- Nothing stands below a directory twice. -/
theorem IsTree.pairwise_below (tree : disk.IsTree) (here : Location) :
    (disk.below here).Pairwise fun first second => first.1 ≠ second.1 := by
  refine tree.ordered.filterMap _ ?_
  rintro ⟨first, entry⟩ ⟨second, other⟩ hless found hfound later hlater hsame
  simp only [ite_eq_iff, Bool.and_eq_true, List.isPrefixOf_iff_prefix] at hfound hlater
  obtain ⟨⟨⟨rest, rfl⟩, -⟩, hfound⟩ | ⟨-, hnone⟩ := hfound
  · obtain ⟨⟨⟨rest', rfl⟩, -⟩, hlater⟩ | ⟨-, hnone⟩ := hlater
    · obtain rfl := Option.some.inj hfound
      obtain rfl := Option.some.inj hlater
      obtain rfl : rest = rest' := by simpa using hsame
      exact absurd hless (List.lt_irrefl _)
    · simp at hnone
  · simp at hnone

/-! ## Disks that hold the same -/

/-- Two disks that hold the same, whatever their next writes run into. -/
def Alike (disk other : Disk) : Prop :=
  other.entries = disk.entries ∧ other.workingDir = disk.workingDir

namespace Alike

theorem refl (disk : Disk) : Alike disk disk := ⟨rfl, rfl⟩

theorem get? (halike : Alike disk other) (location : Location) :
    other.get? location = disk.get? location := by
  simp [Disk.get?, halike.1]

theorem isTree (halike : Alike disk other) (tree : disk.IsTree) : other.IsTree := by
  refine ⟨by rw [halike.1]; exact tree.ordered, by rw [halike.1]; exact tree.rootless, ?_, ?_⟩
  · intro location entry hentry
    rw [halike.get?] at hentry
    exact tree.named location entry hentry
  · intro location name entry hentry
    rw [halike.get?] at hentry ⊢
    exact tree.nested location name entry hentry

end Alike

end Deadwood.Disk
