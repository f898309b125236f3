/-
# As few changes as can be

The table of a diff holds the lengths of the longest common subsequences of all ends of
two lists. Guided by it, the walk keeps as many lines as any common subsequence has. That
holds of the whole lists too: a common subsequence loses at most one line for each that is
shared in front or at the end. So no other list of changes has fewer deletions and
insertions.

A line is inserted only where deleting one would cost a kept line, and right behind it
deleting that line would still cost one. So between two kept lines all deletions come
before all insertions.
-/

import Deadwood.Proofs.Text.LineDiff
import Mathlib.Data.List.Chain
import Mathlib.Data.List.Infix

namespace Deadwood.Text

/-- The line that a change leaves as it is. -/
def Change.kept? {α : Type} : Change α → Option α
  | .keep line => some line
  | .delete _ => none
  | .insert _ => none

namespace Diff

variable {α : Type} {old new front back common : List α} {script : List (Change α)}

/-! ## Counting changes -/

/-- The lines that are left as they are. -/
def keptLines (script : List (Change α)) : List α :=
  script.filterMap Change.kept?

/-- The number of deletions and insertions. -/
def cost (script : List (Change α)) : Nat :=
  script.countP fun change => change.kept?.isNone

@[simp] theorem keptLines_cons (change : Change α) (script : List (Change α)) :
    keptLines (change :: script) = change.kept?.toList ++ keptLines script := by
  cases change <;> rfl

@[simp] theorem cost_cons (change : Change α) (script : List (Change α)) :
    cost (change :: script) = cost script + if change.kept?.isNone then 1 else 0 :=
  List.countP_cons

theorem keptLines_append (first second : List (Change α)) :
    keptLines (first ++ second) = keptLines first ++ keptLines second :=
  List.filterMap_append

@[simp] theorem keptLines_map_keep (lines : List α) : keptLines (lines.map .keep) = lines := by
  simp [keptLines, List.filterMap_map, Function.comp_def, Change.kept?]

/-- What changes keep is in both readings, in order. -/
theorem Between.sublist (hscript : Between old new script) :
    (keptLines script).Sublist old ∧ (keptLines script).Sublist new := by
  obtain ⟨rfl, rfl⟩ := hscript
  induction script with
  | nil => simp [keptLines]
  | cons change script ih =>
    obtain ⟨hold, hnew⟩ := ih
    cases change with
    | keep line => exact ⟨hold.cons_cons line, hnew.cons_cons line⟩
    | delete line => exact ⟨hold.cons line, hnew⟩
    | insert line => exact ⟨hold, hnew.cons line⟩

/-- Each kept line saves one deletion and one insertion. -/
theorem Between.cost_add (hscript : Between old new script) :
    cost script + 2 * (keptLines script).length = old.length + new.length := by
  obtain ⟨rfl, rfl⟩ := hscript
  induction script with
  | nil => rfl
  | cons change script ih =>
    cases change <;>
      simp only [cost_cons, keptLines_cons, List.filterMap_cons, Change.kept?, Change.old?,
        Change.new?, Option.toList, List.length_cons, List.cons_append, List.nil_append,
        Option.isNone_some, Option.isNone_none, Bool.false_eq_true, if_true, if_false] <;> omega

/-- A common subsequence of two lists, than which none is longer. -/
structure IsLongestCommon (old new common : List α) : Prop where
  inOld : common.Sublist old
  inNew : common.Sublist new
  longest : ∀ other : List α, other.Sublist old → other.Sublist new → other.length ≤ common.length

/-! ## The lengths of longest common subsequences -/

theorem getElem?_tails_of_suffix {list rest : List α} (hrest : rest <:+ list) :
    list.tails[list.length - rest.length]? = some rest := by
  have hindex : list.length - rest.length < list.tails.length := by
    rw [List.length_tails]
    omega
  rw [List.getElem?_eq_getElem hindex, List.getElem_tails, ← List.suffix_iff_eq_drop.mp hrest]

variable [BEq α]

/-- The length of a longest common subsequence of two lists. -/
def longestCommon : List α → List α → Nat
  | [], _ => 0
  | _ :: _, [] => 0
  | x :: old, y :: new =>
    if x == y then longestCommon old new + 1
    else max (longestCommon old (y :: new)) (longestCommon (x :: old) new)
termination_by old new => old.length + new.length

theorem longestCommon_nil_right (old : List α) : longestCommon old [] = 0 := by
  cases old <;> simp [longestCommon]

theorem row_tails (x : α) (old new : List α) :
    row x new (new.tails.map (longestCommon old)) = new.tails.map (longestCommon (x :: old)) := by
  induction new with
  | nil => simp [row, longestCommon]
  | cons y new ih =>
    have hhead : ∀ a : List α, (new.tails.map (longestCommon a)).headD 0 = longestCommon a new := by
      intro a
      cases new <;> rfl
    rw [List.tails_cons, List.map_cons, List.map_cons, row, List.tail_cons, ih]
    simp only [hhead, List.headD_cons]
    rw [longestCommon]

/-- A table holds the lengths for all ends of both lists. -/
theorem table_eq (old new : List α) :
    table old new = old.tails.map fun a => new.tails.map (longestCommon a) := by
  induction old with
  | nil =>
    have hrow : List.replicate (new.length + 1) 0 = new.tails.map (longestCommon []) := by
      rw [← List.length_tails new, ← List.map_const']
      exact List.map_congr_left fun b _ => by rw [longestCommon]
    rw [List.tails, List.map_singleton, ← hrow]
    rfl
  | cons x old ih =>
    have hfirst : (old.tails.map fun a => new.tails.map (longestCommon a)).headD [] =
        new.tails.map (longestCommon old) := by
      cases old <;> rfl
    unfold table at ih ⊢
    rw [List.foldr_cons, ih, hfirst, row_tails, List.tails_cons, List.map_cons]

/-- The walk asks only for ends of the two lists. -/
theorem walk_congr {longest other : List α → List α → Nat}
    (hsame : ∀ a b, a <:+ old → b <:+ new → longest a b = other a b) :
    walk longest old new = walk other old new := by
  fun_induction walk longest old new with
  | case1 new => rw [walk]
  | case2 old hold => rw [walk]; exact hold
  | case3 x old y new hequal ih =>
    rw [walk, if_pos hequal, ih]
    intro a b ha hb
    exact hsame a b (ha.trans (List.suffix_cons x old)) (hb.trans (List.suffix_cons y new))
  | case4 x old y new hdiffer hlonger ih =>
    rw [hsame _ _ List.suffix_rfl (List.suffix_cons y new),
      hsame _ _ (List.suffix_cons x old) List.suffix_rfl] at hlonger
    rw [walk, if_neg hdiffer, if_pos hlonger, ih]
    intro a b ha hb
    exact hsame a b (ha.trans (List.suffix_cons x old)) hb
  | case5 x old y new hdiffer hshorter ih =>
    rw [hsame _ _ List.suffix_rfl (List.suffix_cons y new),
      hsame _ _ (List.suffix_cons x old) List.suffix_rfl] at hshorter
    rw [walk, if_neg hdiffer, if_neg hshorter, ih]
    intro a b ha hb
    exact hsame a b ha (hb.trans (List.suffix_cons y new))

/-- The changes are those of a walk that knows the lengths. -/
theorem middle_eq (old new : List α) : middle old new = walk longestCommon old new := by
  apply walk_congr
  intro a b ha hb
  rw [table_eq]
  simp only [List.map_map, Array.getD_eq_getD_getElem?, List.getElem?_toArray, List.getElem?_map,
    getElem?_tails_of_suffix ha, getElem?_tails_of_suffix hb, Option.map_some, Function.comp_apply,
    Option.getD_some]

theorem length_keptLines_walk (old new : List α) :
    (keptLines (walk longestCommon old new)).length = longestCommon old new := by
  fun_induction walk longestCommon old new with
  | case1 new =>
    simp [keptLines, List.filterMap_map, Function.comp_def, Change.kept?, longestCommon]
  | case2 old =>
    simp [keptLines, List.filterMap_map, Function.comp_def, Change.kept?, longestCommon_nil_right]
  | case3 x old y new hequal ih => simp [Change.kept?, longestCommon, hequal, ih]
  | case4 x old y new hdiffer hlonger ih =>
    simp [Change.kept?, longestCommon, hdiffer, ih, hlonger]
  | case5 x old y new hdiffer hshorter ih =>
    simp [Change.kept?, longestCommon, hdiffer, ih, Nat.le_of_not_le hshorter]

/-! ## No common subsequence is longer -/

variable [LawfulBEq α]

theorem length_le_longestCommon (hold : common.Sublist old) (hnew : common.Sublist new) :
    common.length ≤ longestCommon old new := by
  fun_induction longestCommon old new generalizing common with
  | case1 new => simp [List.sublist_nil.mp hold]
  | case2 x old => simp [List.sublist_nil.mp hnew]
  | case3 x old y new hequal ih =>
    have hrest := ih hold.tail hnew.tail
    rw [List.length_tail] at hrest
    omega
  | case4 x old y new hdiffer ihold ihnew =>
    rcases List.sublist_cons_iff.mp hold with hold' | ⟨rest, rfl, -⟩
    · exact Nat.le_trans (ihold hold' hnew) (Nat.le_max_left _ _)
    · rcases List.sublist_cons_iff.mp hnew with hnew' | ⟨rest', hsame, -⟩
      · exact Nat.le_trans (ihnew hold hnew') (Nat.le_max_right _ _)
      · exact absurd (beq_iff_eq.mpr (List.cons.inj hsame).1) hdiffer

/-- What two lists share in front or at the end adds no more than its own length to what
they have in common. -/
theorem length_le_of_sublist_append (hold : common.Sublist (front ++ old ++ back))
    (hnew : common.Sublist (front ++ new ++ back)) :
    common.length ≤ front.length + longestCommon old new + back.length := by
  -- A common subsequence without so many lines in front and at the end is one of the rest.
  have hinner : ∀ {list : List α}, common.Sublist (front ++ list ++ back) →
      ((common.drop front.length).reverse.drop back.length).reverse.Sublist list := by
    intro list hlist
    have hbehind := hlist.drop front.length
    rw [List.append_assoc, List.drop_left] at hbehind
    have hbefore := hbehind.reverse.drop back.length
    rw [List.reverse_append, ← List.length_reverse, List.drop_left] at hbefore
    simpa using hbefore.reverse
  have hlength := length_le_longestCommon (hinner hold) (hinner hnew)
  simp only [List.length_reverse, List.length_drop] at hlength
  omega

/-- The lines that are kept make up a longest common subsequence. -/
theorem isLongestCommon_keptLines (old new : List α) :
    IsLongestCommon old new (keptLines (changes old new)) := by
  obtain ⟨hold, hnew⟩ := (between_changes old new).sublist
  refine ⟨hold, hnew, fun other hother hother' => ?_⟩
  obtain ⟨front, oldMiddle, newMiddle, back, rfl, rfl, hchanges⟩ := exists_changes_eq old new
  rw [hchanges, middle_eq]
  simpa [keptLines_append, length_keptLines_walk, Nat.add_assoc] using
    length_le_of_sublist_append hother hother'

/-- The lengths of a table are those of common subsequences. -/
theorem le_length_of_mem_table {lengths : List Nat} {length : Nat}
    (hlengths : lengths ∈ table old new) (hlength : length ∈ lengths) :
    length ≤ old.length ∧ length ≤ new.length := by
  rw [table_eq] at hlengths
  obtain ⟨a, ha, rfl⟩ := List.mem_map.mp hlengths
  obtain ⟨b, hb, rfl⟩ := List.mem_map.mp hlength
  obtain ⟨holdKept, hnewKept⟩ := (between_walk longestCommon a b).sublist
  rw [← length_keptLines_walk]
  exact ⟨(holdKept.trans ((List.mem_tails _ _).mp ha).sublist).length_le,
    (hnewKept.trans ((List.mem_tails _ _).mp hb).sublist).length_le⟩

/-- A diff is as short as can be. As many lines are kept as a longest common subsequence of
the two lists has, and no list of changes between them has fewer deletions and insertions.
The lengths in the table that guides the choice never exceed the number of lines. -/
theorem changes_minimal (old new : List α) :
    IsLongestCommon old new (keptLines (changes old new)) ∧
      Between old new (changes old new) ∧
      (∀ script, Between old new script → cost (changes old new) ≤ cost script) ∧
      ∀ lengths ∈ table old new, ∀ length ∈ lengths,
        length ≤ old.length ∧ length ≤ new.length := by
  have hlongest := isLongestCommon_keptLines old new
  have hchanges := between_changes old new
  refine ⟨hlongest, hchanges, fun script hscript => ?_, fun lengths hlengths length hlength =>
    le_length_of_mem_table hlengths hlength⟩
  obtain ⟨hold, hnew⟩ := hscript.sublist
  have hkept := hlongest.longest _ hold hnew
  have hcost := hscript.cost_add
  have hcost' := hchanges.cost_add
  omega

/-- Lines that occur more than once, with some shared in front and at the end. -/
theorem changes_minimal_repeated :
    keptLines (changes [0, 1, 2, 1, 3, 0, 0] [0, 2, 3, 1, 2, 0]) = [0, 2, 3, 0] ∧
      ∀ script, Between [0, 1, 2, 1, 3, 0, 0] [0, 2, 3, 1, 2, 0] script → 5 ≤ cost script := by
  obtain ⟨-, -, hleast, -⟩ := changes_minimal [0, 1, 2, 1, 3, 0, 0] [0, 2, 3, 1, 2, 0]
  have hcost : cost (changes [0, 1, 2, 1, 3, 0, 0] [0, 2, 3, 1, 2, 0]) = 5 := by decide +kernel
  rw [hcost] at hleast
  exact ⟨by decide +kernel, hleast⟩

/-! ## Deletions come first -/

/-- A block of changes: deletions and then insertions. -/
def IsBlock (script : List (Change α)) : Prop :=
  ∃ deleted inserted : List α, script = deleted.map .delete ++ inserted.map .insert

/-- One change may follow another: no deletion comes right behind an insertion. -/
def MayFollow : Change α → Change α → Prop
  | .insert _, .delete _ => False
  | _, _ => True

omit [BEq α] [LawfulBEq α] in
/-- Changes of one kind may follow each other. -/
theorem isChain_map (mark : α → Change α) (hmark : ∀ x y, MayFollow (mark x) (mark y))
    (lines : List α) : (lines.map mark).IsChain MayFollow :=
  (List.pairwise_map.mpr (List.pairwise_of_forall hmark)).isChain

/-- What is common to two lists stays so if one of them grows. -/
theorem longestCommon_le_cons (old new : List α) (y : α) :
    longestCommon old new ≤ longestCommon old (y :: new) := by
  obtain ⟨hold, hnew⟩ := (between_walk longestCommon old new).sublist
  rw [← length_keptLines_walk old new]
  exact length_le_longestCommon hold (hnew.cons y)

/-- Behind an insertion the walk does not delete. -/
theorem mayFollow_head_walk {x y : α} (hshorter : longestCommon old (y :: new) <
      longestCommon (x :: old) new) :
    ∀ change ∈ (walk longestCommon (x :: old) new).head?, MayFollow (.insert y) change := by
  cases new with
  | nil =>
    rw [longestCommon_nil_right] at hshorter
    exact absurd hshorter (Nat.not_lt_zero _)
  | cons z new =>
    have hgrow := longestCommon_le_cons old (z :: new) y
    rw [longestCommon] at hshorter
    rw [walk]
    split
    · simp [MayFollow]
    · rename_i hdiffer
      rw [if_neg hdiffer] at hshorter
      rw [if_neg (by omega)]
      simp [MayFollow]

theorem isChain_walk (old new : List α) :
    (walk longestCommon old new).IsChain MayFollow := by
  fun_induction walk longestCommon old new with
  | case1 new => exact isChain_map .insert (fun _ _ => trivial) new
  | case2 old => exact isChain_map .delete (fun _ _ => trivial) old
  | case3 x old y new hequal ih =>
    exact List.isChain_cons.mpr ⟨fun change _ => by cases change <;> trivial, ih⟩
  | case4 x old y new hdiffer hlonger ih =>
    exact List.isChain_cons.mpr ⟨fun change _ => by cases change <;> trivial, ih⟩
  | case5 x old y new hdiffer hshorter ih =>
    exact List.isChain_cons.mpr ⟨mayFollow_head_walk (Nat.lt_of_not_le hshorter), ih⟩

theorem isChain_changes (old new : List α) : (changes old new).IsChain MayFollow := by
  obtain ⟨front, oldMiddle, newMiddle, back, -, -, hchanges⟩ := exists_changes_eq old new
  rw [hchanges, middle_eq]
  have hkeep : ∀ lines : List α, (lines.map .keep).IsChain MayFollow :=
    isChain_map .keep fun _ _ => trivial
  refine ((hkeep front).append (isChain_walk oldMiddle newMiddle)
    fun kept hkept change _ => ?_).append (hkeep back) fun change _ kept hkept => ?_
  · obtain ⟨line, -, rfl⟩ := List.mem_map.mp (List.mem_of_getLast? hkept)
    cases change <;> trivial
  · obtain ⟨line, -, rfl⟩ := List.mem_map.mp (List.mem_of_mem_head? hkept)
    cases change <;> trivial

omit [BEq α] [LawfulBEq α] in
/-- Where no line is kept, no insertion precedes a deletion. -/
theorem isBlock_of_isChain (hchain : script.IsChain MayFollow)
    (hchanged : ∀ change ∈ script, change.kept? = none) : IsBlock script := by
  induction script with
  | nil => exact ⟨[], [], rfl⟩
  | cons change script ih =>
    obtain ⟨hhead, hchain⟩ := List.isChain_cons.mp hchain
    obtain ⟨deleted, inserted, rfl⟩ := ih hchain fun other hother =>
      hchanged other (List.mem_cons_of_mem _ hother)
    cases change with
    | keep line => simpa [Change.kept?] using hchanged _ List.mem_cons_self
    | delete line => exact ⟨line :: deleted, inserted, rfl⟩
    | insert line =>
      cases deleted with
      | nil => exact ⟨[], line :: inserted, rfl⟩
      | cons other deleted => exact absurd (hhead (.delete other) rfl) id

/-- Deletions come before insertions. No deletion stands right behind an insertion, and
each stretch of changes that keeps nothing is made of deletions and then insertions. -/
theorem changes_delete_first (old new : List α) :
    (∀ before after x y, changes old new ≠ before ++ .insert x :: .delete y :: after) ∧
      ∀ block, block <:+: changes old new → (∀ change ∈ block, change.kept? = none) →
        IsBlock block := by
  have hchain := isChain_changes old new
  refine ⟨fun before after x y hchanges => ?_, fun block hblock hchanged => ?_⟩
  · rw [hchanges, List.isChain_append_cons_cons] at hchain
    exact hchain.2.1
  · have hpart : block.IsChain MayFollow := List.IsChain.infix hchain hblock
    exact isBlock_of_isChain hpart hchanged

/-- A block between kept lines, and one at the end. -/
theorem changes_delete_first_blocks :
    changes [0, 1, 2, 3, 4, 5] [0, 6, 3, 7, 8] =
        [.keep 0, .delete 1, .delete 2, .insert 6, .keep 3, .delete 4, .delete 5, .insert 7,
          .insert 8] ∧
      IsBlock [.delete 1, .delete 2, .insert 6] := by
  have hchanges : changes [0, 1, 2, 3, 4, 5] [0, 6, 3, 7, 8] =
      [.keep 0, .delete 1, .delete 2, .insert 6, .keep 3, .delete 4, .delete 5, .insert 7,
        .insert 8] := by decide +kernel
  obtain ⟨-, hblocks⟩ := changes_delete_first [0, 1, 2, 3, 4, 5] [0, 6, 3, 7, 8]
  refine ⟨hchanges, hblocks _ ?_ (by decide)⟩
  rw [hchanges]
  exact ⟨[.keep 0], [.keep 3, .delete 4, .delete 5, .insert 7, .insert 8], rfl⟩

end Diff

end Deadwood.Text
