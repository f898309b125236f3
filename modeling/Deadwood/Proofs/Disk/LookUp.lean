/-
# Where paths lead

A look-up goes through the segments of a path and follows links on its way. The
lemmas here say what of a path and of a disk it depends on: the steps of the
path, and the directories and links that it passes.

The last section is about names alone: from a directory without links below it
they lead to the place that they spell, if anything stands there or can be put
there.
-/

import Deadwood.Proofs.Disk.Tree

namespace Deadwood.Disk

open Deadwood.Path (IsName IsBelow isIdle)

variable {disk other : Disk} {here start location : Location} {follow : Bool} {links : Nat}
  {segments names rest : List String} {segment : String} {place : Place}

/-! ## One step of a look-up -/

theorem lookUp_nil (disk : Disk) (follow : Bool) (links : Nat) (here : Location) :
    lookUp disk follow links here [] = .ok (.found here .directory) := by
  rw [lookUp]

theorem lookUp_cons_idle (hidle : isIdle segment = true) :
    lookUp disk follow links here (segment :: rest) = lookUp disk follow links here rest := by
  rw [lookUp, if_pos (by simpa [isIdle] using hidle)]

theorem lookUp_cons_up :
    lookUp disk follow links here (".." :: rest) = lookUp disk follow links here.dropLast rest := by
  rw [lookUp, if_neg (by decide), if_pos (by decide)]

/-- What a look-up does with a name: it turns to the entry of that name. -/
theorem lookUp_cons_name (hidle : isIdle segment = false) (hup : segment ≠ "..") :
    lookUp disk follow links here (segment :: rest) =
      if 255 < segment.utf8ByteSize then .error .nameTooLong
      else
        match disk.get? (here ++ [segment]) with
        | none =>
          if rest.all (·.isEmpty) then .ok (.missing (here ++ [segment]) (!rest.isEmpty))
          else .error .notFound
        | some .directory => lookUp disk follow links (here ++ [segment]) rest
        | some (.file bytes) =>
          if rest.isEmpty then .ok (.found (here ++ [segment]) (.file bytes))
          else .error .notDirectory
        | some (.link target) =>
          if rest.isEmpty && !follow then .ok (.found (here ++ [segment]) (.link target))
          else
            match links with
            | 0 => .error .tooManyLinks
            | links + 1 =>
              lookUp disk follow links (if Path.isAbsolute ⟨target⟩ then [] else here)
                (Path.segments ⟨target⟩ ++ rest) := by
  have hnot : (segment.isEmpty || segment == ".") = false := hidle
  by_cases hlong : 255 < segment.utf8ByteSize
  · rw [lookUp]
    simp [hnot, hup, hlong]
  · cases hentry : disk.get? (here ++ [segment]) with
    | none =>
      rw [lookUp]
      simp [hnot, hup, hlong, hentry]
    | some entry =>
      rw [lookUp]
      cases entry with
      | file bytes => simp [hnot, hup, hlong, hentry]
      | directory => simp [hnot, hup, hlong, hentry]
      | link target => cases links <;> simp [hnot, hup, hlong, hentry]

/-- What holds of every look-up: it holds at the end of the segments, and it holds
in front of one more segment if it holds behind it and, for a name, with fewer
links left. -/
theorem lookUp_induction {motive : Nat → Location → List String → Prop}
    (nil : ∀ links here, motive links here [])
    (idle : ∀ links here segment rest, isIdle segment = true → motive links here rest →
      motive links here (segment :: rest))
    (up : ∀ links here rest, motive links here.dropLast rest → motive links here (".." :: rest))
    (name : ∀ links here segment rest, isIdle segment = false → segment ≠ ".." →
      motive links (here ++ [segment]) rest →
      (∀ fewer < links, ∀ base segments, motive fewer base segments) →
      motive links here (segment :: rest))
    (links : Nat) (here : Location) (segments : List String) : motive links here segments := by
  induction links using Nat.strongRecOn generalizing here segments with
  | ind links fewer =>
    induction segments generalizing here with
    | nil => exact nil links here
    | cons segment rest behind =>
      by_cases hidle : isIdle segment = true
      · exact idle links here segment rest hidle (behind here)
      · rw [Bool.not_eq_true] at hidle
        by_cases hup : segment = ".."
        · subst hup
          exact up links here rest (behind here.dropLast)
        · exact name links here segment rest hidle hup (behind _) fewer

/-! ## The way of a look-up -/

/-- A name that a look-up turns to the entry of. -/
structure IsTurn (segment : String) : Prop where
  notIdle : isIdle segment = false
  notUp : segment ≠ ".."
  fits : segment.utf8ByteSize ≤ 255

/-- What a look-up can end at when it comes to a name that leads to a place,
unless it goes on from there. -/
inductive Ending (disk : Disk) (follow : Bool) (location : Location) (rest : List String) :
    Place → Prop
  | missing (hfree : disk.get? location = none) (hrest : rest.all (·.isEmpty) = true) :
      Ending disk follow location rest (.missing location (!rest.isEmpty))
  | file {bytes : ByteArray} (hentry : disk.get? location = some (.file bytes))
      (hrest : rest = []) : Ending disk follow location rest (.found location (.file bytes))
  | link {target : String} (hentry : disk.get? location = some (.link target))
      (hrest : rest = []) (hfollow : follow = false) :
      Ending disk follow location rest (.found location (.link target))

theorem lookUp_cons_ending (turn : IsTurn segment)
    (hends : Ending disk follow (here ++ [segment]) rest place) :
    lookUp disk follow links here (segment :: rest) = .ok place := by
  rw [lookUp_cons_name turn.notIdle turn.notUp, if_neg (Nat.not_lt.mpr turn.fits)]
  cases hends with
  | missing hfree hrest => rw [hfree, if_pos hrest]
  | file hentry hrest => simp [hentry, hrest]
  | link hentry hrest hfollow => simp [hentry, hrest, hfollow]

theorem lookUp_cons_directory (turn : IsTurn segment)
    (hentry : disk.get? (here ++ [segment]) = some .directory) :
    lookUp disk follow links here (segment :: rest) =
      lookUp disk follow links (here ++ [segment]) rest := by
  rw [lookUp_cons_name turn.notIdle turn.notUp, if_neg (Nat.not_lt.mpr turn.fits), hentry]

theorem lookUp_cons_link {target : String} (turn : IsTurn segment)
    (hentry : disk.get? (here ++ [segment]) = some (.link target))
    (hinner : (rest.isEmpty && !follow) = false) :
    lookUp disk follow (links + 1) here (segment :: rest) =
      lookUp disk follow links (if Path.isAbsolute ⟨target⟩ then [] else here)
        (Path.segments ⟨target⟩ ++ rest) := by
  rw [lookUp_cons_name turn.notIdle turn.notUp, if_neg (Nat.not_lt.mpr turn.fits), hentry]
  simp only [hinner, Bool.false_eq_true, if_false]

/-- The way on which a look-up comes to a place: at each name it ends, or goes on in a
directory or behind a link. -/
inductive Walk (disk : Disk) (follow : Bool) (place : Place) :
    Nat → Location → List String → Prop
  | nil {links : Nat} {here : Location} (hplace : place = .found here .directory) :
      Walk disk follow place links here []
  | idle {links : Nat} {here : Location} {segment : String} {rest : List String}
      (hidle : isIdle segment = true)
      (behind : Walk disk follow place links here rest) :
      Walk disk follow place links here (segment :: rest)
  | up {links : Nat} {here : Location} {rest : List String}
      (behind : Walk disk follow place links here.dropLast rest) :
      Walk disk follow place links here (".." :: rest)
  | ends {links : Nat} {here : Location} {segment : String} {rest : List String}
      (turn : IsTurn segment)
      (hends : Ending disk follow (here ++ [segment]) rest place) :
      Walk disk follow place links here (segment :: rest)
  | directory {links : Nat} {here : Location} {segment : String} {rest : List String}
      (turn : IsTurn segment)
      (hentry : disk.get? (here ++ [segment]) = some .directory)
      (behind : Walk disk follow place links (here ++ [segment]) rest) :
      Walk disk follow place links here (segment :: rest)
  | followed {links : Nat} {here : Location} {segment : String} {rest : List String}
      (target : String) (turn : IsTurn segment)
      (hentry : disk.get? (here ++ [segment]) = some (.link target))
      (hinner : (rest.isEmpty && !follow) = false)
      (behind : Walk disk follow place links (if Path.isAbsolute ⟨target⟩ then [] else here)
        (Path.segments ⟨target⟩ ++ rest)) :
      Walk disk follow place (links + 1) here (segment :: rest)

theorem walk_of_lookUp (hplace : lookUp disk follow links here segments = .ok place) :
    Walk disk follow place links here segments := by
  induction links, here, segments using lookUp_induction with
  | nil links here =>
    rw [lookUp_nil] at hplace
    exact .nil (Except.ok.inj hplace).symm
  | idle links here segment rest hidle ih =>
    rw [lookUp_cons_idle hidle] at hplace
    exact .idle hidle (ih hplace)
  | up links here rest ih =>
    rw [lookUp_cons_up] at hplace
    exact .up (ih hplace)
  | name links here segment rest hidle hup ih fewer =>
    rw [lookUp_cons_name hidle hup] at hplace
    split at hplace
    · simp at hplace
    rename_i hshort
    have turn : IsTurn segment := ⟨hidle, hup, Nat.le_of_not_lt hshort⟩
    split at hplace
    · rename_i hfree
      split at hplace
      · rename_i hrest
        obtain rfl := Except.ok.inj hplace
        exact .ends turn (.missing hfree hrest)
      · simp at hplace
    · rename_i hentry
      exact .directory turn hentry (ih hplace)
    · rename_i bytes hentry
      split at hplace
      · rename_i hrest
        obtain rfl := Except.ok.inj hplace
        exact .ends turn (.file hentry (List.isEmpty_iff.mp hrest))
      · simp at hplace
    · rename_i target hentry
      split at hplace
      · rename_i hlast
        rw [Bool.and_eq_true, List.isEmpty_iff, Bool.not_eq_true'] at hlast
        obtain rfl := Except.ok.inj hplace
        exact .ends turn (.link hentry hlast.1 hlast.2)
      · rename_i hinner
        cases links with
        | zero => simp at hplace
        | succ links =>
          exact .followed target turn hentry (by simpa using hinner)
            (fewer links (Nat.lt_succ_self links) _ _ hplace)

theorem Walk.lookUp (walk : Walk disk follow place links here segments) :
    lookUp disk follow links here segments = .ok place := by
  induction walk with
  | nil hplace => rw [lookUp_nil, hplace]
  | idle hidle _ ih => rwa [lookUp_cons_idle hidle]
  | up _ ih => rwa [lookUp_cons_up]
  | ends turn hends => exact lookUp_cons_ending turn hends
  | directory turn hentry _ ih => rwa [lookUp_cons_directory turn hentry]
  | followed target turn hentry hinner _ ih => rwa [lookUp_cons_link turn hentry hinner]

/-! ## What a look-up depends on -/

/-- Disks with the same entries look paths up alike. -/
theorem lookUp_congr (hsame : ∀ location, other.get? location = disk.get? location)
    (follow : Bool) (links : Nat) (here : Location) (segments : List String) :
    lookUp other follow links here segments = lookUp disk follow links here segments := by
  induction links, here, segments using lookUp_induction with
  | nil links here => rw [lookUp_nil, lookUp_nil]
  | idle links here segment rest hidle ih => rw [lookUp_cons_idle hidle, lookUp_cons_idle hidle, ih]
  | up links here rest ih => rw [lookUp_cons_up, lookUp_cons_up, ih]
  | name links here segment rest hidle hup ih fewer =>
    rw [lookUp_cons_name hidle hup, lookUp_cons_name hidle hup, hsame, ih]
    cases links with
    | zero => rfl
    | succ links => simp only [fewer links (Nat.lt_succ_self links)]

/-- Segments that a look-up passes over make no difference in front of others. -/
theorem lookUp_filter {last : String} (hlast : segments.getLast? = some last)
    (hname : isIdle last = false) :
    lookUp disk follow links here segments =
      lookUp disk follow links here (segments.filter (!isIdle ·)) := by
  induction links, here, segments using lookUp_induction with
  | nil links here => rfl
  | idle links here segment rest hidle ih =>
    rw [lookUp_cons_idle hidle, List.filter_cons_of_neg (by simp [hidle])]
    cases rest with
    | nil => simp_all
    | cons next more => exact ih (by simpa using hlast)
  | up links here rest ih =>
    rw [lookUp_cons_up, List.filter_cons_of_pos (by decide), lookUp_cons_up]
    cases rest with
    | nil => rfl
    | cons next more => exact ih (by simpa using hlast)
  | name links here segment rest hidle hup ih fewer =>
    rw [List.filter_cons_of_pos (by simp [hidle]), lookUp_cons_name hidle hup,
      lookUp_cons_name hidle hup]
    by_cases hrest : rest = []
    · subst hrest
      rfl
    · have hlast' : rest.getLast? = some last := by
        obtain ⟨next, more, rfl⟩ := List.exists_cons_of_ne_nil hrest
        simpa using hlast
      have hmem : last ∈ rest := List.mem_of_getLast? hlast'
      have hkept : last ∈ rest.filter (!isIdle ·) := List.mem_filter.mpr ⟨hmem, by simp [hname]⟩
      have hne : last ≠ "" := by
        rintro rfl
        simp at hname
      have hall : rest.all (·.isEmpty) = false :=
        List.all_eq_false.mpr ⟨last, hmem, by simpa using hne⟩
      have hall' : (rest.filter (!isIdle ·)).all (·.isEmpty) = false :=
        List.all_eq_false.mpr ⟨last, hkept, by simpa using hne⟩
      have hempty : rest.isEmpty = false := by simpa using hrest
      have hempty' : (rest.filter (!isIdle ·)).isEmpty = false := by
        simpa using List.ne_nil_of_mem hkept
      simp only [hall, hall', hempty, hempty', ih hlast', Bool.false_eq_true, if_false,
        Bool.false_and]
      cases links with
      | zero => rfl
      | succ links =>
        have hbehind : ∀ base front,
            lookUp disk follow links base (front ++ rest) =
              lookUp disk follow links base (front ++ rest.filter (!isIdle ·)) := by
          intro base front
          rw [fewer links (Nat.lt_succ_self links) base (front ++ rest),
            fewer links (Nat.lt_succ_self links) base (front ++ rest.filter (!isIdle ·))]
          · simp [List.filter_append, List.filter_filter]
          · obtain ⟨more, rfl⟩ := List.getLast?_eq_some_iff.mp hlast'
            simp [List.filter_append, hname, ← List.append_assoc]
          · simp [List.getLast?_append, hlast']
        simp only [hbehind]

/-- Behind a directory a look-up goes on from there. -/
theorem lookUp_append
    (hfound : lookUp disk true links start segments = .ok (.found here .directory)) :
    ∃ left, ∀ follow names, names ≠ [] →
      lookUp disk follow links start (segments ++ names) = lookUp disk follow left here names := by
  replace hfound := walk_of_lookUp hfound
  induction hfound with
  | @nil links _ hplace =>
    obtain ⟨rfl⟩ := hplace
    exact ⟨links, fun _ _ _ => rfl⟩
  | idle hidle _ ih => simpa only [List.cons_append, lookUp_cons_idle hidle] using ih
  | up _ ih => simpa only [List.cons_append, lookUp_cons_up] using ih
  | ends _ hends => cases hends
  | directory turn hentry _ ih =>
    simpa only [List.cons_append, lookUp_cons_directory turn hentry] using ih
  | followed target turn hentry _ _ ih =>
    obtain ⟨left, hleft⟩ := ih
    refine ⟨left, fun follow names hne => ?_⟩
    rw [List.cons_append, lookUp_cons_link turn hentry (by simp [hne]), ← List.append_assoc,
      hleft follow names hne]

/-- A directory is found again on a disk that has the same directories and links, also
if a link at the end is followed then. -/
theorem lookUp_directory_of_keeps {anew : Bool} (hanew : follow = true → anew = true)
    (hkeeps : ∀ location entry, disk.get? location = some entry → (∀ bytes, entry ≠ .file bytes) →
      other.get? location = some entry)
    (hfound : lookUp disk follow links start segments = .ok (.found here .directory)) :
    lookUp other anew links start segments = .ok (.found here .directory) := by
  replace hfound := walk_of_lookUp hfound
  induction hfound with
  | nil hplace => rw [lookUp_nil, hplace]
  | idle hidle _ ih => rwa [lookUp_cons_idle hidle]
  | up _ ih => rwa [lookUp_cons_up]
  | ends _ hends => cases hends
  | directory turn hentry _ ih => rwa [lookUp_cons_directory turn (hkeeps _ _ hentry nofun)]
  | followed target turn hentry hinner _ ih =>
    rwa [lookUp_cons_link turn (hkeeps _ _ hentry nofun) (by cases follow <;> simp_all)]

/-- A look-up of a directory that does not follow a link at the end finds the
directory or such a link. -/
theorem lookUp_not_follow
    (hfound : lookUp disk true links start segments = .ok (.found here .directory)) :
    lookUp disk false links start segments = .ok (.found here .directory) ∨
      ∃ place target, lookUp disk false links start segments = .ok (.found place (.link target)) := by
  replace hfound := walk_of_lookUp hfound
  induction hfound with
  | nil hplace => exact .inl (by rw [lookUp_nil, hplace])
  | idle hidle _ ih => rwa [lookUp_cons_idle hidle]
  | up _ ih => rwa [lookUp_cons_up]
  | ends _ hends => cases hends
  | directory turn hentry _ ih => rwa [lookUp_cons_directory turn hentry]
  | @followed _ _ _ rest target turn hentry _ _ ih =>
    by_cases hrest : rest = []
    · exact .inr ⟨_, target, lookUp_cons_ending turn (.link hentry hrest rfl)⟩
    · rwa [lookUp_cons_link turn hentry (by simp [hrest])]

/-! ## Names below a directory -/

/-- In a tree the names of a directory lead there, whatever links stand
elsewhere. -/
theorem lookUp_directory (tree : disk.IsTree)
    (hthere : disk.get? (here ++ names) = some .directory) :
    lookUp disk follow links here names = .ok (.found (here ++ names) .directory) := by
  induction names generalizing here with
  | nil => simp [lookUp_nil]
  | cons name rest ih =>
    have hfits := tree.named _ _ hthere name (by simp)
    have happend : here ++ name :: rest = here ++ [name] ++ rest := by simp
    rw [happend] at hthere ⊢
    have hfirst : disk.get? (here ++ [name]) = some .directory := by
      by_cases hrest : rest = []
      · simpa [hrest] using hthere
      · exact tree.get?_front hrest hthere
    rw [lookUp_cons_name hfits.1.not_isIdle hfits.1.notUp, if_neg (by have := hfits.2; omega),
      hfirst]
    exact ih hthere

/-- No link stands at a place or on the way to it. -/
def Direct (disk : Disk) (location : Location) : Prop :=
  ∀ front, front <+: location → ∀ target, disk.get? front ≠ some (.link target)

theorem direct_concat_iff {name : String} : disk.Direct (here ++ [name]) ↔
    disk.Direct here ∧ ∀ target, disk.get? (here ++ [name]) ≠ some (.link target) := by
  simp only [Direct, List.prefix_concat_iff]
  constructor
  · exact fun hdirect => ⟨fun front hfront => hdirect front (.inr hfront), hdirect _ (.inl rfl)⟩
  · rintro ⟨hway, hend⟩ front (rfl | hfront)
    · exact hend
    · exact hway front hfront

/-- In a tree nothing but directories is on the way to anything. -/
theorem IsTree.direct (tree : disk.IsTree) {entry : Entry} (hentry : disk.get? location = some entry)
    (hlink : ∀ target, entry ≠ .link target) : disk.Direct location := by
  rintro front ⟨back, rfl⟩ target hfront
  by_cases hback : back = []
  · rw [hback, List.append_nil, hfront] at hentry
    exact hlink target (Option.some.inj hentry).symm
  · simp [tree.get?_front hback hentry] at hfront

/-- All links on a disk are those of another. -/
def NoNewLinks (disk other : Disk) : Prop :=
  ∀ location target, other.get? location = some (.link target) →
    disk.get? location = some (.link target)

theorem NoNewLinks.trans {middle : Disk} (first : NoNewLinks disk middle)
    (second : NoNewLinks middle other) : NoNewLinks disk other :=
  fun location target hlink => first location target (second location target hlink)

theorem Alike.noNewLinks (halike : Alike disk other) : NoNewLinks disk other :=
  fun location _ hlink => (halike.get? location).symm.trans hlink

theorem NoNewLinks.direct (links : NoNewLinks disk other) (hdirect : disk.Direct location) :
    other.Direct location :=
  fun front hfront target hlink => hdirect front hfront target (links front target hlink)

theorem linkless_of_entries (hentries : ∀ item ∈ disk.entries, ∀ target, item.2 ≠ .link target)
    (location : Location) (target : String) : disk.get? location ≠ some (.link target) :=
  fun hlink => hentries _ (mem_of_get?_of_ne hlink (by simp)) target rfl

/-- A place where a file can be put: a name that fits, in a directory, where no
directory stands. -/
structure CanHold (disk : Disk) (location : Location) : Prop where
  around : disk.get? location.dropLast = some .directory
  fits : ∀ name ∈ location.getLast?, name.utf8ByteSize ≤ 255
  free : disk.get? location ≠ some .directory

/-- What stands somewhere can be taken the place of, unless it is a directory. -/
theorem IsTree.canHold (tree : disk.IsTree) (hne : location ≠ []) {entry : Entry}
    (hentry : disk.get? location = some entry) (hfile : entry ≠ .directory) :
    disk.CanHold location := by
  obtain ⟨front, name, rfl⟩ := Path.exists_append_singleton hne
  refine ⟨?_, ?_, by simpa [hentry] using hfile⟩
  · simpa using tree.nested front name entry hentry
  · intro last hlast
    obtain rfl : name = last := by simpa using hlast
    exact (tree.named _ _ hentry name (by simp)).2

/-- With no link on the way, names lead nowhere but to the place that they spell, and to
a free place only if the last of them is missing. -/
theorem place_of_lookUp_names (hhere : disk.get? here = some .directory)
    (hdirect : disk.Direct (here ++ names)) (hnames : ∀ name ∈ names, IsName name)
    (hplace : lookUp disk follow links here names = .ok place) :
    (∃ entry, place = .found (here ++ names) entry ∧ disk.get? (here ++ names) = some entry) ∨
      place = .missing (here ++ names) false ∧ disk.get? (here ++ names) = none ∧
        disk.CanHold (here ++ names) := by
  induction names generalizing here with
  | nil =>
    rw [lookUp_nil] at hplace
    exact .inl ⟨.directory, by simpa [eq_comm] using hplace, by simpa using hhere⟩
  | cons name rest ih =>
    have hname := hnames name List.mem_cons_self
    have hothers : ∀ other ∈ rest, IsName other := fun other hother =>
      hnames other (List.mem_cons_of_mem _ hother)
    cases walk_of_lookUp hplace with
    | idle hidle => simp [hname.not_isIdle] at hidle
    | up => exact absurd rfl hname.notUp
    | ends turn hends =>
      cases hends with
      | missing hfree hrest =>
        obtain rfl : rest = [] := by
          cases rest with
          | nil => rfl
          | cons other more => simp [(hothers other List.mem_cons_self).notEmpty] at hrest
        exact .inr ⟨rfl, hfree, by simpa using hhere, by simpa using turn.fits, by simp [hfree]⟩
      | file hentry hrest => exact .inl ⟨_, by rw [hrest], hrest ▸ hentry⟩
      | link hentry hrest _ => exact .inl ⟨_, by rw [hrest], hrest ▸ hentry⟩
    | directory _ hentry behind =>
      rw [← List.singleton_append, ← List.append_assoc] at hdirect
      have hbehind := ih hentry hdirect hothers behind.lookUp
      rwa [List.append_assoc, List.singleton_append] at hbehind
    | followed target _ hentry => exact absurd hentry (hdirect _ ⟨rest, by simp⟩ target)

/-- In a tree, a look-up comes to the last of some names if it stands in a directory. -/
theorem lookUp_last (tree : disk.IsTree) (hne : names ≠ []) (hnames : ∀ name ∈ names, IsName name)
    (hhold : disk.CanHold (here ++ names)) (hends : Ending disk follow (here ++ names) [] place) :
    lookUp disk follow links here names = .ok place := by
  obtain ⟨front, name, rfl⟩ := Path.exists_append_singleton hne
  have hname := hnames name (by simp)
  have haround : disk.get? (here ++ front) = some .directory := by
    simpa [← List.append_assoc] using hhold.around
  have hfront : lookUp disk true links here front = .ok (.found (here ++ front) .directory) :=
    lookUp_directory tree haround
  obtain ⟨left, hleft⟩ := lookUp_append hfront
  rw [hleft follow [name] (by simp)]
  exact lookUp_cons_ending ⟨hname.not_isIdle, hname.notUp, hhold.fits name (by simp)⟩
    (by rwa [List.append_assoc])

/-- With no link on the way, names lead to what stands behind them. -/
theorem lookUp_eq_found_iff (tree : disk.IsTree) (hhere : disk.get? here = some .directory)
    (hdirect : disk.Direct (here ++ names)) (hnames : ∀ name ∈ names, IsName name) {entry : Entry} :
    lookUp disk follow links here names = .ok (.found location entry) ↔
      location = here ++ names ∧ disk.get? (here ++ names) = some entry := by
  constructor
  · intro hfound
    rcases place_of_lookUp_names hhere hdirect hnames hfound with
      ⟨other, hplace, hentry⟩ | ⟨hplace, -⟩
    · obtain ⟨rfl, rfl⟩ := Place.found.inj hplace
      exact ⟨rfl, hentry⟩
    · cases hplace
  · rintro ⟨rfl, hentry⟩
    cases entry with
    | directory => exact lookUp_directory tree hentry
    | link target => exact absurd hentry (hdirect _ (List.prefix_refl _) target)
    | file bytes =>
      have hne : names ≠ [] := by
        rintro rfl
        simp [hhere] at hentry
      exact lookUp_last tree hne hnames (tree.canHold (by simp [hne]) hentry (by simp))
        (.file hentry rfl)

/-- With no link on the way, names lead to a free place exactly if only the last of them
is missing. -/
theorem lookUp_eq_missing_iff (tree : disk.IsTree) (hhere : disk.get? here = some .directory)
    (hdirect : disk.Direct (here ++ names)) (hnames : ∀ name ∈ names, IsName name) {slash : Bool} :
    lookUp disk follow links here names = .ok (.missing location slash) ↔
      location = here ++ names ∧ slash = false ∧ disk.get? (here ++ names) = none ∧
        disk.CanHold (here ++ names) := by
  constructor
  · intro hmissing
    rcases place_of_lookUp_names hhere hdirect hnames hmissing with
      ⟨entry, hplace, -⟩ | ⟨hplace, hfree⟩
    · cases hplace
    · obtain ⟨rfl, rfl⟩ := Place.missing.inj hplace
      exact ⟨rfl, rfl, hfree⟩
  · rintro ⟨rfl, rfl, hfree, hhold⟩
    have hne : names ≠ [] := by
      rintro rfl
      simp [hhere] at hfree
    exact lookUp_last tree hne hnames hhold (.missing hfree rfl)

end Deadwood.Disk
