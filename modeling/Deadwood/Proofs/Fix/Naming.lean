/-
# Names of backups

The name of a backup is the name of a file, a mark, and the digits of a run. This
module shows that the name can be read back, that different files and different
runs have different backups, and that no file that is analysed has the name of a
backup.
-/

import Deadwood.Fix.Backup
import Deadwood.Proofs.Path

namespace Deadwood.Fix

open Deadwood.Path (IsName)

variable {own other name digits millis : String} {location : Location}

/-! ## Digits -/

/-- A text of digits, as runs are named by. -/
structure IsDigits (text : String) : Prop where
  notEmpty : text ≠ ""
  decimal : ∀ c ∈ text.toList, Text.isDecimal c = true

private theorem isDecimal_of_isDigit {c : Char} (hc : c.isDigit = true) :
    Text.isDecimal c = true := by
  have hrange : 48 ≤ c.toNat ∧ c.toNat ≤ 57 := Char.isDigit_iff_toNat.mp hc
  rw [Text.isDecimal, if_pos (by omega), hc]

/-- Among the first characters only the ten digits are decimal. -/
private theorem range_of_isDecimal {c : Char} (hc : Text.isDecimal c = true)
    (hsmall : c.toNat < 0x80) : 48 ≤ c.toNat ∧ c.toNat ≤ 57 := by
  rw [Text.isDecimal, if_pos hsmall] at hc
  exact Char.isDigit_iff_toNat.mp hc

/-- A number is written with digits. -/
theorem isDigits_toString (n : Nat) : IsDigits (toString n) := by
  have htext : (toString n).toList = Nat.toDigits 10 n := by
    rw [Nat.toString_eq_ofList_toDigits, String.toList_ofList]
  refine ⟨?_, ?_⟩
  · intro hempty
    have hlength := Nat.length_toDigits_pos (b := 10) (n := n)
    rw [← htext, hempty] at hlength
    simp at hlength
  · intro c hc
    rw [htext] at hc
    exact isDecimal_of_isDigit (Nat.isDigit_of_mem_toDigits (by decide) (by decide) hc)

theorem toString_inj {m n : Nat} (hsame : toString m = toString n) : m = n := by
  rw [Nat.toString_eq_ofList_toDigits, Nat.toString_eq_ofList_toDigits] at hsame
  have hdigits := String.ofList_injective hsame
  calc m = Nat.ofDigitChars 10 (Nat.toDigits 10 m) 0 := Nat.ofDigitChars_ten_toDigits.symm
    _ = Nat.ofDigitChars 10 (Nat.toDigits 10 n) 0 := by rw [hdigits]
    _ = n := Nat.ofDigitChars_ten_toDigits

/-- A text that can stand in a name. -/
def FitsInName (text : String) : Prop :=
  '/' ∉ text.toList ∧ ∀ c ∈ text.toList, c.toNat ≠ 0

instance (text : String) : Decidable (FitsInName text) :=
  decidable_of_iff ('/' ∉ text.toList ∧ text.toList.all (·.toNat != 0) = true)
    (by simp [FitsInName])

theorem FitsInName.append {text back : String} (htext : FitsInName text) (hback : FitsInName back) :
    FitsInName (text ++ back) := by
  refine ⟨?_, ?_⟩
  · rw [String.toList_append, List.mem_append, not_or]
    exact ⟨htext.1, hback.1⟩
  · intro c hc
    rw [String.toList_append, List.mem_append] at hc
    exact hc.elim (htext.2 c) (hback.2 c)

/-- Such a text is a name by itself, unless it has nothing but dots. -/
theorem FitsInName.isName {text : String} (htext : FitsInName text) {c : Char}
    (hc : c ∈ text.toList) (hdot : c ≠ '.') : IsName text := by
  refine ⟨?_, ?_, ?_, htext.1, htext.2⟩
  · rintro rfl
    simp at hc
  · rintro rfl
    simp [hdot] at hc
  · rintro rfl
    simp [hdot] at hc

theorem fitsInName_of_isName (hname : IsName name) : FitsInName name :=
  ⟨hname.noSlash, hname.noZero⟩

theorem IsDigits.fitsInName (hdigits : IsDigits digits) : FitsInName digits := by
  refine ⟨fun hslash => absurd (hdigits.decimal _ hslash) (by decide), ?_⟩
  intro c hc hzero
  have hrange := range_of_isDecimal (hdigits.decimal c hc) (by omega)
  omega

theorem getLast?_toList_append {back : String} {c : Char} (hback : back.toList.getLast? = some c)
    (front : String) : (front ++ back).toList.getLast? = some c := by
  rw [String.toList_append, List.getLast?_append, hback, Option.some_or]

/-- A text whose last character is a digit. -/
def EndsWithDigit (text : String) : Prop :=
  ∃ c, text.toList.getLast? = some c ∧ Text.isDecimal c = true

theorem EndsWithDigit.append (hdigit : EndsWithDigit millis) (front : String) :
    EndsWithDigit (front ++ millis) := by
  obtain ⟨c, hc, hdecimal⟩ := hdigit
  exact ⟨c, getLast?_toList_append hc front, hdecimal⟩

theorem IsDigits.endsWithDigit (hdigits : IsDigits digits) : EndsWithDigit digits := by
  have hne : digits.toList ≠ [] := by simpa using hdigits.notEmpty
  exact ⟨_, List.getLast?_eq_some_getLast hne, hdigits.decimal _ (List.getLast_mem hne)⟩

/-- The time of a run is written with digits, behind a sign if it was before 1970. -/
private theorem exists_of_ofMillis? {millis : Int} {stamp : Stamp}
    (hstamp : Stamp.ofMillis? millis = some stamp) :
    ∃ digits, IsDigits digits ∧ (stamp.millis = digits ∨ stamp.millis = "-" ++ digits) := by
  have hmillis : stamp.millis = toString millis := by
    unfold Stamp.ofMillis? at hstamp
    split at hstamp
    · obtain rfl := Option.some.inj hstamp
      rfl
    · simp at hstamp
  rw [hmillis]
  cases millis with
  | ofNat n => exact ⟨_, isDigits_toString n, .inl rfl⟩
  | negSucc n => exact ⟨_, isDigits_toString (n + 1), .inr rfl⟩

/-- The time of a run can stand in a name. -/
theorem fitsInName_of_ofMillis? {millis : Int} {stamp : Stamp}
    (hstamp : Stamp.ofMillis? millis = some stamp) : FitsInName stamp.millis := by
  obtain ⟨digits, hdigits, hmillis | hmillis⟩ := exists_of_ofMillis? hstamp
  · rw [hmillis]
    exact hdigits.fitsInName
  · have htext : stamp.millis.toList = '-' :: digits.toList := by simp [hmillis]
    obtain ⟨hslash, hzero⟩ := hdigits.fitsInName
    refine ⟨?_, ?_⟩
    · rw [htext, List.mem_cons]
      rintro (hminus | hslash')
      · exact absurd hminus (by decide)
      · exact hslash hslash'
    · intro c hc
      rw [htext, List.mem_cons] at hc
      rcases hc with rfl | hc
      · decide
      · exact hzero c hc

theorem endsWithDigit_of_ofMillis? {millis : Int} {stamp : Stamp}
    (hstamp : Stamp.ofMillis? millis = some stamp) : EndsWithDigit stamp.millis := by
  obtain ⟨digits, hdigits, hmillis | hmillis⟩ := exists_of_ofMillis? hstamp
  · rw [hmillis]
    exact hdigits.endsWithDigit
  · rw [hmillis]
    exact hdigits.endsWithDigit.append "-"

/-! ## Reading names -/

/-- The name of the backup of a file in a run. -/
def backupName (name millis : String) : String :=
  name ++ ".bak." ++ millis

theorem toList_backupName :
    (backupName name millis).toList = name.toList ++ backupMark ++ millis.toList := by
  simp [backupName, backupMark]

/-- A name that backups can have. -/
def IsBackupName (name : String) : Prop :=
  ∃ own digits, IsDigits digits ∧ name = backupName own digits

theorem IsBackupName.endsWithDigit (hname : IsBackupName name) : EndsWithDigit name := by
  obtain ⟨own, digits, hdigits, rfl⟩ := hname
  exact hdigits.endsWithDigit.append (own ++ ".bak.")

private theorem takeWhile_reverse (front : List Char) {c : Char} (hc : Text.isDecimal c = false)
    {digits : List Char} (hdigits : ∀ c ∈ digits, Text.isDecimal c = true) :
    ((front ++ c :: digits).reverse.takeWhile Text.isDecimal).reverse = digits ∧
      ((front ++ c :: digits).reverse.dropWhile Text.isDecimal).reverse = front ++ [c] := by
  have hall : ∀ c ∈ digits.reverse, Text.isDecimal c = true := by simpa using hdigits
  have hnot : ¬ Text.isDecimal c = true := by simp [hc]
  rw [List.reverse_append, List.reverse_cons, List.append_assoc, List.takeWhile_append_of_pos hall,
    List.dropWhile_append_of_pos hall]
  simp [hnot]

/-- The digits at the end of a text can be told from what stands before them. -/
theorem append_digits_inj {front front' digits digits' : List Char} {c c' : Char}
    (hc : Text.isDecimal c = false) (hc' : Text.isDecimal c' = false)
    (hdigits : ∀ c ∈ digits, Text.isDecimal c = true)
    (hdigits' : ∀ c ∈ digits', Text.isDecimal c = true)
    (hsame : front ++ c :: digits = front' ++ c' :: digits') :
    front ++ [c] = front' ++ [c'] ∧ digits = digits' := by
  obtain ⟨htake, hdrop⟩ := takeWhile_reverse front hc hdigits
  obtain ⟨htake', hdrop'⟩ := takeWhile_reverse front' hc' hdigits'
  rw [hsame] at htake hdrop
  exact ⟨hdrop.symm.trans hdrop', htake.symm.trans htake'⟩

private theorem append_backupMark (front digits : List Char) :
    front ++ backupMark ++ digits = front ++ ['.', 'b', 'a', 'k'] ++ '.' :: digits := by
  simp [backupMark]

/-- Which names are read as names of backups, and how. -/
theorem backupParts?_eq_some_iff {chars front back : List Char} :
    backupParts? chars = some (front, back) ↔
      chars = front ++ backupMark ++ back ∧ front ≠ [] ∧ '\n' ∉ front ∧ back ≠ [] ∧
        ∀ c ∈ back, Text.isDecimal c = true := by
  constructor
  · intro hparts
    unfold backupParts? at hparts
    simp only [] at hparts
    split at hparts
    · simp at hparts
    rename_i hmarked
    split at hparts
    · simp at hparts
    rename_i hfront
    simp only [Bool.or_eq_true, List.isEmpty_iff, Bool.not_eq_true', not_or, Bool.not_eq_false,
      List.isSuffixOf_iff_suffix] at hmarked
    simp only [Bool.or_eq_true, List.isEmpty_iff, List.contains_eq_mem, decide_eq_true_eq,
      not_or] at hfront
    simp only [Option.some.injEq, Prod.mk.injEq] at hparts
    obtain ⟨rfl, rfl⟩ := hparts
    obtain ⟨hdigits, before, hbefore⟩ := hmarked
    refine ⟨?_, hfront.1, hfront.2, hdigits, ?_⟩
    · rw [← hbefore, List.length_append, Nat.add_sub_cancel, List.take_left', hbefore,
        ← List.reverse_append, List.takeWhile_append_dropWhile, List.reverse_reverse]
      rfl
    · intro c hc
      have hall := List.all_takeWhile (l := chars.reverse) (p := Text.isDecimal)
      rw [List.all_eq_true] at hall
      exact hall c (List.mem_reverse.mp hc)
  · rintro ⟨rfl, hfront, hbreak, hback, hdigits⟩
    have hdot : Text.isDecimal '.' = false := by decide
    obtain ⟨htake, hdrop⟩ := takeWhile_reverse (front ++ ['.', 'b', 'a', 'k']) hdot hdigits
    have hmark : front ++ ['.', 'b', 'a', 'k'] ++ ['.'] = front ++ backupMark := by
      simp [backupMark]
    rw [← append_backupMark] at htake hdrop
    rw [hmark] at hdrop
    have hsuffix : backupMark.isSuffixOf (front ++ backupMark) = true :=
      List.isSuffixOf_iff_suffix.mpr (List.suffix_append front backupMark)
    have hown : (front ++ backupMark).take ((front ++ backupMark).length - backupMark.length) =
        front := by simp
    simp only [backupParts?, htake, hdrop, hsuffix, hown]
    simp [hfront, hbreak, hback]

/-- A name that is read as that of a backup. -/
def ReadsAsBackup (name : String) : Prop :=
  (backupParts? name.toList).isSome = true

theorem readsAsBackup_iff : ReadsAsBackup name ↔
    ∃ own digits, own ≠ "" ∧ '\n' ∉ own.toList ∧ IsDigits digits ∧ name = backupName own digits := by
  rw [ReadsAsBackup, Option.isSome_iff_exists]
  constructor
  · rintro ⟨⟨own, digits⟩, hparts⟩
    obtain ⟨hchars, hown, hbreak, hdigits, hdecimal⟩ := backupParts?_eq_some_iff.mp hparts
    refine ⟨String.ofList own, String.ofList digits, by simpa using hown, by simpa using hbreak,
      ⟨by simpa using hdigits, by simpa using hdecimal⟩, ?_⟩
    apply String.toList_injective
    rw [toList_backupName, hchars, String.toList_ofList, String.toList_ofList]
  · rintro ⟨own, digits, hown, hbreak, hdigits, rfl⟩
    refine ⟨(own.toList, digits.toList), backupParts?_eq_some_iff.mpr
      ⟨toList_backupName, by simpa using hown, hbreak, ?_, hdigits.decimal⟩⟩
    simpa using hdigits.notEmpty

/-- Which paths are read as backups, and how. -/
theorem ofPath?_eq_some_iff {path : Path} {backup : Backup} :
    Backup.ofPath? path = some backup ↔ ∃ own, own ≠ "" ∧ '\n' ∉ own.toList ∧
      IsDigits backup.stamp ∧ path.name? = some (backupName own backup.stamp) ∧
      backup.path = path ∧ backup.source = path.withName own := by
  rw [Backup.ofPath?, Option.bind_eq_some_iff]
  constructor
  · rintro ⟨name, hname, hread⟩
    obtain ⟨⟨own, digits⟩, hparts, rfl⟩ := Option.map_eq_some_iff.mp hread
    obtain ⟨hchars, hown, hbreak, hdigits, hdecimal⟩ := backupParts?_eq_some_iff.mp hparts
    refine ⟨String.ofList own, by simpa using hown, by simpa using hbreak,
      ⟨by simpa using hdigits, by simpa using hdecimal⟩, ?_, rfl, rfl⟩
    rw [hname, Option.some.injEq]
    apply String.toList_injective
    rw [toList_backupName, hchars]
    simp
  · rintro ⟨own, hown, hbreak, hdigits, hname, hpath, hsource⟩
    refine ⟨_, hname, Option.map_eq_some_iff.mpr ⟨(own.toList, backup.stamp.toList),
      backupParts?_eq_some_iff.mpr
        ⟨toList_backupName, by simpa using hown, hbreak, ?_, hdigits.decimal⟩, ?_⟩⟩
    · simpa using hdigits.notEmpty
    · cases backup
      simp_all

/-- Names of backups tell the runs and the files apart. -/
theorem backupName_inj {digits' : String} (hdigits : IsDigits digits) (hdigits' : IsDigits digits')
    (hsame : backupName own digits = backupName other digits') : own = other ∧ digits = digits' := by
  have hchars := congrArg String.toList hsame
  rw [toList_backupName, toList_backupName, append_backupMark, append_backupMark] at hchars
  obtain ⟨hfront, hback⟩ :=
    append_digits_inj (by decide) (by decide) hdigits.decimal hdigits'.decimal hchars
  exact ⟨String.toList_injective (List.append_cancel_right (List.append_cancel_right hfront)),
    String.toList_injective hback⟩

/-- The name of a backup is a name. -/
theorem isName_backupName (hname : IsName name) (hmillis : FitsInName millis) :
    IsName (backupName name millis) := by
  have hfits : FitsInName (backupName name millis) :=
    ((fitsInName_of_isName hname).append (by decide)).append hmillis
  have hb : 'b' ∈ (backupName name millis).toList := by simp [toList_backupName, backupMark]
  exact hfits.isName hb (by decide)

/-! ## Names of sources -/

/-- A name that ends with the last letter of an ending that stands for a
language. -/
def EndsAsCode (name : String) : Prop :=
  ∃ c, name.toList.getLast? = some c ∧ c.toLower ∈ ['l', 'm', 's']

/-- The ending of a name is what its last characters are. -/
theorem exists_of_extension? {path : Path} {ending : String}
    (hextension : path.extension? = some ending) (hname : path.name? = some name) :
    ∃ front, name.toList = front ++ '.' :: ending.toList := by
  rw [Path.extension?, hname, Option.bind_some] at hextension
  dsimp only at hextension
  split at hextension
  · simp at hextension
  · rename_i dot before hdrop
    split at hextension
    · simp at hextension
    obtain rfl := Option.some.inj hextension
    have hdot : dot = '.' := by
      have hnot := List.head?_dropWhile_not (p := (· != '.')) name.toList.reverse
      simpa [hdrop] using hnot
    refine ⟨before.reverse, ?_⟩
    have hchars := List.takeWhile_append_dropWhile (p := (· != '.')) (l := name.toList.reverse)
    rw [hdrop, hdot] at hchars
    simpa using (congrArg List.reverse hchars).symm

theorem EndsAsCode.append (hname : EndsAsCode name) (front : String) :
    EndsAsCode (front ++ name) := by
  obtain ⟨c, hc, hmem⟩ := hname
  exact ⟨c, getLast?_toList_append hc front, hmem⟩

/-- Files that are analysed are named like that. -/
theorem endsAsCode_of_kind {path : Path} {kind : FileKind}
    (hkind : FileKind.ofPath? path = some kind) (hname : path.name? = some name) :
    EndsAsCode name := by
  obtain ⟨ending, hextension, hending⟩ := Option.bind_eq_some_iff.mp hkind
  obtain ⟨front, hchars⟩ := exists_of_extension? hextension hname
  have hknown : Path.lowerAscii ending ∈ ["html", "htm", "ejs", "css", "js", "mjs", "cjs"] := by
    by_contra hunknown
    simp only [List.mem_cons, List.not_mem_nil, or_false, not_or] at hunknown
    simp [hunknown] at hending
  have hletters : ["html", "htm", "ejs", "css", "js", "mjs", "cjs"].all
      (fun known => known.toList.getLast?.any (['l', 'm', 's'].contains ·)) = true := by decide
  have hlast := List.all_eq_true.mp hletters _ hknown
  rw [Path.lowerAscii, String.toList_ofList, List.getLast?_map] at hlast
  cases hend : ending.toList.getLast? with
  | none => simp [hend] at hlast
  | some c =>
    refine ⟨c, ?_, by simpa [hend] using hlast⟩
    rw [hchars, List.getLast?_append, List.getLast?_cons, hend]
    rfl

private theorem toLower_of_isDecimal {c : Char} (hc : Text.isDecimal c = true) : c.toLower = c := by
  apply dif_neg
  rintro ⟨hfrom, hto⟩
  have hupper : 65 ≤ c.toNat ∧ c.toNat ≤ 90 := ⟨hfrom, hto⟩
  have hrange := range_of_isDecimal hc (by omega)
  omega

/-- No such name ends with a digit. -/
theorem EndsAsCode.not_endsWithDigit (hname : EndsAsCode name) : ¬ EndsWithDigit name := by
  rintro ⟨c, hlast, hdecimal⟩
  obtain ⟨letter, hletter, hmem⟩ := hname
  obtain rfl : c = letter := Option.some.inj (hlast.symm.trans hletter)
  rw [toLower_of_isDecimal hdecimal] at hmem
  have hletters : ['l', 'm', 's'].all (!Text.isDecimal ·) = true := by decide
  simpa [hdecimal] using List.all_eq_true.mp hletters c hmem

/-- No file that is analysed has the name of a backup. -/
theorem EndsAsCode.not_isBackupName (hname : EndsAsCode name) : ¬ IsBackupName name :=
  fun hbackup => hname.not_endsWithDigit hbackup.endsWithDigit

/-! ## Places of backups -/

/-- The place of the backup of a file in a run. -/
def backupPlace (millis : String) (location : Location) : Location :=
  location.dropLast ++ (location.getLast?.map (backupName · millis)).toList

@[simp]
theorem backupPlace_append_singleton (millis name : String) (front : Location) :
    backupPlace millis (front ++ [name]) = front ++ [backupName name millis] := by
  simp [backupPlace]

@[simp]
theorem backupPlace_below (millis name : String) (here : Location) (front : List String) :
    backupPlace millis (here ++ (front ++ [name])) = here ++ (front ++ [backupName name millis]) := by
  rw [← List.append_assoc, backupPlace_append_singleton, List.append_assoc]

end Deadwood.Fix
