/-
# Reading what was written

A value that is written on many lines is read back as it was. Strings are
followed character by character, numbers up to the first character that cannot go
on a number, and arrays and objects element by element. The bound on the steps of
the reader is met because every step has a character of its own.
-/

import Mathlib.Tactic.FinCases
import Mathlib.Tactic.IntervalCases
import Deadwood.Json.Reader

namespace Deadwood.Json

open Deadwood.Text

/-! ## Strings -/

theorem hexValue?_hexDigit {n : Nat} (hn : n < 16) : hexValue? (hexDigit n) = some n := by
  revert n
  decide

theorem unitOf?_hexDigit {n : Nat} (hn : n < 0x20) :
    unitOf? '0' '0' (hexDigit (n / 16)) (hexDigit (n % 16)) = some n := by
  have hzero : hexValue? '0' = some 0 := rfl
  have hhigh : hexValue? (hexDigit (n / 16)) = some (n / 16) := hexValue?_hexDigit (by omega)
  have hlow : hexValue? (hexDigit (n % 16)) = some (n % 16) := hexValue?_hexDigit (by omega)
  simp only [unitOf?, hzero, hhigh, hlow, Option.pure_def, Option.bind_eq_bind, Option.bind_some,
    Option.some.injEq]
  omega

/-- A control character may stand as its number. -/
theorem joinPieces_unit_toNat {c : Char} (hc : c.toNat < 0x20) (pieces : List Piece) :
    joinPieces (.unit c.toNat :: pieces) = (joinPieces pieces).map (c :: ·) := by
  have hhigh : isHigh c.toNat = false := by
    simp only [isHigh, Bool.and_eq_false_iff, decide_eq_false_iff_not]
    omega
  have hlow : isLow c.toNat = false := by
    simp only [isLow, Bool.and_eq_false_iff, decide_eq_false_iff_not]
    omega
  rw [joinPieces.eq_def]
  simp [hhigh, hlow]

/-- What is written for a character is read as one piece, and the piece stands for
the character. -/
theorem exists_piece_of_escape (c : Char) :
    ∃ piece, (∀ rest, readPieces (escape c ++ rest) =
        (readPieces rest).map fun (pieces, behind) => (piece :: pieces, behind)) ∧
      ∀ pieces, joinPieces (piece :: pieces) = (joinPieces pieces).map (c :: ·) := by
  -- The cases are those of `escape`, in its order.
  by_cases hown : c ∈ ['"', '\\', Char.ofNat 0x08, Char.ofNat 0x0C, '\n', '\r', '\t']
  · refine ⟨.char c, fun rest => ?_, fun _ => rfl⟩
    fin_cases hown <;> rfl
  · have hback : c.toNat ≠ 0x08 := fun h => hown (by rw [← Char.ofNat_toNat c, h]; decide)
    have hfeed : c.toNat ≠ 0x0C := fun h => hown (by rw [← Char.ofNat_toNat c, h]; decide)
    simp only [List.mem_cons, List.not_mem_nil, or_false, not_or] at hown
    by_cases hcontrol : c.toNat < 0x20
    · refine ⟨.unit c.toNat, fun rest => ?_, joinPieces_unit_toNat hcontrol⟩
      simp [escape, hown, hback, hfeed, hcontrol, readPieces, unitOf?_hexDigit hcontrol]
    · refine ⟨.char c, fun rest => ?_, fun _ => rfl⟩
      have hescape : escape c = [c] := by simp [escape, hown, hback, hfeed, hcontrol]
      rw [hescape, List.singleton_append, readPieces]
      all_goals simp_all

/-- A quoted text is read up to its closing quote, and its pieces join to the
text. -/
theorem exists_pieces_of_quoted (text rest : List Char) :
    ∃ pieces, readPieces (text.flatMap escape ++ '"' :: rest) = some (pieces, rest) ∧
      joinPieces pieces = some text := by
  induction text with
  | nil => exact ⟨[], rfl, rfl⟩
  | cons c text ih =>
    obtain ⟨pieces, hread, hjoin⟩ := ih
    obtain ⟨piece, hpiece, hcons⟩ := exists_piece_of_escape c
    refine ⟨piece :: pieces, ?_, ?_⟩
    · rw [List.flatMap_cons, List.append_assoc, hpiece, hread]
      rfl
    · rw [hcons, hjoin]
      rfl

/-! ## Numbers -/

/-- Behind a number stands nothing that could belong to it. -/
def EndsNumber (rest : List Char) : Prop :=
  ∀ c ∈ rest.head?, c.isDigit = false ∧ c ≠ '.' ∧ c ≠ 'e' ∧ c ≠ 'E'

theorem decimalValue_eq (digits : List Char) :
    decimalValue digits = Nat.ofDigitChars 10 digits 0 := by
  simp only [decimalValue, Nat.ofDigitChars_eq_foldl, Nat.mul_comm]

@[simp]
theorem decimalValue_toDigits (n : Nat) : decimalValue (Nat.toDigits 10 n) = n := by
  rw [decimalValue_eq, Nat.ofDigitChars_ten_toDigits]

/-- The digits of a number other than zero do not begin with a zero. -/
theorem exists_toDigits_eq_cons {n : Nat} (hn : 0 < n) :
    ∃ c tail, Nat.toDigits 10 n = c :: tail ∧ c ≠ '0' := by
  induction n using Nat.strongRecOn with
  | ind n ih =>
    by_cases hsmall : n < 10
    · refine ⟨_, [], Nat.toDigits_of_lt_base hsmall, ?_⟩
      interval_cases n <;> decide
    · obtain ⟨c, tail, hdigits, hc⟩ := ih (n / 10) (by omega) (by omega)
      refine ⟨c, tail ++ [(n % 10).digitChar], ?_, hc⟩
      rw [Nat.toDigits_of_base_le (by omega) (by omega), hdigits, List.cons_append]

theorem readDigits_append {digits rest : List Char} (hne : digits ≠ [])
    (hdigits : ∀ c ∈ digits, c.isDigit = true) (hrest : EndsNumber rest) :
    readDigits (digits ++ rest) = some (digits, rest) := by
  have htake : rest.takeWhile Char.isDigit = [] ∧ rest.dropWhile Char.isDigit = rest := by
    cases rest with
    | nil => exact ⟨rfl, rfl⟩
    | cons c rest => simp [(hrest c rfl).1]
  unfold readDigits
  rw [List.takeWhile_append_of_pos hdigits, List.dropWhile_append_of_pos hdigits, htake.1,
    htake.2, List.append_nil]
  simp [hne]

theorem isDigit_of_mem_toDigits {n : Nat} {c : Char} (hc : c ∈ Nat.toDigits 10 n) :
    c.isDigit = true :=
  Nat.isDigit_of_mem_toDigits (by decide) (by decide) hc

theorem readWhole_toDigits (n : Nat) {rest : List Char} (hrest : EndsNumber rest) :
    readWhole (Nat.toDigits 10 n ++ rest) = some (Nat.toDigits 10 n, rest) := by
  rcases Nat.eq_zero_or_pos n with rfl | hn
  · rfl
  · obtain ⟨c, tail, hdigits, hc⟩ := exists_toDigits_eq_cons hn
    have hread : readDigits (Nat.toDigits 10 n ++ rest) = some (Nat.toDigits 10 n, rest) :=
      readDigits_append Nat.toDigits_ne_nil (fun _ => isDigit_of_mem_toDigits) hrest
    rw [hdigits, List.cons_append] at hread ⊢
    rw [readWhole, hread]
    simpa using hc

theorem readFraction_of_endsNumber {rest : List Char} (hrest : EndsNumber rest) :
    readFraction rest = some ([], rest) := by
  unfold readFraction
  split
  · exact absurd rfl (hrest '.' rfl).2.1
  · rfl

theorem readExponent_of_endsNumber {rest : List Char} (hrest : EndsNumber rest) :
    readExponent rest = some ([], rest) := by
  cases rest with
  | nil => rfl
  | cons c rest => simp [readExponent, (hrest c rfl).2.2]

/-- The first character of a number is a digit or a minus. -/
theorem exists_digits_eq_cons (value : Int) :
    ∃ c tail, digits value = c :: tail ∧ (c.isDigit = true ∨ c = '-') := by
  cases value with
  | ofNat n =>
    obtain ⟨c, tail, hdigits⟩ := List.exists_cons_of_ne_nil (Nat.toDigits_ne_nil (n := n) (b := 10))
    exact ⟨c, tail, hdigits, .inl (isDigit_of_mem_toDigits (hdigits ▸ List.mem_cons_self))⟩
  | negSucc n => exact ⟨'-', _, rfl, .inr rfl⟩

/-- A number that fits in 64 bits is read back. -/
theorem readNumber_digits {value : Int} (hlow : -0x8000000000000000 ≤ value)
    (hhigh : value < 0x10000000000000000) {rest : List Char} (hrest : EndsNumber rest) :
    readNumber (digits value ++ rest) = some (.integer value, rest) := by
  cases value with
  | ofNat n =>
    obtain ⟨c, tail, hdigits, hc⟩ := exists_digits_eq_cons (.ofNat n)
    have hminus : c ≠ '-' := by
      rintro rfl
      have hmem : '-' ∈ Nat.toDigits 10 n := by
        rw [show Nat.toDigits 10 n = '-' :: tail from hdigits]
        exact List.mem_cons_self
      exact absurd (isDigit_of_mem_toDigits hmem) (by decide)
    have hwhole := readWhole_toDigits n hrest
    rw [show Nat.toDigits 10 n = c :: tail from hdigits] at hwhole
    have hvalue : decimalValue (c :: tail) = n := by
      rw [← show Nat.toDigits 10 n = c :: tail from hdigits, decimalValue_toDigits]
    have hfit : n < 0x10000000000000000 := by
      rw [Int.ofNat_eq_natCast] at hhigh
      omega
    rw [hdigits, List.cons_append] at *
    simp [readNumber, hminus, hwhole, readFraction_of_endsNumber hrest,
      readExponent_of_endsNumber hrest, numberOf, hvalue, hfit]
  | negSucc n =>
    have hfit : n + 1 ≤ 0x8000000000000000 := by omega
    simp [readNumber, digits, readWhole_toDigits (n + 1) hrest, readFraction_of_endsNumber hrest,
      readExponent_of_endsNumber hrest, numberOf, hfit]
    omega

/-! ## Values -/

/-- The values that can be written without loss: no number is kept by its
spelling, and every string stands for a text. -/
inductive Exact : Json → Prop
  | null : Exact .null
  | bool (value : Bool) : Exact (.bool value)
  | integer {value : Int} (hlow : -0x8000000000000000 ≤ value)
      (hhigh : value < 0x10000000000000000) : Exact (.integer value)
  | string (text : String) : Exact (.string text)
  | array {elements : List Json} (helements : ∀ element ∈ elements, Exact element) :
      Exact (.array elements)
  | object {members : List (String × Json)} (hmembers : ∀ member ∈ members, Exact member.2) :
      Exact (.object members)

@[simp]
theorem skipGaps_newLine (level : Nat) (text : List Char) :
    skipGaps (newLine level ++ text) = skipGaps text := by
  have hgaps : ∀ c ∈ newLine level, isGap c = true := by
    intro c hc
    rcases List.mem_cons.mp hc with rfl | hc
    · decide
    · rw [List.eq_of_mem_replicate hc]
      decide
  rw [skipGaps, List.dropWhile_append_of_pos hgaps, skipGaps]

theorem skipGaps_cons {c : Char} (hc : isGap c = false) (text : List Char) :
    skipGaps (c :: text) = c :: text := by
  simp [skipGaps, hc]

theorem skipGaps_quoted (text rest : List Char) :
    skipGaps (quoted text ++ rest) = quoted text ++ rest :=
  skipGaps_cons rfl _

@[simp]
theorem pretty_null (level : Nat) : pretty level .null = ['n', 'u', 'l', 'l'] := by
  change pretty level .null = scalar .null
  simp only [pretty]

@[simp]
theorem pretty_true (level : Nat) : pretty level (.bool true) = ['t', 'r', 'u', 'e'] := by
  change pretty level (.bool true) = scalar (.bool true)
  simp only [pretty]

@[simp]
theorem pretty_false (level : Nat) : pretty level (.bool false) = ['f', 'a', 'l', 's', 'e'] := by
  change pretty level (.bool false) = scalar (.bool false)
  simp only [pretty]

@[simp]
theorem pretty_integer (level : Nat) (value : Int) :
    pretty level (.integer value) = digits value := by
  change pretty level (.integer value) = scalar (.integer value)
  simp only [pretty]

@[simp]
theorem pretty_string (level : Nat) (text : String) :
    pretty level (.string text) = quoted text.toList := by
  change pretty level (.string text) = scalar (.string text)
  simp only [pretty]

/-- A written value begins with a character that is no blank and closes nothing. -/
theorem Exact.exists_pretty_eq_cons {value : Json} (hvalue : Exact value) (level : Nat) :
    ∃ c tail, pretty level value = c :: tail ∧ isGap c = false ∧ c ≠ ']' := by
  cases hvalue with
  | null => exact ⟨'n', _, pretty_null level, by decide, by decide⟩
  | bool value =>
    cases value
    · exact ⟨'f', _, pretty_false level, by decide, by decide⟩
    · exact ⟨'t', _, pretty_true level, by decide, by decide⟩
  | @integer value _ _ =>
    obtain ⟨c, tail, hdigits, hc⟩ := exists_digits_eq_cons value
    refine ⟨c, tail, (pretty_integer level value).trans hdigits, ?_⟩
    rcases hc with hc | rfl
    · constructor
      · simp only [isGap, Bool.or_eq_false_iff, beq_eq_false_iff_ne]
        refine ⟨⟨⟨?_, ?_⟩, ?_⟩, ?_⟩ <;> (rintro rfl; exact absurd hc (by decide))
      · rintro rfl
        exact absurd hc (by decide)
    · decide
  | string text => exact ⟨'"', _, pretty_string level text, by decide, by decide⟩
  | @array elements _ =>
    cases elements
    · exact ⟨'[', _, by rw [pretty], by decide, by decide⟩
    · exact ⟨'[', _, by simp only [pretty, List.cons_append]; rfl, by decide, by decide⟩
  | @object members _ =>
    cases members
    · exact ⟨'\x7b', _, by rw [pretty], by decide, by decide⟩
    · exact ⟨'\x7b', _, by simp only [pretty, List.cons_append]; rfl, by decide, by decide⟩

theorem Exact.skipGaps_pretty {value : Json} (hvalue : Exact value) (level : Nat)
    (rest : List Char) :
    skipGaps (pretty level value ++ rest) = pretty level value ++ rest := by
  obtain ⟨c, tail, hpretty, hc, -⟩ := hvalue.exists_pretty_eq_cons level
  rw [hpretty, List.cons_append, skipGaps_cons hc]

/-- The value is taken off the front of a text, however far it is indented. -/
def ReadsBack (value : Json) : Prop :=
  ∀ level fuel rest, (pretty level value).length < fuel → EndsNumber rest →
    readValue fuel (pretty level value ++ rest) = some (value, rest)

theorem endsNumber_prettyElements (level : Nat) (elements : List Json) (rest : List Char) :
    EndsNumber (prettyElements level elements ++ rest) := by
  cases elements <;> simp [prettyElements, newLine, EndsNumber]

theorem endsNumber_prettyMembers (level : Nat) (members : List (String × Json))
    (rest : List Char) : EndsNumber (prettyMembers level members ++ rest) := by
  rcases members with _ | ⟨⟨key, value⟩, members⟩ <;>
    simp [prettyMembers, newLine, EndsNumber]

/-- At least a line break and a bracket end an array. -/
theorem two_le_length_prettyElements (level : Nat) (elements : List Json) :
    2 ≤ (prettyElements level elements).length := by
  cases elements <;> simp [prettyElements, newLine]

theorem two_le_length_prettyMembers (level : Nat) (members : List (String × Json)) :
    2 ≤ (prettyMembers level members).length := by
  rcases members with _ | ⟨⟨key, value⟩, members⟩ <;>
    simp [prettyMembers, newLine]

/-- The elements of an array are read one by one up to its end. -/
theorem readElements_pretty {element : Json} {others : List Json}
    (hexact : ∀ own ∈ element :: others, Exact own)
    (hread : ∀ own ∈ element :: others, ReadsBack own) (level fuel : Nat) (rest : List Char)
    (hfuel : (pretty (level + 1) element).length + (prettyElements level others).length ≤ fuel) :
    readElements fuel (pretty (level + 1) element ++ (prettyElements level others ++ rest)) =
      some (element :: others, rest) := by
  induction others generalizing element fuel with
  | nil =>
    have hend := two_le_length_prettyElements level []
    obtain ⟨fuel, rfl⟩ : ∃ n, fuel = n + 1 := ⟨fuel - 1, by omega⟩
    rw [readElements, hread element List.mem_cons_self (level + 1) fuel _ (by omega)
      (endsNumber_prettyElements _ _ _)]
    simp [prettyElements, skipGaps_cons (c := ']') rfl]
  | cons other others ih =>
    have hend := two_le_length_prettyElements level (other :: others)
    obtain ⟨fuel, rfl⟩ : ∃ n, fuel = n + 1 := ⟨fuel - 1, by omega⟩
    have hother : Exact other := hexact other (by simp)
    have hothers := ih (fun own hown => hexact own (List.mem_cons_of_mem _ hown))
      (fun own hown => hread own (List.mem_cons_of_mem _ hown)) fuel (by
        rw [prettyElements] at hfuel
        simp only [List.length_append, List.length_cons] at hfuel
        omega)
    rw [readElements, hread element List.mem_cons_self (level + 1) fuel _ (by omega)
      (endsNumber_prettyElements _ _ _), prettyElements]
    simp [skipGaps_cons (c := ',') rfl, hother.skipGaps_pretty, hothers]

/-- A key and the value behind it are read, and what comes next decides whether there
are other members. -/
theorem readMembers_step {value : Json} (hexact : Exact value) (hread : ReadsBack value)
    (key : String) (level fuel : Nat) {rest : List Char} (hrest : EndsNumber rest)
    (hfuel : (pretty level value).length < fuel) :
    (∀ behind, skipGaps rest = '\x7d' :: behind →
      readMembers (fuel + 1) (quoted key.toList ++ ':' :: ' ' :: (pretty level value ++ rest)) =
        some ([(key, value)], behind)) ∧
    ∀ behind, skipGaps rest = ',' :: behind →
      readMembers (fuel + 1) (quoted key.toList ++ ':' :: ' ' :: (pretty level value ++ rest)) =
        (readMembers fuel (skipGaps behind)).map fun read => ((key, value) :: read.1, read.2) := by
  obtain ⟨pieces, hpieces, hjoin⟩ := exists_pieces_of_quoted key.toList
    (':' :: ' ' :: (pretty level value ++ rest))
  have hblank : skipGaps (' ' :: (pretty level value ++ rest)) = pretty level value ++ rest :=
    (List.dropWhile_cons_of_pos rfl).trans (hexact.skipGaps_pretty level rest)
  rw [quoted, List.cons_append, List.cons_append, List.append_assoc, List.singleton_append,
    readMembers, hpieces]
  simp only [Option.bind_some, hjoin, skipGaps_cons (c := ':') rfl, after?, if_pos, hblank,
    hread level fuel rest hfuel hrest, String.ofList_toList]
  constructor
  · intro behind hbehind
    simp only [hbehind]
  · intro behind hbehind
    simp only [hbehind]

/-- The members of an object are read one by one up to its end. -/
theorem readMembers_pretty {key : String} {value : Json} {others : List (String × Json)}
    (hexact : ∀ own ∈ (key, value) :: others, Exact own.2)
    (hread : ∀ own ∈ (key, value) :: others, ReadsBack own.2) (level fuel : Nat)
    (rest : List Char)
    (hfuel : (pretty (level + 1) value).length + (prettyMembers level others).length ≤ fuel) :
    readMembers fuel (quoted key.toList ++
        ':' :: ' ' :: (pretty (level + 1) value ++ (prettyMembers level others ++ rest))) =
      some ((key, value) :: others, rest) := by
  induction others generalizing key value fuel with
  | nil =>
    have hvalue : Exact value := hexact _ List.mem_cons_self
    have hback : ReadsBack value := hread _ List.mem_cons_self
    have hend := two_le_length_prettyMembers level []
    obtain ⟨fuel, rfl⟩ : ∃ n, fuel = n + 1 := ⟨fuel - 1, by omega⟩
    have hlast := (readMembers_step hvalue hback key (level + 1) fuel
      (endsNumber_prettyMembers level [] rest) (by omega)).1
    exact hlast rest (by simp [prettyMembers, skipGaps_cons (c := '\x7d') rfl])
  | cons other others ih =>
    obtain ⟨otherKey, otherValue⟩ := other
    have hvalue : Exact value := hexact _ List.mem_cons_self
    have hback : ReadsBack value := hread _ List.mem_cons_self
    have hend := two_le_length_prettyMembers level ((otherKey, otherValue) :: others)
    obtain ⟨fuel, rfl⟩ : ∃ n, fuel = n + 1 := ⟨fuel - 1, by omega⟩
    have hothers := ih (fun own hown => hexact own (List.mem_cons_of_mem _ hown))
      (fun own hown => hread own (List.mem_cons_of_mem _ hown)) fuel (by
        rw [prettyMembers] at hfuel
        simp only [List.length_append, List.length_cons] at hfuel
        omega)
    have hmore := (readMembers_step hvalue hback key (level + 1) fuel
      (endsNumber_prettyMembers level ((otherKey, otherValue) :: others) rest) (by omega)).2
    rw [hmore _ (by rw [prettyMembers]; exact skipGaps_cons (c := ',') rfl _)]
    simp [skipGaps_newLine, skipGaps_quoted, hothers]

/-- The first character decides how a value is read; a digit or a minus leads to a
number. -/
theorem readValue_number {c : Char} (hc : c.isDigit = true ∨ c = '-') (fuel : Nat)
    (text : List Char) : readValue (fuel + 1) (c :: text) = readNumber (c :: text) := by
  have hne : c ∉ ['[', '\x7b', '"', 'n', 't', 'f'] := by
    intro hmem
    fin_cases hmem <;> simp [Char.isDigit] at hc
  simp only [List.mem_cons, List.not_mem_nil, or_false, not_or] at hne
  rw [readValue.eq_def]
  simp [hne, afterText?, after?, Ne.symm]

/-- What is written is read back. -/
theorem Exact.readsBack {value : Json} (hvalue : Exact value) : ReadsBack value := by
  induction hvalue with
  | null =>
    intro level fuel rest hfuel _
    obtain ⟨fuel, rfl⟩ := Nat.exists_eq_add_of_lt hfuel
    rw [pretty_null]
    rfl
  | bool value =>
    intro level fuel rest hfuel _
    obtain ⟨fuel, rfl⟩ := Nat.exists_eq_add_of_lt hfuel
    cases value with
    | true =>
      rw [pretty_true]
      rfl
    | false =>
      rw [pretty_false]
      rfl
  | @integer value hlow hhigh =>
    intro level fuel rest hfuel hrest
    obtain ⟨fuel, rfl⟩ := Nat.exists_eq_add_of_lt hfuel
    obtain ⟨c, tail, hdigits, hc⟩ := exists_digits_eq_cons value
    rw [pretty_integer, ← readNumber_digits hlow hhigh hrest, hdigits, List.cons_append,
      readValue_number hc]
  | string text =>
    intro level fuel rest hfuel _
    obtain ⟨fuel, rfl⟩ := Nat.exists_eq_add_of_lt hfuel
    obtain ⟨pieces, hpieces, hjoin⟩ := exists_pieces_of_quoted text.toList rest
    rw [pretty_string, quoted, List.cons_append, List.cons_append, List.append_assoc,
      List.singleton_append, readValue, hpieces]
    simp [hjoin]
  | @array elements helements ih =>
    intro level fuel rest hfuel _
    obtain ⟨fuel, rfl⟩ : ∃ n, fuel = n + 1 := ⟨fuel - 1, by omega⟩
    cases elements with
    | nil =>
      rw [pretty]
      rfl
    | cons element others =>
      have hfirst : Exact element := helements _ List.mem_cons_self
      obtain ⟨c, tail, hpretty, hgap, hclose⟩ := hfirst.exists_pretty_eq_cons (level + 1)
      have hothers := readElements_pretty helements ih level fuel rest (by
        rw [pretty] at hfuel
        simp only [List.length_append, List.length_cons] at hfuel
        omega)
      simp only [pretty, List.cons_append, List.append_assoc]
      rw [readValue, skipGaps_newLine, hfirst.skipGaps_pretty]
      rw [hpretty, List.cons_append] at hothers ⊢
      simp [hclose, hothers]
  | @object members hmembers ih =>
    intro level fuel rest hfuel _
    obtain ⟨fuel, rfl⟩ : ∃ n, fuel = n + 1 := ⟨fuel - 1, by omega⟩
    rcases members with _ | ⟨⟨key, value⟩, others⟩
    · rw [pretty]
      rfl
    · have hothers := readMembers_pretty hmembers ih level fuel rest (by
        rw [pretty] at hfuel
        simp only [List.length_append, List.length_cons] at hfuel
        omega)
      simp only [pretty, List.cons_append, List.append_assoc]
      rw [readValue, skipGaps_newLine, skipGaps_quoted]
      exact congrArg (Option.map fun read => (Json.object read.1, read.2)) hothers

/-- A text on many lines is read back as a whole. -/
theorem Exact.ofText?_toPretty {value : Json} (hvalue : Exact value) :
    ofText? value.toPretty = some value := by
  have hread := hvalue.readsBack 0 ((pretty 0 value).length + 1) [] (Nat.lt_succ_self _)
    (by simp [EndsNumber])
  have hskip := hvalue.skipGaps_pretty 0 []
  rw [List.append_nil] at hread hskip
  rw [ofText?, toPretty, String.toList_ofList, read?, hskip, hread]
  rfl

end Deadwood.Json
