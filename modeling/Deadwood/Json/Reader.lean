/-
# Reading JSON

A text is a value with nothing but blanks around it. Strings are read in two
steps: first into pieces, then the halves of surrogate pairs are joined.
-/

import Deadwood.Json.Value
import Deadwood.Text.Scan

namespace Deadwood.Json

open Deadwood.Text

/-- The blanks between tokens. -/
def isGap (c : Char) : Bool :=
  c == ' ' || c == '\n' || c == '\r' || c == '\t'

/-- Passes the blanks between tokens. -/
def skipGaps (text : List Char) : List Char :=
  text.dropWhile isGap

/-! ## Strings -/

/-- A part of a string: a character, or a number of sixteen bits. -/
inductive Piece
  | char (c : Char)
  | unit (n : Nat)
deriving DecidableEq, Repr

/-- The value of a hexadecimal digit. -/
def hexValue? (c : Char) : Option Nat :=
  if c.isDigit then some (c.toNat - '0'.toNat)
  else if 'a' ≤ c ∧ c ≤ 'f' then some (c.toNat - 'a'.toNat + 10)
  else if 'A' ≤ c ∧ c ≤ 'F' then some (c.toNat - 'A'.toNat + 10)
  else none

/-- The value of four hexadecimal digits. -/
def unitOf? (a b c d : Char) : Option Nat := do
  return (((← hexValue? a) * 16 + (← hexValue? b)) * 16 + (← hexValue? c)) * 16 + (← hexValue? d)

/-- The character that a backslash and a letter stand for. -/
def escaped? (c : Char) : Option Char :=
  match c with
  | '"' => some '"'
  | '\\' => some '\\'
  | '/' => some '/'
  | 'b' => some (Char.ofNat 0x08)
  | 'f' => some (Char.ofNat 0x0C)
  | 'n' => some '\n'
  | 'r' => some '\r'
  | 't' => some '\t'
  | _ => none

/-- Reads a string up to its closing quote. Control characters must be
escaped. -/
def readPieces : Reader (List Piece)
  | [] => none
  | '"' :: rest => some ([], rest)
  | '\\' :: 'u' :: a :: b :: c :: d :: rest =>
    (unitOf? a b c d).bind fun unit =>
      (readPieces rest).map fun (pieces, behind) => (.unit unit :: pieces, behind)
  | '\\' :: c :: rest =>
    (escaped? c).bind fun own =>
      (readPieces rest).map fun (pieces, behind) => (.char own :: pieces, behind)
  | c :: rest =>
    if c = '\\' ∨ c.toNat < 0x20 then none
    else (readPieces rest).map fun (pieces, behind) => (.char c :: pieces, behind)

/-- Whether a number is the first half of a pair. -/
def isHigh (n : Nat) : Bool :=
  0xD800 ≤ n && n ≤ 0xDBFF

/-- Whether a number is the second half of a pair. -/
def isLow (n : Nat) : Bool :=
  0xDC00 ≤ n && n ≤ 0xDFFF

/-- The text of a string. There is none if half of a pair stands alone. -/
def joinPieces : List Piece → Option (List Char)
  | [] => some []
  | .char c :: rest => (joinPieces rest).map (c :: ·)
  | .unit n :: rest =>
    if isHigh n then
      match rest with
      | .unit m :: rest =>
        if isLow m then
          (joinPieces rest).map
            (Char.ofNat (0x10000 + (n - 0xD800) * 0x400 + (m - 0xDC00)) :: ·)
        else none
      | _ => none
    else if isLow n then none
    else (joinPieces rest).map (Char.ofNat n :: ·)

/-! ## Numbers -/

/-- The value of digits. -/
def decimalValue (digits : List Char) : Nat :=
  digits.foldl (fun value c => value * 10 + (c.toNat - '0'.toNat)) 0

/-- Reads one or more digits. -/
def readDigits : Reader (List Char) := fun text =>
  let digits := text.takeWhile Char.isDigit
  if digits.isEmpty then none else some (digits, text.dropWhile Char.isDigit)

/-- Reads the digits of a whole number. Only zero begins with a zero. -/
def readWhole : Reader (List Char)
  | '0' :: rest => some (['0'], rest)
  | text => readDigits text

/-- Reads a fraction, if there is one; nothing may be missing behind the point. -/
def readFraction : Reader (List Char)
  | '.' :: rest => (readDigits rest).map fun (digits, behind) => ('.' :: digits, behind)
  | text => some ([], text)

/-- Reads the sign of an exponent, if there is one. -/
def readSign : List Char → List Char × List Char
  | '+' :: rest => (['+'], rest)
  | '-' :: rest => (['-'], rest)
  | text => ([], text)

/-- Reads an exponent, if there is one. -/
def readExponent : Reader (List Char)
  | [] => some ([], [])
  | c :: rest =>
    if c = 'e' ∨ c = 'E' then
      let (sign, rest) := readSign rest
      (readDigits rest).map fun (digits, behind) => (c :: sign ++ digits, behind)
    else some ([], c :: rest)

/-- The value of a number. One that does not fit in 64 bits, and a zero below
zero, is not taken for whole. -/
def numberOf (negative : Bool) (whole tail : List Char) : Json :=
  let n := decimalValue whole
  if tail.isEmpty ∧ negative = false ∧ n < 0x10000000000000000 then .integer n
  else if tail.isEmpty ∧ negative = true ∧ 0 < n ∧ n ≤ 0x8000000000000000 then .integer (-n)
  else .real ((if negative then ['-'] else []) ++ whole ++ tail)

/-- Reads a number. -/
def readNumber : Reader Json := fun text => do
  let (negative, rest) :=
    match text with
    | '-' :: rest => (true, rest)
    | _ => (false, text)
  let (whole, rest) ← readWhole rest
  let (fraction, rest) ← readFraction rest
  let (exponent, rest) ← readExponent rest
  return (numberOf negative whole (fraction ++ exponent), rest)

/-! ## Values -/

mutual

/-- Reads a value; `fuel` bounds the number of steps. -/
def readValue : Nat → Reader Json
  | 0, _ => none
  | fuel + 1, text =>
    match text with
    | '[' :: rest =>
      match skipGaps rest with
      | ']' :: behind => some (.array [], behind)
      | inside => (readElements fuel inside).map fun (elements, behind) => (.array elements, behind)
    | '\x7b' :: rest =>
      match skipGaps rest with
      | '\x7d' :: behind => some (.object [], behind)
      | inside => (readMembers fuel inside).map fun (members, behind) => (.object members, behind)
    | '"' :: rest =>
      (readPieces rest).map fun (pieces, behind) =>
        match joinPieces pieces with
        | some characters => (.string (String.ofList characters), behind)
        | none => (.unpaired, behind)
    | _ =>
      match afterText? "null".toList text, afterText? "true".toList text,
          afterText? "false".toList text with
      | some rest, _, _ => some (.null, rest)
      | _, some rest, _ => some (.bool true, rest)
      | _, _, some rest => some (.bool false, rest)
      | _, _, _ => readNumber text

/-- Reads the elements of an array and its end. -/
def readElements : Nat → Reader (List Json)
  | 0, _ => none
  | fuel + 1, text =>
    (readValue fuel text).bind fun (element, rest) =>
      match skipGaps rest with
      | ']' :: behind => some ([element], behind)
      | ',' :: behind =>
        (readElements fuel (skipGaps behind)).map fun (others, behind) =>
          (element :: others, behind)
      | _ => none

/-- Reads the members of an object and its end. -/
def readMembers : Nat → Reader (List (String × Json))
  | 0, _ => none
  | fuel + 1, text =>
    match text with
    | '"' :: rest =>
      (readPieces rest).bind fun (pieces, rest) =>
        (joinPieces pieces).bind fun key =>
          (after? ':' (skipGaps rest)).bind fun rest =>
            (readValue fuel (skipGaps rest)).bind fun (value, rest) =>
              match skipGaps rest with
              | '\x7d' :: behind => some ([(String.ofList key, value)], behind)
              | ',' :: behind =>
                (readMembers fuel (skipGaps behind)).map fun (others, behind) =>
                  ((String.ofList key, value) :: others, behind)
              | _ => none
    | _ => none

end

/-- Reads a whole text. -/
def read? (text : List Char) : Option Json :=
  (readValue (text.length + 1) (skipGaps text)).bind fun (value, rest) =>
    if (skipGaps rest).isEmpty then some value else none

/-- Reads a whole string. -/
def ofText? (text : String) : Option Json :=
  read? text.toList

/-! ## Taking values apart -/

/-- The text of a string. -/
def text? : Json → Option String
  | .string text => some text
  | _ => none

/-- The value of a truth value. -/
def bool? : Json → Option Bool
  | .bool value => some value
  | _ => none

/-- A whole number from zero up to a limit. -/
def natural? (limit : Nat) : Json → Option Nat
  | .integer (.ofNat n) => if n ≤ limit then some n else none
  | _ => none

/-- The elements of an array. -/
def elements? : Json → Option (List Json)
  | .array elements => some elements
  | _ => none

/-- The elements of an array, each read in the same way. -/
def list? {α : Type} (element? : Json → Option α) (value : Json) : Option (List α) :=
  value.elements?.bind (List.mapM element?)

/-- A value or null. -/
def option? {α : Type} (inner? : Json → Option α) : Json → Option (Option α)
  | .null => some none
  | value => (inner? value).map some

/-- The last member with a key. -/
def member? (value : Json) (key : String) : Option Json :=
  match value with
  | .object members => (members.reverse.find? (·.1 == key)).map (·.2)
  | _ => none

/-- The values of a record's fields, in the order of their names. A record is an
object, in which none of the fields may be given twice and others are passed
over, or an array of the first fields, of which there must be at least so
many. -/
def fields? (names : List String) (least : Nat) : Json → Option (List (Option Json))
  | .object members =>
    if names.all fun name => (members.filter (·.1 == name)).length ≤ 1 then
      some (names.map fun name => (members.find? (·.1 == name)).map (·.2))
    else none
  | .array elements =>
    if least ≤ elements.length ∧ elements.length ≤ names.length then
      some (elements.map some ++ List.replicate (names.length - elements.length) none)
    else none
  | _ => none

end Deadwood.Json
