/-
# Reading TOML

A document is read line by line: a pair of key and value, a header, or nothing,
and a comment behind any of them.
-/

import Deadwood.Text.Scan
import Deadwood.Toml.Value

namespace Deadwood.Toml

open Deadwood.Text

/-- The blanks within a line. -/
def skipBlanks (text : List Char) : List Char :=
  text.dropWhile fun c => c == ' ' || c == '\t'

/-- Characters that may stand in comments and strings: no control characters but
the tab. -/
def isPrintable (c : Char) : Bool :=
  c == '\t' || (0x20 ≤ c.toNat && c.toNat != 0x7F)

/-- What stands behind a line end. -/
def afterNewline? : List Char → Option (List Char)
  | '\n' :: rest => some rest
  | '\r' :: '\n' :: rest => some rest
  | _ => none

/-- What stands behind a comment, if there is one. -/
def skipComment : List Char → List Char
  | '#' :: rest => rest.dropWhile isPrintable
  | text => text

/-- Passes blanks, comments and line ends. -/
def skipTrivia : Nat → List Char → List Char
  | 0, text => text
  | fuel + 1, text =>
    let rest := skipComment (skipBlanks text)
    match afterNewline? rest with
    | some behind => skipTrivia fuel behind
    | none => rest

/-! ## Strings -/

/-- The value of digits in a base. -/
def valueOf (base : Nat) (digits : List Char) : Nat :=
  digits.foldl (fun value c =>
    value * base +
      (if c.isDigit then c.toNat - '0'.toNat else c.toLower.toNat - 'a'.toNat + 10)) 0

/-- The character with a number of so many hexadecimal digits. -/
def readCode (count : Nat) : Reader Char := fun text =>
  let digits := text.take count
  let n := valueOf 16 digits
  if digits.length == count && digits.all isHexDigit && decide n.isValidChar then
    some (Char.ofNat n, text.drop count)
  else none

/-- The character that an escape stands for. -/
def readEscape : Reader Char
  | 'b' :: rest => some (Char.ofNat 0x08, rest)
  | 't' :: rest => some ('\t', rest)
  | 'n' :: rest => some ('\n', rest)
  | 'f' :: rest => some (Char.ofNat 0x0C, rest)
  | 'r' :: rest => some ('\r', rest)
  | '"' :: rest => some ('"', rest)
  | '\\' :: rest => some ('\\', rest)
  | 'u' :: rest => readCode 4 rest
  | 'U' :: rest => readCode 8 rest
  | _ => none

/-- Reads a string on one line up to its quote. -/
def readBasic : Nat → Reader (List Char)
  | 0, _ => none
  | fuel + 1, text =>
    match text with
    | '"' :: rest => some ([], rest)
    | '\\' :: rest =>
      (readEscape rest).bind fun (c, rest) =>
        (readBasic fuel rest).map fun (inner, behind) => (c :: inner, behind)
    | c :: rest =>
      if isPrintable c then (readBasic fuel rest).map fun (inner, behind) => (c :: inner, behind)
      else none
    | [] => none

/-- Reads a string on one line, in which a backslash is no escape. -/
def readLiteral : Reader (List Char) := fun text =>
  (readUntil? (fun c => c == '\'' || !isPrintable c) text).filter fun (inner, _) =>
    text[inner.length]? == some '\''

/-- The quotes at the end of a string over many lines: three close it, and up to
two before them belong to it. -/
def readClosing (quote : Char) : Reader (List Char) := fun text =>
  let count := (text.takeWhile (· == quote)).length
  if 3 ≤ count then
    let own := min (count - 3) 2
    some (List.replicate own quote, text.drop (own + 3))
  else none

/-- Passes the rest of a line that a backslash ends, and the blanks behind it. -/
def skipContinued? (text : List Char) : Option (List Char) :=
  (afterNewline? (skipBlanks text)).map fun rest =>
    rest.dropWhile fun c => c == ' ' || c == '\t' || c == '\n' || c == '\r'

/-- Reads a string over many lines up to its quotes. -/
def readLong (quote : Char) (escapes : Bool) : Nat → Reader (List Char)
  | 0, _ => none
  | fuel + 1, text =>
    match readClosing quote text with
    | some found => some found
    | none =>
      match text with
      | [] => none
      | '\\' :: rest =>
        if escapes then
          match skipContinued? rest with
          | some behind => readLong quote escapes fuel behind
          | none =>
            (readEscape rest).bind fun (c, rest) =>
              (readLong quote escapes fuel rest).map fun (inner, behind) => (c :: inner, behind)
        else (readLong quote escapes fuel rest).map fun (inner, behind) => ('\\' :: inner, behind)
      | c :: rest =>
        if isPrintable c then
          (readLong quote escapes fuel rest).map fun (inner, behind) => (c :: inner, behind)
        else
          (afterNewline? text).bind fun rest =>
            (readLong quote escapes fuel rest).map fun (inner, behind) => ('\n' :: inner, behind)

/-- Reads a string of any kind. A line end right behind three quotes is left
out. -/
def readString : Reader String := fun text =>
  let fuel := text.length + 1
  let first (rest : List Char) : List Char := (afterNewline? rest).getD rest
  let found : Option (List Char × List Char) :=
    match text with
    | '"' :: '"' :: '"' :: rest => readLong '"' true fuel (first rest)
    | '\'' :: '\'' :: '\'' :: rest => readLong '\'' false fuel (first rest)
    | '"' :: rest => readBasic fuel rest
    | '\'' :: rest => readLiteral rest
    | _ => none
  found.map fun (inner, behind) => (String.ofList inner, behind)

/-! ## Keys -/

/-- Reads a key without dots. -/
def readSimpleKey : Reader String := fun text =>
  match text with
  | '"' :: rest => (readBasic (text.length + 1) rest).map fun (k, behind) => (String.ofList k, behind)
  | '\'' :: rest => (readLiteral rest).map fun (k, behind) => (String.ofList k, behind)
  | _ =>
    let isBare (c : Char) : Bool := c.isAlphanum || c == '_' || c == '-'
    let key := text.takeWhile isBare
    if key.isEmpty then none else some (String.ofList key, text.dropWhile isBare)

/-- Reads a key, whose parts may have blanks around the dots. -/
def readKey : Nat → Reader (List String)
  | 0, _ => none
  | fuel + 1, text =>
    (readSimpleKey text).bind fun (key, rest) =>
      match skipBlanks rest with
      | '.' :: behind =>
        (readKey fuel (skipBlanks behind)).map fun (others, behind) => (key :: others, behind)
      | _ => some ([key], rest)

/-! ## Numbers and dates -/

/-- Digits with single underscores between them. -/
def digitsOf? (test : Char → Bool) (text : List Char) : Option (List Char) :=
  let isGrouped := text.all (fun c => test c || c == '_') &&
    text.head? != some '_' && text.getLast? != some '_' && !text.isEmpty &&
    !((text.zip text.tail).any fun (a, b) => a == '_' && b == '_')
  if isGrouped then some (text.filter (· != '_')) else none

/-- A text without its sign, and whether that was a minus. -/
def unsigned : List Char → Bool × List Char
  | '-' :: rest => (true, rest)
  | '+' :: rest => (false, rest)
  | text => (false, text)

/-- A whole number in tens. Only zero begins with a zero. -/
def decimalDigits? (text : List Char) : Option (List Char) :=
  (digitsOf? Char.isDigit text).filter fun digits => digits.length == 1 || digits.head? != some '0'

/-- A whole number; it must fit in 64 bits. -/
def integerOf? (token : List Char) : Option Int :=
  let bounded (n : Int) : Option Int :=
    if -0x8000000000000000 ≤ n ∧ n < 0x8000000000000000 then some n else none
  match token with
  | '0' :: 'x' :: rest => (digitsOf? isHexDigit rest).bind fun d => bounded (valueOf 16 d)
  | '0' :: 'o' :: rest =>
    (digitsOf? (fun c => '0' ≤ c && c ≤ '7') rest).bind fun d => bounded (valueOf 8 d)
  | '0' :: 'b' :: rest =>
    (digitsOf? (fun c => c == '0' || c == '1') rest).bind fun d => bounded (valueOf 2 d)
  | _ =>
    let (negative, rest) := unsigned token
    (decimalDigits? rest).bind fun d =>
      bounded (if negative then -(valueOf 10 d) else valueOf 10 d)

/-- Whether a text is a number with a fraction or an exponent, or one of the
special numbers. -/
def isFloat (token : List Char) : Bool :=
  let rest := (unsigned token).2
  if rest == "inf".toList || rest == "nan".toList then true
  else
    let isMark (c : Char) : Bool := c == 'e' || c == 'E'
    let mantissa := rest.takeWhile (!isMark ·)
    let exponent := rest.dropWhile (!isMark ·)
    let whole := mantissa.takeWhile (· != '.')
    let fraction := mantissa.dropWhile (· != '.')
    (decimalDigits? whole).isSome &&
      (fraction.isEmpty || (digitsOf? Char.isDigit fraction.tail).isSome) &&
      (exponent.isEmpty || (digitsOf? Char.isDigit (unsigned exponent.tail).2).isSome) &&
      !(fraction.isEmpty && exponent.isEmpty)

/-- The value of so many digits. -/
def number? (count : Nat) (text : List Char) : Option Nat :=
  if text.length == count && text.all Char.isDigit then some (valueOf 10 text) else none

/-- The number of days of a month. -/
def daysIn (year month : Nat) : Nat :=
  if month == 2 then
    if year % 4 == 0 && (year % 100 != 0 || year % 400 == 0) then 29 else 28
  else if [4, 6, 9, 11].contains month then 30
  else 31

/-- Whether a text is a day of the calendar. -/
def isDate (text : List Char) : Bool :=
  match text with
  | [a, b, c, d, '-', e, f, '-', g, h] =>
    match number? 4 [a, b, c, d], number? 2 [e, f], number? 2 [g, h] with
    | some year, some month, some day =>
      1 ≤ month && month ≤ 12 && 1 ≤ day && day ≤ daysIn year month
    | _, _, _ => false
  | _ => false

/-- Whether a text is a time of day; seconds may have a fraction. -/
def isTime (text : List Char) : Bool :=
  match text with
  | a :: b :: ':' :: c :: d :: ':' :: e :: f :: rest =>
    match number? 2 [a, b], number? 2 [c, d], number? 2 [e, f] with
    | some hour, some minute, some second =>
      hour ≤ 23 && minute ≤ 59 && second ≤ 60 &&
        (rest.isEmpty ||
          (rest.head? == some '.' && !rest.tail.isEmpty && rest.tail.all Char.isDigit))
    | _, _, _ => false
  | _ => false

/-- Whether a text is the distance of a time from that of Greenwich. -/
def isOffset (text : List Char) : Bool :=
  match text with
  | ['Z'] => true
  | ['z'] => true
  | [sign, a, b, ':', c, d] =>
    (sign == '+' || sign == '-') &&
      match number? 2 [a, b], number? 2 [c, d] with
      | some hour, some minute => hour ≤ 23 && minute ≤ 59
      | _, _ => false
  | _ => false

/-- Whether a text is a time of day, with or without its offset. -/
def isZonedTime (text : List Char) : Bool :=
  let time := text.takeWhile fun c => c.isDigit || c == ':' || c == '.'
  let offset := text.drop time.length
  isTime time && (offset.isEmpty || isOffset offset)

/-- Whether a text is a date, a time, or both. -/
def isDateTime (token : List Char) : Bool :=
  let date := token.take 10
  let rest := token.drop 10
  isTime token || (isDate date && (rest.isEmpty ||
    ((rest.head?).any (fun c => c == 'T' || c == 't' || c == ' ') && isZonedTime rest.tail)))

/-- Characters of numbers, dates and words. -/
def isTokenChar (c : Char) : Bool :=
  c.isAlphanum || c == '_' || c == '-' || c == '+' || c == '.' || c == ':'

/-- Reads a number, a date or a word. A date and a time may have a blank between
them. -/
def readToken : Reader Toml := fun text =>
  let token := text.takeWhile isTokenChar
  let behind := text.dropWhile isTokenChar
  let time := behind.tail.takeWhile isTokenChar
  if isDate token && behind.head? == some ' ' && isZonedTime time then
    some (.date, behind.tail.drop time.length)
  else if token == "true".toList then some (.boolean true, behind)
  else if token == "false".toList then some (.boolean false, behind)
  else
    match integerOf? token with
    | some n => some (.integer n, behind)
    | none =>
      if isFloat token then some (.float, behind)
      else if isDateTime token then some (.date, behind)
      else none

/-! ## Values -/

mutual

/-- Reads a value; `fuel` bounds the number of steps. -/
def readValue : Nat → Reader Toml
  | 0, _ => none
  | fuel + 1, text =>
    match text with
    | '[' :: rest => (readElements fuel rest).map fun (elements, behind) => (.array elements, behind)
    | '\x7b' :: rest =>
      match skipBlanks rest with
      | '\x7d' :: behind => some (.inlineTable [], behind)
      | inside =>
        (readPairs fuel [] inside).map fun (members, behind) => (.inlineTable members, behind)
    | '"' :: _ => (readString text).map fun (inner, behind) => (.string inner, behind)
    | '\'' :: _ => (readString text).map fun (inner, behind) => (.string inner, behind)
    | _ => readToken text

/-- Reads the elements of an array and its end. A comma may stand behind the
last one. -/
def readElements : Nat → Reader (List Toml)
  | 0, _ => none
  | fuel + 1, text =>
    match skipTrivia (text.length + 1) text with
    | ']' :: behind => some ([], behind)
    | inside =>
      (readValue fuel inside).bind fun (element, rest) =>
        match skipTrivia (rest.length + 1) rest with
        | ']' :: behind => some ([element], behind)
        | ',' :: behind =>
          (readElements fuel behind).map fun (others, behind) => (element :: others, behind)
        | _ => none

/-- Reads the pairs of a table in one piece and its end, behind those already
read. -/
def readPairs : Nat → Members → Reader Members
  | 0, _, _ => none
  | fuel + 1, members, text =>
    (readPair fuel text).bind fun ((path, key, value), rest) =>
      (addValue path key value members).bind fun members =>
        match skipBlanks rest with
        | '\x7d' :: behind => some (members, behind)
        | ',' :: behind => readPairs fuel members (skipBlanks behind)
        | _ => none

/-- Reads a key and its value: the path and the last part of the key. -/
def readPair : Nat → Reader (List String × String × Toml)
  | 0, _ => none
  | fuel + 1, text =>
    (readKey (text.length + 1) text).bind fun (key, rest) =>
      (after? '=' (skipBlanks rest)).bind fun rest =>
        (readValue fuel (skipBlanks rest)).bind fun (value, behind) =>
          key.getLast?.map fun last => ((key.dropLast, last, value), behind)

end

/-! ## Documents -/

/-- A document that is being read: its table, and the path of the open header. -/
structure Draft where
  root : Members := []
  opened : List String := []

/-- Reads a header: its path, and how many brackets it has. -/
def readHeader : Reader (List String × Nat)
  | '[' :: '[' :: rest =>
    (readKey (rest.length + 1) (skipBlanks rest)).bind fun (key, rest) =>
      (afterText? [']', ']'] (skipBlanks rest)).map fun behind => ((key, 2), behind)
  | '[' :: rest =>
    (readKey (rest.length + 1) (skipBlanks rest)).bind fun (key, rest) =>
      (after? ']' (skipBlanks rest)).map fun behind => ((key, 1), behind)
  | _ => none

/-- Adds what a line says to a document: the document and what stands behind. -/
def readStatement (draft : Draft) : Reader Draft := fun text =>
  match text with
  | [] => some (draft, [])
  | '#' :: _ => some (draft, text)
  | '\n' :: _ => some (draft, text)
  | '\r' :: _ => some (draft, text)
  | '[' :: _ =>
    (readHeader text).bind fun ((key, brackets), behind) =>
      key.getLast?.bind fun last =>
        let added :=
          if brackets == 2 then addToTables key.dropLast last draft.root
          else addTable key.dropLast last draft.root
        added.map fun root => ({ root, opened := key }, behind)
  | _ =>
    (readPair (text.length + 1) text).bind fun ((path, key, value), behind) =>
      (changeOpened draft.opened (addValue path key value) draft.root).map fun root =>
        ({ draft with root }, behind)

/-- Reads lines until the end. -/
def readLines : Nat → Draft → List Char → Option Draft
  | 0, _, _ => none
  | fuel + 1, draft, text =>
    (readStatement draft (skipBlanks text)).bind fun (draft, rest) =>
      match skipComment (skipBlanks rest) with
      | [] => some draft
      | rest => (afterNewline? rest).bind (readLines fuel draft)

/-- Reads a document: the members of its table. -/
def read? (text : String) : Option Members :=
  let characters :=
    match text.toList with
    | c :: rest => if c.toNat = 0xFEFF then rest else c :: rest
    | [] => []
  (readLines (characters.length + 1) {} characters).map (·.root)

end Deadwood.Toml
