/-
# The grammar of scripts

Scripts are written in JavaScript, with JSX elements among the expressions.
Statements may end without a semicolon where a line ends; the scanner decides
where such an end is meant.
-/

import Deadwood.Grammar.Parse
import Deadwood.Text.Scan

namespace Deadwood.Script

open Deadwood.Grammar
open Deadwood.Text (isHexDigit)

/-! ## Characters -/

/-- Blanks between tokens: the usual ones, the space separators, and the marks
without width. -/
def isBlank (c : Char) : Bool :=
  let n := c.toNat
  (0x09 ≤ n && n ≤ 0x0D) || n == 0x20 || n == 0xA0 || n == 0x1680 || (0x2000 ≤ n && n ≤ 0x200B) ||
    n == 0x2028 || n == 0x2029 || n == 0x202F || n == 0x205F || n == 0x2060 || n == 0x3000 ||
    n == 0xFEFF

/-- Characters that end a name. -/
def isPunctuation (c : Char) : Bool :=
  ":;`\"'@#.,|^&<=>+-*/\\%?!~()[]\x7b\x7d".toList.contains c

/-- Characters of a name after its first. -/
def isNameChar (c : Char) : Bool :=
  0x1F < c.toNat && !isBlank c && !isPunctuation c

/-- Characters that begin a name. -/
def isNameStart (c : Char) : Bool :=
  isNameChar c && !c.isDigit

/-! ## Tokens -/

/-- Reads an escaped character of a name. -/
def readEscape (source : Source) (place : Nat) : Option Nat :=
  match source.spelling? ['\\', 'u'] place with
  | none => none
  | some digits =>
    if source.peek? digits == some '\x7b' then
      let stop := source.skipWhile isHexDigit (digits + 1)
      if stop > digits + 1 && source.peek? stop == some '\x7d' then some (stop + 1) else none
    else
      let stop := min (source.skipWhile isHexDigit digits) (digits + 4)
      if stop == digits + 4 then some stop else none

/-- The place behind the name characters from a place on. -/
def skipName (source : Source) : Nat → Nat → Nat
  | 0, place => place
  | fuel + 1, place =>
    match source.peek? place with
    | none => place
    | some c =>
      if isNameChar c then skipName source fuel (place + 1)
      else
        match readEscape source place with
        | some stop => skipName source fuel stop
        | none => place

/-- Reads a name. -/
def readName (source : Source) (place : Nat) : Option Nat :=
  match source.peek? place with
  | none => none
  | some c =>
    if isNameStart c then some (skipName source (source.size - place) (place + 1))
    else (readEscape source place).map fun stop => skipName source (source.size - place) stop

/-- Reads digits of a kind, with single underscores between. -/
def readDigits (test : Char → Bool) (source : Source) (place : Nat) : Option Nat :=
  if (source.peek? place).any test then some (go (source.size - place) (place + 1)) else none
where
  go : Nat → Nat → Nat
    | 0, place => place
    | fuel + 1, place =>
      if (source.peek? place).any test then go fuel (place + 1)
      else if source.peek? place == some '_' && (source.peek? (place + 1)).any test then
        go fuel (place + 2)
      else place

/-- Reads the exponent of a number. -/
def readExponent (source : Source) (place : Nat) : Option Nat :=
  match source.peek? place with
  | some c =>
    if c == 'e' || c == 'E' then
      let sign := source.peek (place + 1)
      readDigits Char.isDigit source (if sign == '-' || sign == '+' then place + 2 else place + 1)
    else none
  | none => none

/-- Reads a number, with the mark of a big integer if there is one. -/
def readNumber (source : Source) (place : Nat) : Option Nat :=
  let based (letters : List Char) (test : Char → Bool) : Option Nat :=
    if source.peek place == '0' && letters.contains (source.peek (place + 1)) then
      (readDigits test source (place + 2)).map fun stop =>
        if source.peek? stop == some 'n' then stop + 1 else stop
    else none
  let orExponent (stop : Nat) : Nat := (readExponent source stop).getD stop
  let withFraction (stop : Nat) : Nat :=
    orExponent ((readDigits Char.isDigit source stop).getD stop)
  -- The integer part before a point or an exponent: zero alone, or digits that begin with
  -- no more than one zero.
  let integer? (stop : Nat) : Bool :=
    let lead := source.peek place
    let second := source.peek (place + 1)
    stop == place + 1 || lead != '0' || (second.isDigit && second != '0')
  let decimal : Option Nat :=
    match readDigits Char.isDigit source place with
    | some stop =>
      if source.peek? stop == some 'n' then some (stop + 1)
      else if integer? stop && source.peek? stop == some '.' then some (withFraction (stop + 1))
      else if integer? stop then some (orExponent stop)
      else some stop
    | none =>
      if source.peek? place == some '.' then
        (readDigits Char.isDigit source (place + 1)).map orExponent
      else none
  let isBinary (c : Char) : Bool := c == '0' || c == '1'
  let isOctal (c : Char) : Bool := '0' ≤ c && c ≤ '7'
  (based ['x', 'X'] isHexDigit).orElse fun _ =>
    (based ['b', 'B'] isBinary).orElse fun _ =>
      (based ['o', 'O'] isOctal).orElse fun _ => decimal

/-- Line separators besides the newline. -/
def isSeparator (c : Char) : Bool :=
  c.toNat == 0x2028 || c.toNat == 0x2029

/-- Reads to the end of a block comment, from inside it. -/
def readBlockEnd (source : Source) : Nat → Nat → Option Nat
  | 0, _ => none
  | fuel + 1, place =>
    match source.peek? place with
    | none => none
    | some c =>
      if c == '*' && source.peek? (place + 1) == some '/' then some (place + 2)
      else readBlockEnd source fuel (place + 1)

/-- Reads a comment of either form. -/
def readComment (source : Source) (place : Nat) : Option Nat :=
  if source.peek place == '/' && source.peek (place + 1) == '/' then
    some (source.skipWhile (fun c => !(c == '\r' || c == '\n' || isSeparator c)) (place + 2))
  else if source.peek place == '/' && source.peek (place + 1) == '*' then
    readBlockEnd source (source.size - place) (place + 2)
  else none

/-- Reads characters up to one of a class. -/
def readUntil (stops : Char → Bool) (source : Source) (place : Nat) : Option Nat :=
  some (source.skipWhile (fun c => !stops c) place)

/-- Reads an escape inside a string or a template. -/
def readStringEscape (source : Source) (place : Nat) : Option Nat :=
  if source.peek? place != some '\\' then none
  else
    match source.peek? (place + 1) with
    | none => none
    | some 'x' =>
      if isHexDigit (source.peek (place + 2)) && isHexDigit (source.peek (place + 3)) then
        some (place + 4)
      else none
    | some 'u' =>
      readEscape source place
    | some c =>
      if '0' ≤ c && c ≤ '7' then
        some (min (source.skipWhile (fun d => '0' ≤ d && d ≤ '7') (place + 1)) (place + 4))
      else if (c == '\r' || c == '?') &&
          (source.peek (place + 2) == '\n' || isSeparator (source.peek (place + 2))) then
        some (place + 3)
      else some (place + 2)

/-- Reads a bracketed class inside a regular expression. -/
def readRegexClass (source : Source) : Nat → Nat → Option Nat
  | 0, _ => none
  | fuel + 1, place =>
    match source.peek? place with
    | none => none
    | some ']' => some (place + 1)
    | some '\\' =>
      if (source.peek? (place + 1)).any (· != '\n') then readRegexClass source fuel (place + 2)
      else none
    | some c => if c == '\n' then none else readRegexClass source fuel (place + 1)

/-- Reads the pattern of a regular expression as far as it goes. -/
def skipRegex (source : Source) : Nat → Nat → Nat
  | 0, place => place
  | fuel + 1, place =>
    match source.peek? place with
    | none => place
    | some '/' => place
    | some '\n' => place
    | some '[' =>
      match readRegexClass source (source.size - place) (place + 1) with
      | some stop => skipRegex source fuel stop
      | none => place
    | some '\\' =>
      if (source.peek? (place + 1)).any (· != '\n') then skipRegex source fuel (place + 2)
      else place
    | some _ => skipRegex source fuel (place + 1)

/-- Reads the pattern of a regular expression. -/
def readRegex (source : Source) (place : Nat) : Option Nat :=
  some (skipRegex source (source.size - place) place)

/-- The letters of ASCII. -/
def isLatinLetter (c : Char) : Bool :=
  ('a' ≤ c && c ≤ 'z') || ('A' ≤ c && c ≤ 'Z')

/-- Reads a name with a dash in it. -/
def readDashedName (source : Source) (place : Nat) : Option Nat :=
  let isWord (c : Char) : Bool := isLatinLetter c || c.isDigit || c == '_' || c == '$'
  if (source.peek? place).any fun c => isWord c && !c.isDigit then
    let stop := source.skipWhile isWord (place + 1)
    if source.peek? stop == some '-' then
      some (source.skipWhile (fun c => isWord c || c == '-') (stop + 1))
    else none
  else none

/-- Reads a character reference: a number or a name between an ampersand and a
semicolon. -/
def readReference (source : Source) (place : Nat) : Option Nat :=
  let closed (start stop limit : Nat) : Option Nat :=
    if start < stop && stop - start ≤ limit && source.peek? stop == some ';' then some (stop + 1)
    else none
  if source.peek? place != some '&' then none
  else if source.peek? (place + 1) == some '#' then
    let mark := source.peek (place + 2)
    if mark == 'x' || mark == 'X' then
      closed (place + 3) (source.skipWhile isHexDigit (place + 3)) 6
    else closed (place + 2) (source.skipWhile Char.isDigit (place + 2)) 5
  else closed (place + 1) (source.skipWhile isLatinLetter (place + 1)) 30

/-- Reads the text of a quoted attribute, up to its quote or a reference. -/
def skipAttributeText (quote : Char) (source : Source) : Nat → Nat → Nat
  | 0, place => place
  | fuel + 1, place =>
    match source.peek? place with
    | none => place
    | some c =>
      if c == quote then place
      else if c == '&' then
        match source.peek? (place + 1) with
        | some d =>
          if d == '#' || isLatinLetter d then place
          else skipAttributeText quote source fuel (place + 2)
        | none => place
      else skipAttributeText quote source fuel (place + 1)

/-- Reads "static get" at the end of a line. -/
def readStaticGet (source : Source) (place : Nat) : Option Nat :=
  let isSpace (c : Char) : Bool := c == ' ' || (0x09 ≤ c.toNat && c.toNat ≤ 0x0D)
  match source.spelling? "static".toList place with
  | none => none
  | some afterStatic =>
    let word := source.skipWhile isSpace afterStatic
    if word == afterStatic then none
    else
      match source.spelling? "get".toList word with
      | none => none
      | some afterGet =>
        let stop := source.skipWhile isSpace afterGet
        -- The match ends behind the last line end among the blanks.
        ((List.range (stop - afterGet)).map (stop - ·)).find? fun place =>
          source.peek (place - 1) == '\n'

/-! ## The scanner -/

/-- Blanks as the scanner sees them. -/
def isSpace (c : Char) : Bool :=
  c == ' ' || (0x09 ≤ c.toNat && c.toNat ≤ 0x0D)

/-- Characters that end a line. -/
def isLineEnd (c : Char) : Bool :=
  c == '\n' || isSeparator c

/-- What blanks and comments before a token say of a statement's end. -/
inductive Gap
  | reject
  | noNewline
  | accept
deriving BEq, DecidableEq

/-- Passes the rest of a block comment; tells whether it holds a line end. -/
def passBlock (source : Source) : Nat → Nat → Bool → Nat × Bool × Bool
  | 0, place, line => (place, line, false)
  | fuel + 1, place, line =>
    let c := source.peek place
    if c == '\x00' then (place, line, false)
    else if c == '*' then
      if source.peek (place + 1) == '/' then (place + 2, line, true)
      else passBlock source fuel (place + 1) line
    else passBlock source fuel (place + 1) (line || isLineEnd c)

/-- Passes blanks and comments. With `consume` unset, a block comment that no
further comment follows settles the matter. The flag tells whether a comment
was passed. -/
def passGap (source : Source) (consume : Bool) : Nat → Nat → Bool → Bool → Nat × Gap × Bool
  | 0, place, _, comment => (place, .accept, comment)
  | fuel + 1, place, line, comment =>
    let place := source.skipWhile isSpace place
    if source.peek place != '/' then (place, .accept, comment)
    else if source.peek (place + 1) == '/' then
      let stop := source.skipWhile (fun c => !(c == '\x00' || isLineEnd c)) (place + 2)
      passGap source consume fuel stop line true
    else if source.peek (place + 1) == '*' then
      let (stop, line, closed) := passBlock source (source.size - place) (place + 2) line
      if closed && source.peek stop != '/' && !consume then
        (stop, if line then .accept else .noNewline, true)
      else passGap source consume fuel stop line (comment || closed)
    else (place + 1, .reject, comment)

/-- Whether a line end before the given place ends the statement: not before a
token that can only continue it. -/
def endsBefore (source : Source) (place : Nat) : Bool :=
  let c := source.peek place
  let next := source.peek (place + 1)
  if "`,:;*%><=[(?^|&/".toList.contains c then false
  else if c == '.' then next.isDigit
  else if c == '+' then next == '+'
  else if c == '-' then next == '-'
  else if c == '!' then next != '='
  else if c == 'i' then
    if next != 'n' then true
    else if !isLatinLetter (source.peek (place + 2)) then false
    else
      match source.spelling? "stanceof".toList (place + 2) with
      | none => true
      | some stop => isLatinLetter (source.peek stop)
  else true

/-- Whether a statement ends here without a semicolon, the place reached while
looking, and whether a comment was passed. -/
def findSemicolon (source : Source) (mayEndAtComment : Bool) :
    Nat → Nat → Bool → Bool × Nat × Bool
  | 0, place, comment => (false, place, comment)
  | fuel + 1, place, comment =>
    let c := source.peek place
    if c == '\x00' then (true, place, comment)
    else
      let (place, gap, comment) :=
        if c == '/' then passGap source false (source.size - place + 1) place false comment
        else (place, Gap.noNewline, comment)
      let c' := source.peek place
      if c == '/' && gap == .reject then (false, place, comment)
      else if c == '/' && gap == .accept && mayEndAtComment && c' != ',' && c' != '=' then
        (true, place, comment)
      else if c' == '\x7d' then (true, place, comment)
      else if isLineEnd c' then
        let (stop, gap, comment) := passGap source true (source.size - place + 1) (place + 1) false comment
        if gap == .reject then (false, stop, comment)
        else (endsBefore source stop, stop, comment)
      else if !isSpace c' then (false, place, comment)
      else findSemicolon source mayEndAtComment fuel (place + 1) comment

/-- Reads the characters of a template up to its end, an escape, or a
substitution. -/
def skipTemplate (source : Source) : Nat → Nat → Option Nat
  | 0, _ => none
  | fuel + 1, place =>
    let c := source.peek place
    if c == '\x60' || c == '\\' then some place
    else if c == '\x00' then none
    else if c == '$' && source.peek (place + 1) == '\x7b' then some place
    else skipTemplate source fuel (place + 1)

/-- Reads the question mark of a conditional, which is no optional chain. -/
def readQuestion (source : Source) (place : Nat) : Option (Nat × Nat) :=
  let start := source.skipWhile isSpace place
  if source.peek start != '?' || source.peek (start + 1) == '?' then none
  else if source.peek (start + 1) == '.' && !(source.peek (start + 2)).isDigit then none
  else some (start, start + 1)

/-- Reads a comment in the style of a page. -/
def readPageComment (source : Source) (place : Nat) : Option (Nat × Nat) :=
  let start := source.skipWhile (fun c => isSpace c || isSeparator c) place
  let opened := (source.spelling? "<!--".toList start).orElse fun _ =>
    source.spelling? "-->".toList start
  opened.map fun stop =>
    (start, source.skipWhile (fun c => !(c == '\x00' || isLineEnd c)) stop)

/-- Reads the text of an element. Blanks that only break a line are no text. -/
def readElementText (source : Source) (place : Nat) : Option Nat :=
  let stop := source.skipWhile (fun c => !("<>\x7b\x7d&\x00".toList.contains c)) place
  let step (state : Bool × Bool) (c : Char) : Bool × Bool :=
    if c == '\n' then (state.1, true)
    else
      let atLine := state.2 && isSpace c
      (state.1 || !atLine, atLine)
  let seen := ((source.chars.extract place stop).toList.foldl step (false, false)).1
  if seen then some stop else none

/-- The scanner's tokens, in its order. -/
def scannerTokens : List String :=
  ["_automatic_semicolon", "_template_chars", "_ternary_qmark", "html_comment", "||",
    "escape_sequence", "regex_pattern", "jsx_text"]

/-- Reads the tokens that depend on more than their own characters. -/
def scan : Scanner := fun valid memory source place =>
  let question (_ : Unit) : Option Finding :=
    (readQuestion source place).map fun (start, stop) => ⟨2, start, stop, memory⟩
  let elementText : Option Finding :=
    if valid 7 then (readElementText source place).map fun stop => ⟨7, place, stop, memory⟩ else none
  if valid 1 then
    if valid 0 then none
    else
      match skipTemplate source (source.size - place + 1) place with
      | some stop => if stop > place then some ⟨1, place, stop, memory⟩ else none
      | none => none
  else
    match elementText with
    | some found => some found
    | none =>
      if valid 0 then
        let (ends, stop, comment) := findSemicolon source (!valid 4) (source.size - place + 1) place false
        if ends then some ⟨0, place, place, memory⟩
        else if !comment && valid 2 && source.peek stop == '?' then question ()
        else none
      else if valid 2 then question ()
      else if valid 3 && !valid 4 && !valid 5 && !valid 6 then
        (readPageComment source place).map fun (start, stop) => ⟨3, start, stop, memory⟩
      else none

/-! ## Rules -/

section

open Rule

/-- A child with a label. -/
private def field (label : String) (body : Rule) : Rule := .labelled label body

/-- A rule with a named rank. -/
private def rank (name : String) (body : Rule) : Rule := .ranked (.named name) none body

/-- A rule with a named rank that leans to the left. -/
private def rankLeft (name : String) (body : Rule) : Rule := .ranked (.named name) (some .left) body

/-- A rule with a named rank that leans to the right. -/
private def rankRight (name : String) (body : Rule) : Rule := .ranked (.named name) (some .right) body

/-- A rule that leans to the left. -/
private def leansLeft (body : Rule) : Rule := .ranked .plain (some .left) body

/-- A rule that leans to the right. -/
private def leansRight (body : Rule) : Rule := .ranked .plain (some .right) body

/-- Any number of parts between commas. -/
private def commas (body : Rule) : Rule := separated "," body

/-- One or more parts between commas. -/
private def commas1 (body : Rule) : Rule := separated1 "," body

/-- A name, or a word that is reserved only in places, under one kind. -/
private def anyName (kind : String) : Rule :=
  as kind (.choice [sym "identifier", sym "_reserved_identifier"])

/-- The decorators of a declaration. -/
private def decorators : Rule := many (field "decorator" (sym "decorator"))

/-- The operators of binary expressions: the rank of each, from the first
character on. -/
private def binaryOperators : List (String × String × Bool) :=
  [("&&", "logical_and", false), ("||", "logical_or", false), (">>", "binary_shift", false),
    (">>>", "binary_shift", false), ("<<", "binary_shift", false), ("&", "bitwise_and", false),
    ("^", "bitwise_xor", false), ("|", "bitwise_or", false), ("+", "binary_plus", false),
    ("-", "binary_plus", false), ("*", "binary_times", false), ("/", "binary_times", false),
    ("%", "binary_times", false), ("**", "binary_exp", true), ("<", "binary_relation", false),
    ("<=", "binary_relation", false), ("==", "binary_equality", false),
    ("===", "binary_equality", false), ("!=", "binary_equality", false),
    ("!==", "binary_equality", false), (">=", "binary_relation", false),
    (">", "binary_relation", false), ("??", "ternary", false),
    ("instanceof", "binary_relation", false), ("in", "binary_relation", false)]

/-- An operator between two operands. -/
private def binaryExpression (entry : String × String × Bool) : Rule :=
  let left := if entry.1 == "in" then
      Rule.choice [sym "expression", sym "private_property_identifier"]
    else sym "expression"
  let body := seq [field "left" left, field "operator" (.literal entry.1),
    field "right" (sym "expression")]
  if entry.2.2 then rankRight entry.2.1 body else rankLeft entry.2.1 body

/-- Text and escapes between quotes. -/
private def quotedFragments (quote text : String) (inner : String) : Rule :=
  seq [.literal quote, many (.choice [as "string_fragment" (sym text), sym inner]), .literal quote]

/-- The rules of scripts. -/
private def scriptRules : List (String × Definition) :=
  [("program", .rule (seq [optional (sym "hash_bang_line"), many (sym "statement")])),
    ("hash_bang_line", .token
      { read := fun source place =>
          (source.spelling? ['#', '!'] place).map (source.skipWhile (· != '\n')) }),
    ("export_statement", .rule (.choice [
      seq ["export",
        .choice [
          seq ["*", sym "_from_clause"],
          seq [sym "namespace_export", sym "_from_clause"],
          seq [sym "export_clause", sym "_from_clause"],
          sym "export_clause"],
        sym "_semicolon"],
      seq [decorators, "export",
        .choice [
          field "declaration" (sym "declaration"),
          seq ["default",
            .choice [
              field "declaration" (sym "declaration"),
              seq [field "value" (sym "expression"), sym "_semicolon"]]]]]])),
    ("namespace_export", .rule (seq ["*", "as", sym "_module_export_name"])),
    ("export_clause", .rule (seq ["\x7b", commas (sym "export_specifier"), optional ",", "\x7d"])),
    ("export_specifier", .rule (seq [
      field "name" (sym "_module_export_name"),
      optional (seq ["as", field "alias" (sym "_module_export_name")])])),
    ("_module_export_name", .rule (.choice [sym "identifier", sym "string"])),
    ("declaration", .rule (.choice [
      sym "function_declaration", sym "generator_function_declaration", sym "class_declaration",
      sym "lexical_declaration", sym "variable_declaration"])),
    ("import", .rule "import"),
    ("import_statement", .rule (seq ["import",
      .choice [seq [sym "import_clause", sym "_from_clause"], field "source" (sym "string")],
      optional (sym "import_attribute"), sym "_semicolon"])),
    ("import_clause", .rule (.choice [
      sym "namespace_import", sym "named_imports",
      seq [sym "identifier",
        optional (seq [",", .choice [sym "namespace_import", sym "named_imports"]])]])),
    ("_from_clause", .rule (seq ["from", field "source" (sym "string")])),
    ("namespace_import", .rule (seq ["*", "as", sym "identifier"])),
    ("named_imports", .rule (seq ["\x7b", commas (sym "import_specifier"), optional ",", "\x7d"])),
    ("import_specifier", .rule (.choice [
      field "name" (sym "identifier"),
      seq [field "name" (sym "_module_export_name"), "as", field "alias" (sym "identifier")]])),
    ("import_attribute", .rule (seq ["with", sym "object"])),
    ("statement", .rule (.choice [
      sym "export_statement", sym "import_statement", sym "debugger_statement",
      sym "expression_statement", sym "declaration", sym "statement_block", sym "if_statement",
      sym "switch_statement", sym "for_statement", sym "for_in_statement", sym "while_statement",
      sym "do_statement", sym "try_statement", sym "with_statement", sym "break_statement",
      sym "continue_statement", sym "return_statement", sym "throw_statement",
      sym "empty_statement", sym "labeled_statement"])),
    ("expression_statement", .rule (seq [sym "_expressions", sym "_semicolon"])),
    ("variable_declaration", .rule (seq ["var", commas1 (sym "variable_declarator"),
      sym "_semicolon"])),
    ("lexical_declaration", .rule (seq [field "kind" (.choice ["let", "const"]),
      commas1 (sym "variable_declarator"), sym "_semicolon"])),
    ("variable_declarator", .rule (seq [
      field "name" (.choice [sym "identifier", sym "_destructuring_pattern"]),
      optional (sym "_initializer")])),
    ("statement_block", .rule (leansRight (seq ["\x7b", many (sym "statement"), "\x7d",
      optional (sym "_automatic_semicolon")]))),
    ("else_clause", .rule (seq ["else", sym "statement"])),
    ("if_statement", .rule (leansRight (seq ["if",
      field "condition" (sym "parenthesized_expression"),
      field "consequence" (sym "statement"),
      optional (field "alternative" (sym "else_clause"))]))),
    ("switch_statement", .rule (seq ["switch", field "value" (sym "parenthesized_expression"),
      field "body" (sym "switch_body")])),
    ("for_statement", .rule (seq ["for", "(",
      .choice [
        field "initializer" (.choice [sym "lexical_declaration", sym "variable_declaration"]),
        seq [field "initializer" (sym "_expressions"), ";"],
        field "initializer" (sym "empty_statement")],
      field "condition" (.choice [seq [sym "_expressions", ";"], sym "empty_statement"]),
      field "increment" (optional (sym "_expressions")),
      ")", field "body" (sym "statement")])),
    ("for_in_statement", .rule (seq ["for", optional "await", sym "_for_header",
      field "body" (sym "statement")])),
    ("_for_header", .rule (seq ["(",
      .choice [
        field "left" (.choice [sym "_lhs_expression", sym "parenthesized_expression"]),
        seq [field "kind" "var",
          field "left" (.choice [sym "identifier", sym "_destructuring_pattern"]),
          optional (sym "_initializer")],
        seq [field "kind" (.choice ["let", "const"]),
          field "left" (.choice [sym "identifier", sym "_destructuring_pattern"]),
          optional (sym "_automatic_semicolon")]],
      field "operator" (.choice ["in", "of"]),
      field "right" (sym "_expressions"), ")"])),
    ("while_statement", .rule (seq ["while", field "condition" (sym "parenthesized_expression"),
      field "body" (sym "statement")])),
    ("do_statement", .rule (leansRight (seq ["do", field "body" (sym "statement"), "while",
      field "condition" (sym "parenthesized_expression"), optional (sym "_semicolon")]))),
    ("try_statement", .rule (seq ["try", field "body" (sym "statement_block"),
      optional (field "handler" (sym "catch_clause")),
      optional (field "finalizer" (sym "finally_clause"))])),
    ("with_statement", .rule (seq ["with", field "object" (sym "parenthesized_expression"),
      field "body" (sym "statement")])),
    ("break_statement", .rule (seq ["break",
      field "label" (optional (as "statement_identifier" (sym "identifier"))),
      sym "_semicolon"])),
    ("continue_statement", .rule (seq ["continue",
      field "label" (optional (as "statement_identifier" (sym "identifier"))),
      sym "_semicolon"])),
    ("debugger_statement", .rule (seq ["debugger", sym "_semicolon"])),
    ("return_statement", .rule (seq ["return", optional (sym "_expressions"), sym "_semicolon"])),
    ("throw_statement", .rule (seq ["throw", sym "_expressions", sym "_semicolon"])),
    ("empty_statement", .rule ";"),
    ("labeled_statement", .rule (.weighted (-1) (seq [
      field "label" (anyName "statement_identifier"), ":", field "body" (sym "statement")]))),
    ("switch_body", .rule (seq ["\x7b",
      many (.choice [sym "switch_case", sym "switch_default"]), "\x7d"])),
    ("switch_case", .rule (seq ["case", field "value" (sym "_expressions"), ":",
      field "body" (many (sym "statement"))])),
    ("switch_default", .rule (seq ["default", ":", field "body" (many (sym "statement"))])),
    ("catch_clause", .rule (seq ["catch",
      optional (seq ["(",
        field "parameter" (.choice [sym "identifier", sym "_destructuring_pattern"]), ")"]),
      field "body" (sym "statement_block")])),
    ("finally_clause", .rule (seq ["finally", field "body" (sym "statement_block")])),
    ("parenthesized_expression", .rule (seq ["(", sym "_expressions", ")"])),
    ("_expressions", .rule (.choice [sym "expression", sym "sequence_expression"])),
    ("expression", .rule (.choice [
      sym "primary_expression", sym "_jsx_element", sym "assignment_expression",
      sym "augmented_assignment_expression", sym "await_expression", sym "unary_expression",
      sym "binary_expression", sym "ternary_expression", sym "update_expression",
      sym "new_expression", sym "yield_expression"])),
    ("primary_expression", .rule (.choice [
      sym "subscript_expression", sym "member_expression", sym "parenthesized_expression",
      sym "_identifier", as "identifier" (sym "_reserved_identifier"), sym "this", sym "super",
      sym "number", sym "string", sym "template_string", sym "regex", sym "true", sym "false",
      sym "null", sym "object", sym "array", sym "function_expression", sym "arrow_function",
      sym "generator_function", sym "class", sym "meta_property", sym "call_expression"])),
    ("yield_expression", .rule (leansRight (seq ["yield",
      .choice [seq ["*", sym "expression"], optional (sym "expression")]]))),
    ("object", .rule (rank "object" (seq ["\x7b",
      commas (optional (.choice [sym "pair", sym "spread_element", sym "method_definition",
        anyName "shorthand_property_identifier"])), "\x7d"]))),
    ("object_pattern", .rule (rank "object" (seq ["\x7b",
      commas (optional (.choice [sym "pair_pattern", sym "rest_pattern",
        sym "object_assignment_pattern", anyName "shorthand_property_identifier_pattern"])),
      "\x7d"]))),
    ("assignment_pattern", .rule (seq [field "left" (sym "pattern"), "=",
      field "right" (sym "expression")])),
    ("object_assignment_pattern", .rule (seq [
      field "left" (.choice [
        as "shorthand_property_identifier_pattern"
          (.choice [sym "_reserved_identifier", sym "identifier"]),
        sym "_destructuring_pattern"]),
      "=", field "right" (sym "expression")])),
    ("array", .rule (seq ["[",
      commas (optional (.choice [sym "expression", sym "spread_element"])), "]"])),
    ("array_pattern", .rule (seq ["[",
      commas (optional (.choice [sym "pattern", sym "assignment_pattern"])), "]"])),
    ("_jsx_element", .rule (.choice [sym "jsx_element", sym "jsx_self_closing_element"])),
    ("jsx_element", .rule (seq [field "open_tag" (sym "jsx_opening_element"),
      many (sym "_jsx_child"), field "close_tag" (sym "jsx_closing_element")])),
    ("html_character_reference", .token { read := readReference }),
    ("jsx_expression", .rule (seq ["\x7b",
      optional (.choice [sym "expression", sym "sequence_expression", sym "spread_element"]),
      "\x7d"])),
    ("_jsx_child", .rule (.choice [sym "jsx_text", sym "html_character_reference",
      sym "_jsx_element", sym "jsx_expression"])),
    ("jsx_opening_element", .rule (.weighted (-1) (seq ["<",
      optional (seq [field "name" (sym "_jsx_element_name"),
        many (field "attribute" (sym "_jsx_attribute"))]), ">"]))),
    ("jsx_identifier", .token { read := readDashedName }),
    ("_jsx_identifier", .rule (.choice [as "identifier" (sym "jsx_identifier"), sym "identifier"])),
    ("nested_identifier", .rule (rank "member" (seq [
      field "object" (.choice [sym "identifier",
        as "member_expression" (sym "nested_identifier")]),
      ".", field "property" (as "property_identifier" (sym "identifier"))]))),
    ("jsx_namespace_name", .rule (seq [sym "_jsx_identifier", ":", sym "_jsx_identifier"])),
    ("_jsx_element_name", .rule (.choice [sym "_jsx_identifier",
      as "member_expression" (sym "nested_identifier"), sym "jsx_namespace_name"])),
    ("jsx_closing_element", .rule (seq ["</", optional (field "name" (sym "_jsx_element_name")),
      ">"])),
    ("jsx_self_closing_element", .rule (seq ["<", field "name" (sym "_jsx_element_name"),
      many (field "attribute" (sym "_jsx_attribute")), "/>"])),
    ("_jsx_attribute", .rule (.choice [sym "jsx_attribute", sym "jsx_expression"])),
    ("_jsx_attribute_name", .rule (.choice [as "property_identifier" (sym "_jsx_identifier"),
      sym "jsx_namespace_name"])),
    ("jsx_attribute", .rule (seq [sym "_jsx_attribute_name",
      optional (seq ["=", sym "_jsx_attribute_value"])])),
    ("_jsx_string", .rule (.choice [
      quotedFragments "\"" "unescaped_double_jsx_string_fragment" "html_character_reference",
      quotedFragments "'" "unescaped_single_jsx_string_fragment" "html_character_reference"])),
    ("unescaped_double_jsx_string_fragment", .token
      { read := fun source place => some (skipAttributeText '"' source (source.size - place) place)
        rank := 1, immediate := true }),
    ("unescaped_single_jsx_string_fragment", .token
      { read := fun source place => some (skipAttributeText '\'' source (source.size - place) place)
        rank := 1, immediate := true }),
    ("_jsx_attribute_value", .rule (.choice [as "string" (sym "_jsx_string"),
      sym "jsx_expression", sym "_jsx_element"])),
    ("class", .rule (rank "literal" (seq [decorators, "class",
      field "name" (optional (sym "identifier")), optional (sym "class_heritage"),
      field "body" (sym "class_body")]))),
    ("class_declaration", .rule (rank "declare" (seq [decorators, "class",
      field "name" (sym "identifier"), optional (sym "class_heritage"),
      field "body" (sym "class_body"), optional (sym "_automatic_semicolon")]))),
    ("class_heritage", .rule (seq ["extends", sym "expression"])),
    ("function_expression", .rule (rank "literal" (seq [optional "async", "function",
      field "name" (optional (sym "identifier")), sym "_call_signature",
      field "body" (sym "statement_block")]))),
    ("function_declaration", .rule (rankRight "declare" (seq [optional "async", "function",
      field "name" (sym "identifier"), sym "_call_signature",
      field "body" (sym "statement_block"), optional (sym "_automatic_semicolon")]))),
    ("generator_function", .rule (rank "literal" (seq [optional "async", "function", "*",
      field "name" (optional (sym "identifier")), sym "_call_signature",
      field "body" (sym "statement_block")]))),
    ("generator_function_declaration", .rule (rankRight "declare" (seq [optional "async",
      "function", "*", field "name" (sym "identifier"), sym "_call_signature",
      field "body" (sym "statement_block"), optional (sym "_automatic_semicolon")]))),
    ("arrow_function", .rule (seq [optional "async",
      .choice [
        field "parameter" (.choice [as "identifier" (sym "_reserved_identifier"),
          sym "identifier"]),
        sym "_call_signature"],
      "=>", field "body" (.choice [sym "expression", sym "statement_block"])])),
    ("_call_signature", .rule (field "parameters" (sym "formal_parameters"))),
    ("_formal_parameter", .rule (.choice [sym "pattern", sym "assignment_pattern"])),
    ("optional_chain", .keyword "?."),
    ("call_expression", .rule (.choice [
      rank "call" (seq [field "function" (.choice [sym "expression", sym "import"]),
        field "arguments" (sym "arguments")]),
      rank "template_call" (seq [
        field "function" (.choice [sym "primary_expression", sym "new_expression"]),
        field "arguments" (sym "template_string")]),
      rank "member" (seq [field "function" (sym "primary_expression"),
        field "optional_chain" (sym "optional_chain"),
        field "arguments" (sym "arguments")])])),
    ("new_expression", .rule (rankRight "new" (seq ["new",
      field "constructor" (.choice [sym "primary_expression", sym "new_expression"]),
      field "arguments" (optional (.weighted 1 (sym "arguments")))]))),
    ("await_expression", .rule (rank "unary_void" (seq ["await", sym "expression"]))),
    ("member_expression", .rule (rank "member" (seq [
      field "object" (.choice [sym "expression", sym "primary_expression", sym "import"]),
      .choice [".", field "optional_chain" (sym "optional_chain")],
      field "property" (.choice [sym "private_property_identifier",
        as "property_identifier" (sym "identifier")])]))),
    ("subscript_expression", .rule (rankRight "member" (seq [
      field "object" (.choice [sym "expression", sym "primary_expression"]),
      optional (field "optional_chain" (sym "optional_chain")),
      "[", field "index" (sym "_expressions"), "]"]))),
    ("_lhs_expression", .rule (.choice [sym "member_expression", sym "subscript_expression",
      sym "_identifier", as "identifier" (sym "_reserved_identifier"),
      sym "_destructuring_pattern"])),
    ("assignment_expression", .rule (rankRight "assign" (seq [
      field "left" (.choice [sym "parenthesized_expression", sym "_lhs_expression"]),
      "=", field "right" (sym "expression")]))),
    ("_augmented_assignment_lhs", .rule (.choice [sym "member_expression",
      sym "subscript_expression", as "identifier" (sym "_reserved_identifier"),
      sym "identifier", sym "parenthesized_expression"])),
    ("augmented_assignment_expression", .rule (rankRight "assign" (seq [
      field "left" (sym "_augmented_assignment_lhs"),
      field "operator" (.choice ["+=", "-=", "*=", "/=", "%=", "^=", "&=", "|=", ">>=", ">>>=",
        "<<=", "**=", "&&=", "||=", "??="]),
      field "right" (sym "expression")]))),
    ("_initializer", .rule (seq ["=", field "value" (sym "expression")])),
    ("_destructuring_pattern", .rule (.choice [sym "object_pattern", sym "array_pattern"])),
    ("spread_element", .rule (seq ["...", sym "expression"])),
    ("ternary_expression", .rule (rankRight "ternary" (seq [
      field "condition" (sym "expression"), asPlain "?" (sym "_ternary_qmark"),
      field "consequence" (sym "expression"), ":",
      field "alternative" (sym "expression")]))),
    ("binary_expression", .rule (.choice (binaryOperators.map binaryExpression))),
    ("unary_expression", .rule (rankLeft "unary_void" (seq [
      field "operator" (.choice ["!", "~", "-", "+", "typeof", "void", "delete"]),
      field "argument" (sym "expression")]))),
    ("update_expression", .rule (leansLeft (.choice [
      seq [field "argument" (sym "expression"), field "operator" (.choice ["++", "--"])],
      seq [field "operator" (.choice ["++", "--"]), field "argument" (sym "expression")]]))),
    ("sequence_expression", .rule (leansRight (commas1 (sym "expression")))),
    ("string", .rule (.choice [
      quotedFragments "\"" "unescaped_double_string_fragment" "escape_sequence",
      quotedFragments "'" "unescaped_single_string_fragment" "escape_sequence"])),
    ("unescaped_double_string_fragment", .token
      { read := readUntil fun c => c == '"' || c == '\\' || c == '\r' || c == '\n'
        rank := 1, immediate := true }),
    ("unescaped_single_string_fragment", .token
      { read := readUntil fun c => c == '\'' || c == '\\' || c == '\r' || c == '\n'
        rank := 1, immediate := true }),
    ("escape_sequence", .token { read := readStringEscape, immediate := true }),
    ("comment", .token { read := readComment }),
    ("template_string", .rule (seq ["`",
      many (.choice [as "string_fragment" (sym "_template_chars"), sym "escape_sequence",
        sym "template_substitution"]), "`"])),
    ("template_substitution", .rule (seq ["$\x7b", sym "_expressions", "\x7d"])),
    ("regex", .rule (seq ["/", field "pattern" (sym "regex_pattern"),
      asPlain "/" (sym "_regex_end"), optional (field "flags" (sym "regex_flags"))])),
    ("_regex_end", .token
      { read := fun source place => source.spelling? ['/'] place
        rank := 1, immediate := true, spelling := some "/" }),
    ("regex_pattern", .token { read := readRegex, rank := -1, immediate := true }),
    ("regex_flags", .token
      { read := fun source place => some (source.skipWhile (fun c => 'a' ≤ c && c ≤ 'z') place)
        immediate := true }),
    ("number", .token { read := readNumber }),
    ("_identifier", .rule (.choice [sym "undefined", sym "identifier"])),
    ("identifier", .token { read := readName }),
    ("private_property_identifier", .token
      { read := fun source place => (source.spelling? ['#'] place).bind (readName source) }),
    ("meta_property", .rule (.choice [seq ["new", ".", "target"], seq ["import", ".", "meta"]])),
    ("this", .keyword "this"),
    ("super", .keyword "super"),
    ("true", .keyword "true"),
    ("false", .keyword "false"),
    ("null", .keyword "null"),
    ("undefined", .keyword "undefined"),
    ("arguments", .rule (seq ["(",
      commas (optional (.choice [sym "expression", sym "spread_element"])), ")"])),
    ("decorator", .rule (seq ["@", .choice [sym "identifier",
      as "member_expression" (sym "decorator_member_expression"),
      as "call_expression" (sym "decorator_call_expression")]])),
    ("decorator_member_expression", .rule (rank "member" (seq [
      field "object" (.choice [sym "identifier",
        as "member_expression" (sym "decorator_member_expression")]),
      ".", field "property" (as "property_identifier" (sym "identifier"))]))),
    ("decorator_call_expression", .rule (rank "call" (seq [
      field "function" (.choice [sym "identifier",
        as "member_expression" (sym "decorator_member_expression")]),
      field "arguments" (sym "arguments")]))),
    ("class_body", .rule (seq ["\x7b",
      many (.choice [
        seq [field "member" (sym "method_definition"), optional ";"],
        seq [field "member" (sym "field_definition"), sym "_semicolon"],
        field "member" (sym "class_static_block"),
        ";"]),
      "\x7d"])),
    ("field_definition", .rule (seq [decorators, optional "static",
      field "property" (sym "_property_name"), optional (sym "_initializer")])),
    ("formal_parameters", .rule (seq ["(",
      optional (seq [commas1 (sym "_formal_parameter"), optional ","]), ")"])),
    ("class_static_block", .rule (seq ["static", field "body" (sym "statement_block")])),
    ("pattern", .rule (.weighted (-1) (.choice [sym "_lhs_expression", sym "rest_pattern"]))),
    ("rest_pattern", .rule (leansRight (seq ["...", sym "_lhs_expression"]))),
    ("method_definition", .rule (seq [decorators,
      optional (.choice ["static", asPlain "static get" (sym "_static_get")]),
      optional "async", optional (.choice ["get", "set", "*"]),
      field "name" (sym "_property_name"), field "parameters" (sym "formal_parameters"),
      field "body" (sym "statement_block")])),
    ("_static_get", .token { read := readStaticGet }),
    ("pair", .rule (seq [field "key" (sym "_property_name"), ":",
      field "value" (sym "expression")])),
    ("pair_pattern", .rule (seq [field "key" (sym "_property_name"), ":",
      field "value" (.choice [sym "pattern", sym "assignment_pattern"])])),
    ("_property_name", .rule (.choice [anyName "property_identifier",
      sym "private_property_identifier", sym "string", sym "number",
      sym "computed_property_name"])),
    ("computed_property_name", .rule (seq ["[", sym "expression", "]"])),
    ("_reserved_identifier", .rule (.choice ["get", "set", "async", "static", "export", "let"])),
    ("_semicolon", .rule (.choice [sym "_automatic_semicolon", ";"]))]

end

/-- The rankings of operators and of rules that compete. -/
private def rankings : List (List Ranked) :=
  [[.rank "member", .rank "template_call", .rank "call", .rule "update_expression",
      .rank "unary_void", .rank "binary_exp", .rank "binary_times", .rank "binary_plus",
      .rank "binary_shift", .rank "binary_compare", .rank "binary_relation",
      .rank "binary_equality", .rank "bitwise_and", .rank "bitwise_xor", .rank "bitwise_or",
      .rank "logical_and", .rank "logical_or", .rank "ternary", .rule "sequence_expression",
      .rule "arrow_function"],
    [.rank "assign", .rule "primary_expression"],
    [.rank "member", .rank "template_call", .rank "new", .rank "call", .rule "expression"],
    [.rank "declare", .rank "literal"],
    [.rule "primary_expression", .rule "statement_block", .rank "object"],
    [.rule "meta_property", .rule "import"],
    [.rule "import_statement", .rule "import"],
    [.rule "export_statement", .rule "primary_expression"],
    [.rule "lexical_declaration", .rule "primary_expression"]]

/-- The grammar of scripts. -/
def grammar : RuleBook :=
  { definitions := scriptRules
    families := ["statement", "declaration", "expression", "primary_expression", "pattern"]
    inlined := ["_call_signature", "_formal_parameter", "_expressions", "_semicolon",
      "_identifier", "_reserved_identifier", "_jsx_attribute", "_jsx_element_name", "_jsx_child",
      "_jsx_element", "_jsx_attribute_name", "_jsx_attribute_value", "_jsx_identifier",
      "_lhs_expression"]
    extras := ["comment", "html_comment"]
    blank := isBlank
    word := some "identifier"
    external := scannerTokens
    scan := scan
    rankings := rankings
    unrecoverable := ["html_character_reference", "jsx_identifier",
      "unescaped_double_jsx_string_fragment", "unescaped_single_jsx_string_fragment",
      "unescaped_double_string_fragment", "unescaped_single_string_fragment", "regex_pattern",
      "regex_flags"] }

/-- The productions of scripts. -/
def table : Table := Table.ofGrammar grammar

end Deadwood.Script
