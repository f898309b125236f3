/-
# The grammar of stylesheets

Rule sets may be nested and hold declarations; at-rules hold queries and blocks.
Whether a colon belongs to a property or to a selector is settled by looking
ahead for the brace or the semicolon that follows.
-/

import Deadwood.Grammar.Parse
import Deadwood.Text.Scan

namespace Deadwood.Stylesheet

open Deadwood.Grammar
open Deadwood.Text (isHexDigit)

/-! ## Characters and tokens -/

/-- The blanks between tokens. -/
def isSpace (c : Char) : Bool :=
  c == ' ' || (0x09 ≤ c.toNat && c.toNat ≤ 0x0D)

/-- The letters of ASCII. -/
def isLatinLetter (c : Char) : Bool :=
  ('a' ≤ c && c ≤ 'z') || ('A' ≤ c && c ≤ 'Z')

/-- Characters that begin a name: letters, the underscore, and the upper half of
Latin-1. -/
def isNameStart (c : Char) : Bool :=
  isLatinLetter c || c == '_' || (0xA0 ≤ c.toNat && c.toNat ≤ 0xFF)

/-- Characters of a name after its first. -/
def isNameChar (c : Char) : Bool :=
  isNameStart c || c.isDigit || c == '-'

/-- Reads a name. It begins with two dashes, or with a name character that one
dash may precede. -/
def readName (source : Source) (place : Nat) : Option Nat :=
  let first := source.peek place
  let second := source.peek (place + 1)
  if first == '-' && second == '-' then some (source.skipWhile isNameChar (place + 2))
  else if first == '-' && isNameStart second then some (source.skipWhile isNameChar (place + 2))
  else if isNameStart first then some (source.skipWhile isNameChar (place + 1))
  else none

/-- Reads an escape: a character by number, with one blank behind it, or any
other character as itself. -/
def readEscape (source : Source) (place : Nat) : Option Nat :=
  if source.peek? place != some '\\' then none
  else
    match source.peek? (place + 1) with
    | none => none
    | some c =>
      if isHexDigit c then
        let stop := min (source.skipWhile isHexDigit (place + 1)) (place + 7)
        some (if (source.peek? stop).any isSpace then stop + 1 else stop)
      else if c == '\n' then none
      else some (place + 2)

/-- Characters that end a plain value. -/
def isDelimiter (c : Char) : Bool :=
  isSpace c || ",;!\x7b\x7d()[]".toList.contains c

/-- Whether a slash at a place is part of a plain value: not before a star,
which would begin a comment. -/
def isPlainSlash (source : Source) (place : Nat) : Bool :=
  source.peek? place == some '/' &&
    (source.peek? (place + 1)).any fun c => c != '*' && !isDelimiter c

/-- Passes the dashes, underscores and slashes before a plain value's letter.
A slash takes the character behind it along. -/
def readPlainStart (source : Source) : Nat → Nat → Option Nat
  | 0, _ => none
  | fuel + 1, place =>
    match source.peek? place with
    | none => none
    | some c =>
      if isLatinLetter c then some (place + 1)
      else if c == '-' || c == '_' then readPlainStart source fuel (place + 1)
      else if isPlainSlash source place then readPlainStart source fuel (place + 2)
      else none

/-- Passes the rest of a plain value. -/
def skipPlain (source : Source) : Nat → Nat → Nat
  | 0, place => place
  | fuel + 1, place =>
    match source.peek? place with
    | none => place
    | some c =>
      if isPlainSlash source place then skipPlain source fuel (place + 2)
      else if c == '/' || isDelimiter c then place
      else skipPlain source fuel (place + 1)

/-- Reads a plain value. -/
def readPlain (source : Source) (place : Nat) : Option Nat :=
  (readPlainStart source (source.size - place) place).map
    (skipPlain source (source.size - place))

/-- Passes the sign of a number. -/
def skipSign (source : Source) (place : Nat) : Nat :=
  if source.peek place == '+' || source.peek place == '-' then place + 1 else place

/-- Reads digits. -/
def readDigits (source : Source) (place : Nat) : Option Nat :=
  let stop := source.skipWhile Char.isDigit place
  if stop > place then some stop else none

/-- Reads a whole number. -/
def readInteger (source : Source) (place : Nat) : Option Nat :=
  readDigits source (skipSign source place)

/-- Reads an exponent. -/
def readExponent (source : Source) (place : Nat) : Option Nat :=
  if source.peek place == 'e' || source.peek place == 'E' then
    readDigits source (if source.peek (place + 1) == '-' then place + 2 else place + 1)
  else none

/-- Reads a number with a fraction, an exponent, or both. -/
def readFloat (source : Source) (place : Nat) : Option Nat :=
  let whole := source.skipWhile Char.isDigit (skipSign source place)
  let fraction := if source.peek whole == '.' then readDigits source (whole + 1) else none
  match fraction with
  | some stop => some ((readExponent source stop).getD stop)
  | none => readExponent source whole

/-- Reads to the end of a block comment, from inside it. -/
def readBlockEnd (source : Source) : Nat → Nat → Option Nat
  | 0, _ => none
  | fuel + 1, place =>
    match source.peek? place with
    | none => none
    | some c =>
      if c == '*' && source.peek? (place + 1) == some '/' then some (place + 2)
      else readBlockEnd source fuel (place + 1)

/-- Reads a block comment. -/
def readComment (source : Source) (place : Nat) : Option Nat :=
  (source.spelling? ['/', '*'] place).bind (readBlockEnd source (source.size - place))

/-- Reads a line comment. -/
def readLineComment (source : Source) (place : Nat) : Option Nat :=
  (source.spelling? ['/', '/'] place).map (source.skipWhile (· != '\n'))

/-- Reads a name behind an at-sign. -/
def readAtKeyword (source : Source) (place : Nat) : Option Nat :=
  if source.peek? place != some '@' then none
  else
    let stop := source.skipWhile (fun c => isLatinLetter c || c == '-' || c == '_') (place + 1)
    if stop > place + 1 then some stop else none

/-- Reads an at-keyword that ends in "keyframes", with something before it. -/
def readKeyframes (source : Source) (place : Nat) : Option Nat :=
  if source.peek? place != some '@' then none
  else
    let stop := source.skipWhile (fun c => ('a' ≤ c && c ≤ 'z') || c == '-') (place + 1)
    ((List.range (stop - place)).map (stop - ·)).find? fun last =>
      last ≥ place + 11 && source.slice (last - 9) last == "keyframes"

/-- Passes the inside of a string up to its quote or the end of its line. A
backslash takes the next character along. -/
def skipString (quote : Char) (source : Source) : Nat → Nat → Nat
  | 0, place => place
  | fuel + 1, place =>
    match source.peek? place with
    | none => place
    | some '\\' =>
      if (source.peek? (place + 1)).isSome then skipString quote source fuel (place + 2) else place
    | some c => if c == quote || c == '\n' then place else skipString quote source fuel (place + 1)

/-- Reads the inside of a string, or of one line of it. -/
def readString (quote : Char) (source : Source) (place : Nat) : Option Nat :=
  some (skipString quote source (source.size - place) place)

/-- Reads a formula for positions, such as `2n + 1`. -/
def readPositions (source : Source) (place : Nat) : Option Nat :=
  let letter := source.skipWhile Char.isDigit (skipSign source place)
  if source.peek letter == 'n' || source.peek letter == 'N' then
    let sign := source.skipWhile isSpace (letter + 1)
    if source.peek sign == '+' || source.peek sign == '-' then
      (readDigits source (source.skipWhile isSpace (sign + 1))).orElse fun _ => some (letter + 1)
    else some (letter + 1)
  else none

/-! ## The scanner -/

/-- The scanner's tokens, in its order. -/
def scannerTokens : List String :=
  ["_descendant_operator", "_pseudo_class_selector_colon", "__error_recovery"]

/-- Whether a brace comes before any semicolon, closing brace, or the end. -/
def opensBlock (source : Source) (place : Nat) : Bool :=
  let stop := source.skipWhile (fun c => !(c == ';' || c == '\x7d' || c == '\x7b')) place
  source.peek? stop == some '\x7b'

/-- Whether a blank before a place joins two selectors. -/
def joinsSelectors (source : Source) (place : Nat) : Bool :=
  let c := source.peek place
  if c == '#' || c == '.' || c == '[' || c == '-' || c == '*' || c.isAlphanum then true
  else if c == ':' then !isSpace (source.peek (place + 1)) && opensBlock source (place + 1)
  else false

/-- Reads the blank that joins two selectors and the colon of a selector. -/
def scan : Scanner := fun valid memory source place =>
  if valid 2 then none
  else
    let here := source.skipWhile isSpace place
    if here > place && valid 0 && joinsSelectors source here then
      some ⟨0, here, here, memory⟩
    else if valid 1 && source.peek? here == some ':' && source.peek? (here + 1) != some ':' then
      let next := source.peek? (here + 1)
      if next == some ';' || next == some '\x7d' || next.isNone then none
      else if opensBlock source (here + 2) then some ⟨1, here, here + 1, memory⟩
      else none
    else none

/-! ## Rules -/

section

open Rule

/-- A rule with a rank. -/
private def level (n : Int) (body : Rule) : Rule := .ranked (.level n) none body

/-- A rule that leans to the left. -/
private def levelLeft (body : Rule) : Rule := .ranked (.level 0) (some .left) body

/-- What may stand at the top of a stylesheet or inside a block. -/
private def statements : List Rule :=
  [sym "declaration", sym "rule_set", sym "import_statement", sym "media_statement",
    sym "charset_statement", sym "namespace_statement", sym "keyframes_statement",
    sym "supports_statement"]

/-- A property with its values. -/
private def property : List Rule :=
  [as "property_name" (sym "identifier"), ":", sym "_value",
    many (seq [optional ",", sym "_value"]), optional (sym "important")]

/-- Pseudo-classes of selectors. -/
private def selectorFunctions : List Rule :=
  ["has", "not", "is", "where", "host", "host-context"]

/-- Pseudo-classes of positions. -/
private def positionFunctions : List Rule :=
  ["nth-child", "nth-last-child"]

/-- Arguments in parentheses that follow a name directly. -/
private def argumentList (separator : Rule) (argument : Rule) : Rule :=
  seq [asPlain "(" (sym "_open_arguments"), separated separator argument, ")"]

/-- A string between quotes. -/
private def quotedContents (quote content : String) : Rule :=
  seq [.literal quote, many (.choice [as "string_content" (sym content), sym "escape_sequence"]),
    .literal quote]

/-- The rules of stylesheets. -/
private def sheetRules : List (String × Definition) :=
  [("stylesheet", .rule (many (sym "_top_level_item"))),
    ("_top_level_item", .rule (.choice (statements ++ [sym "at_rule"]))),
    ("import_statement", .rule (seq ["@import", sym "_value", separated "," (sym "_query"), ";"])),
    ("media_statement", .rule (seq ["@media", separated1 "," (sym "_query"), sym "block"])),
    ("charset_statement", .rule (seq ["@charset", sym "_value", ";"])),
    ("namespace_statement", .rule (seq ["@namespace",
      optional (as "namespace_name" (sym "identifier")),
      .choice [sym "string_value", sym "call_expression"], ";"])),
    ("keyframes_statement", .rule (seq [
      .choice ["@keyframes", as "at_keyword" (sym "_keyframes_keyword")],
      as "keyframes_name" (sym "identifier"), sym "keyframe_block_list"])),
    ("_keyframes_keyword", .token { read := readKeyframes }),
    ("keyframe_block_list", .rule (seq ["\x7b", many (sym "keyframe_block"), "\x7d"])),
    ("keyframe_block", .rule (seq [.choice [sym "from", sym "to", sym "integer_value"],
      sym "block"])),
    ("from", .keyword "from"),
    ("to", .keyword "to"),
    ("supports_statement", .rule (seq ["@supports", sym "_query", sym "block"])),
    ("postcss_statement", .rule (level (-1) (seq [sym "at_keyword", many (sym "_value"), ";"]))),
    ("at_rule", .rule (seq [sym "at_keyword", separated "," (sym "_query"),
      .choice [";", sym "block"]])),
    ("rule_set", .rule (seq [sym "selectors", sym "block"])),
    ("selectors", .rule (separated1 "," (sym "_selector"))),
    ("block", .rule (seq ["\x7b", many (sym "_block_item"),
      optional (as "declaration" (sym "last_declaration")), "\x7d"])),
    ("_block_item", .rule (.choice (statements ++ [sym "postcss_statement", sym "at_rule"]))),
    ("_selector", .rule (.choice [
      sym "universal_selector", as "tag_name" (sym "identifier"), sym "class_selector",
      sym "nesting_selector", sym "pseudo_class_selector", sym "pseudo_element_selector",
      sym "id_selector", sym "attribute_selector", sym "string_value", sym "child_selector",
      sym "descendant_selector", sym "sibling_selector", sym "adjacent_sibling_selector",
      sym "namespace_selector"])),
    ("nesting_selector", .keyword "&"),
    ("universal_selector", .rule "*"),
    ("class_selector", .rule (level 1 (seq [optional (sym "_selector"), ".", sym "class_name"]))),
    ("class_name", .rule (.repeated (.choice [sym "identifier", sym "escape_sequence"]))),
    ("pseudo_class_selector", .rule (seq [optional (sym "_selector"),
      asPlain ":" (sym "_pseudo_class_selector_colon"),
      .choice [
        seq [as "class_name" (.choice selectorFunctions),
          as "arguments" (sym "pseudo_class_with_selector_arguments")],
        seq [as "class_name" (.choice positionFunctions),
          as "arguments" (sym "pseudo_class_nth_child_arguments")],
        seq [as "class_name" (sym "identifier"), as "arguments" (sym "pseudo_class_arguments")],
        as "class_name" (sym "identifier")]])),
    ("pseudo_element_selector", .rule (seq [optional (sym "_selector"), "::",
      as "tag_name" (sym "identifier"),
      optional (as "arguments" (sym "pseudo_element_arguments"))])),
    ("id_selector", .rule (seq [optional (sym "_selector"), "#",
      as "id_name" (sym "identifier")])),
    ("attribute_selector", .rule (seq [optional (sym "_selector"), asPlain "[" (sym "_open_attribute"),
      as "attribute_name" (.choice [sym "identifier", sym "namespace_selector"]),
      optional (seq [.choice ["=", "~=", "^=", "|=", "*=", "$="], sym "_value"]), "]"])),
    ("_open_attribute", .token
      { read := fun source place => source.spelling? ['['] place, rank := 1, spelling := some "[" }),
    ("child_selector", .rule (levelLeft (seq [optional (sym "_selector"), ">", sym "_selector"]))),
    ("descendant_selector", .rule (levelLeft (seq [sym "_selector", sym "_descendant_operator",
      sym "_selector"]))),
    ("sibling_selector", .rule (levelLeft (seq [optional (sym "_selector"), "~", sym "_selector"]))),
    ("adjacent_sibling_selector", .rule (levelLeft (seq [optional (sym "_selector"), "+",
      sym "_selector"]))),
    ("namespace_selector", .rule (levelLeft (seq [sym "_selector", "|", sym "_selector"]))),
    ("pseudo_class_with_selector_arguments", .rule (argumentList "," (sym "_selector"))),
    ("pseudo_class_nth_child_arguments", .rule (level (-1) (seq [
      asPlain "(" (sym "_open_arguments"),
      .choice [as "plain_value" "even", as "plain_value" "odd", sym "integer_value",
        as "plain_value" (sym "_positions")],
      optional (seq ["of", sym "_selector"]), ")"]))),
    ("_positions", .token { read := readPositions }),
    ("pseudo_class_arguments", .rule (argumentList ","
      (.choice [sym "_selector", .repeated (sym "_value")]))),
    ("_open_arguments", .token
      { read := fun source place => source.spelling? ['('] place
        immediate := true, spelling := some "(" }),
    ("pseudo_element_arguments", .rule (argumentList ","
      (.choice [sym "_selector", .repeated (sym "_value")]))),
    ("declaration", .rule (seq (property ++ [.literal ";"]))),
    ("last_declaration", .rule (level 1 (seq property))),
    ("important", .keyword "!important"),
    ("_query", .rule (.choice [
      as "keyword_query" (sym "identifier"), sym "feature_query", sym "binary_query",
      sym "unary_query", sym "selector_query", sym "parenthesized_query"])),
    ("feature_query", .rule (seq ["(", as "feature_name" (sym "identifier"), ":",
      .repeated (sym "_value"), ")"])),
    ("parenthesized_query", .rule (seq ["(", sym "_query", ")"])),
    ("binary_query", .rule (levelLeft (seq [sym "_query", .choice ["and", "or"], sym "_query"]))),
    ("unary_query", .rule (level 1 (seq [.choice ["not", "only"], sym "_query"]))),
    ("selector_query", .rule (seq ["selector", "(", sym "_selector", ")"])),
    ("_value", .rule (level (-1) (.choice [
      as "plain_value" (sym "identifier"), sym "plain_value", sym "color_value",
      sym "integer_value", sym "float_value", sym "string_value", sym "grid_value",
      sym "binary_expression", sym "parenthesized_value", sym "call_expression"]))),
    ("parenthesized_value", .rule (seq ["(", sym "_value", ")"])),
    ("color_value", .rule (seq ["#", sym "_color_digits"])),
    ("_color_digits", .token
      { read := fun source place =>
          let stop := min (source.skipWhile isHexDigit place) (place + 8)
          if stop ≥ place + 3 then some stop else none
        immediate := true }),
    ("string_value", .rule (.choice [quotedContents "'" "_single_content", quotedContents "\"" "_double_content"])),
    ("_single_content", .token { read := readString '\'' }),
    ("_double_content", .token { read := readString '"' }),
    ("integer_value", .rule (seq [sym "_integer", optional (sym "unit")])),
    ("_integer", .token { read := readInteger }),
    ("float_value", .rule (seq [sym "_float", optional (sym "unit")])),
    ("_float", .token { read := readFloat }),
    ("unit", .token
      { read := fun source place => some (source.skipWhile (fun c => isLatinLetter c || c == '%') place)
        immediate := true }),
    ("grid_value", .rule (seq ["[", separated1 "," (sym "_value"), "]"])),
    ("call_expression", .rule (seq [as "function_name" (sym "identifier"), sym "arguments"])),
    ("binary_expression", .rule (levelLeft (seq [sym "_value", .choice ["+", "-", "*", "/"],
      sym "_value"]))),
    ("arguments", .rule (argumentList (.choice [",", ";"]) (.repeated (sym "_value")))),
    ("identifier", .token { read := readName }),
    ("at_keyword", .token { read := readAtKeyword }),
    ("js_comment", .token { read := readLineComment, rank := -1 }),
    ("comment", .token { read := readComment }),
    ("escape_sequence", .token { read := readEscape }),
    ("plain_value", .token { read := readPlain })]

end

/-- The grammar of stylesheets. -/
def grammar : RuleBook :=
  { definitions := sheetRules
    inlined := ["_top_level_item", "_block_item"]
    extras := ["comment", "js_comment"]
    blank := isSpace
    external := scannerTokens
    scan := scan
    unrecoverable := ["identifier", "plain_value", "unit", "_positions", "_single_content",
      "_double_content"] }

/-- The productions of stylesheets. -/
def table : Table := Table.ofGrammar grammar

/-- Reads a stylesheet. -/
def parse (source : String) : Node :=
  table.parse source

end Deadwood.Stylesheet
