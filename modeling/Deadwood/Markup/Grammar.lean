/-
# The grammar of pages

Elements may close without being told to: the scanner remembers which are open
and decides where one ends. The text of scripts and styles is read raw.
-/

import Deadwood.Grammar.Parse
import Deadwood.Text.Scan

namespace Deadwood.Markup

open Deadwood.Grammar
open Deadwood.Text (isHexDigit)

/-! ## Elements -/

/-- Elements without content. -/
def emptyElements : List String :=
  ["AREA", "BASE", "BASEFONT", "BGSOUND", "BR", "COL", "COMMAND", "EMBED", "FRAME", "HR", "IMAGE",
    "IMG", "INPUT", "ISINDEX", "KEYGEN", "LINK", "MENUITEM", "META", "NEXTID", "PARAM", "SOURCE",
    "TRACK", "WBR"]

/-- The other known elements. -/
def fullElements : List String :=
  ["A", "ABBR", "ADDRESS", "ARTICLE", "ASIDE", "AUDIO", "B", "BDI", "BDO", "BLOCKQUOTE", "BODY",
    "BUTTON", "CANVAS", "CAPTION", "CITE", "CODE", "COLGROUP", "DATA", "DATALIST", "DD", "DEL",
    "DETAILS", "DFN", "DIALOG", "DIV", "DL", "DT", "EM", "FIELDSET", "FIGCAPTION", "FIGURE",
    "FOOTER", "FORM", "H1", "H2", "H3", "H4", "H5", "H6", "HEAD", "HEADER", "HGROUP", "HTML", "I",
    "IFRAME", "INS", "KBD", "LABEL", "LEGEND", "LI", "MAIN", "MAP", "MARK", "MATH", "MENU",
    "METER", "NAV", "NOSCRIPT", "OBJECT", "OL", "OPTGROUP", "OPTION", "OUTPUT", "P", "PICTURE",
    "PRE", "PROGRESS", "Q", "RB", "RP", "RT", "RTC", "RUBY", "S", "SAMP", "SCRIPT", "SECTION",
    "SELECT", "SLOT", "SMALL", "SPAN", "STRONG", "STYLE", "SUB", "SUMMARY", "SUP", "SVG", "TABLE",
    "TBODY", "TD", "TEMPLATE", "TEXTAREA", "TFOOT", "TH", "THEAD", "TIME", "TITLE", "TR", "U",
    "UL", "VAR", "VIDEO"]

/-- Elements that end a paragraph. -/
def paragraphEnders : List String :=
  ["ADDRESS", "ARTICLE", "ASIDE", "BLOCKQUOTE", "DETAILS", "DIV", "DL", "FIELDSET", "FIGCAPTION",
    "FIGURE", "FOOTER", "FORM", "H1", "H2", "H3", "H4", "H5", "H6", "HEADER", "HR", "MAIN", "NAV",
    "OL", "P", "PRE", "SECTION"]

/-- Whether an element is one of the known ones. -/
def isKnown (name : String) : Bool :=
  emptyElements.contains name || fullElements.contains name

/-- Whether two elements are of one sort. All unknown elements are. -/
def isSameSort (first second : String) : Bool :=
  first == second || (!isKnown first && !isKnown second)

/-- Whether an element may stand directly inside another. -/
def canContain (outer inner : String) : Bool :=
  match outer with
  | "LI" => inner != "LI"
  | "DT" | "DD" => inner != "DT" && inner != "DD"
  | "P" => !paragraphEnders.contains inner
  | "COLGROUP" => inner == "COL"
  | "RB" | "RT" | "RP" => inner != "RB" && inner != "RT" && inner != "RP"
  | "OPTGROUP" => inner != "OPTGROUP"
  | "TR" => inner != "TR"
  | "TD" | "TH" => inner != "TD" && inner != "TH" && inner != "TR"
  | _ => true

/-! ## The scanner -/

/-- The blanks of ASCII. -/
def isSpace (c : Char) : Bool :=
  c == ' ' || (0x09 ≤ c.toNat && c.toNat ≤ 0x0D)

/-- Characters of an element's name. -/
def isNameChar (c : Char) : Bool :=
  c.isAlphanum || c == '-' || c == ':'

/-- The name at a place, in capitals, and the place behind it. -/
def readName (source : Source) (place : Nat) : String × Nat :=
  let stop := source.skipWhile isNameChar place
  (String.ofList ((source.chars.extract place stop).toList.map Char.toUpper), stop)

/-- The scanner's tokens, in its order. -/
def scannerTokens : List String :=
  ["_start_tag_name", "_script_start_tag_name", "_style_start_tag_name", "_end_tag_name",
    "erroneous_end_tag_name", "/>", "_implicit_end_tag", "raw_text", "comment"]

/-- Reads the rest of a comment, behind its opening dashes. `dashes` counts those
right before the place. -/
def readCommentEnd (source : Source) : Nat → Nat → Nat → Option Nat
  | 0, _, _ => none
  | fuel + 1, dashes, place =>
    match source.peek place with
    | '\x00' => none
    | '-' => readCommentEnd source fuel (dashes + 1) (place + 1)
    | '>' => if dashes ≥ 2 then some (place + 1) else readCommentEnd source fuel 0 (place + 1)
    | _ => readCommentEnd source fuel 0 (place + 1)

/-- Reads raw text up to the delimiter, matched in any case. The first number
counts the characters of the delimiter that have been met; the text ends before
them. -/
def readRaw (source : Source) (delimiter : List Char) : Nat → Nat → Nat → Nat → Nat
  | 0, _, _, stop => stop
  | fuel + 1, met, place, stop =>
    let c := source.peek place
    if c == '\x00' then stop
    else if delimiter[met]? == some c.toUpper then
      if met + 1 == delimiter.length then stop
      else readRaw source delimiter fuel (met + 1) (place + 1) stop
    else readRaw source delimiter fuel 0 (place + 1) (place + 1)

/-- Whether the innermost open element ends here without being told to. `place`
is behind the opening bracket, or at the end of the text. -/
def endsImplicitly (elements : List String) (source : Source) (place : Nat) : Bool :=
  let closing := source.peek place == '/'
  let innermost := elements.head?
  if !closing && innermost.any emptyElements.contains then true
  else
    let (name, stop) := readName source (if closing then place + 1 else place)
    let atEnd := stop ≥ source.size
    if name.isEmpty && !atEnd then false
    else if closing then
      innermost != some name && elements.any (isSameSort name)
    else
      match innermost with
      | some outer =>
        !canContain outer name || ((outer == "HTML" || outer == "HEAD" || outer == "BODY") && atEnd)
      | none => false

/-- Reads the tokens that depend on the elements that are open, which are its
memory, innermost first. -/
def scan : Scanner := fun valid elements source place =>
  if valid 7 && !valid 0 && !valid 3 then
    match elements with
    | [] => none
    | element :: _ =>
      let delimiter := if element == "SCRIPT" then "</SCRIPT".toList else "</STYLE".toList
      some ⟨7, place, readRaw source delimiter (source.size - place + 1) 0 place place, elements⟩
  else
    let here := source.skipWhile isSpace place
    let implicit (behind : Nat) : Option Finding :=
      if endsImplicitly elements source behind then some ⟨6, here, here, elements.tail⟩ else none
    match source.peek here with
    | '<' =>
      if source.peek (here + 1) == '!' then
        if source.peek (here + 2) == '-' && source.peek (here + 3) == '-' then
          (readCommentEnd source (source.size - here) 0 (here + 4)).map fun stop =>
            ⟨8, here, stop, elements⟩
        else none
      else if valid 6 then implicit (here + 1)
      else none
    | '\x00' => if valid 6 then implicit here else none
    | '/' =>
      if valid 5 && source.peek (here + 1) == '>' then
        match elements with
        | [] => some ⟨0, here, here + 2, elements⟩
        | _ :: rest => some ⟨5, here, here + 2, rest⟩
      else none
    | _ =>
      if (valid 0 || valid 3) && !valid 7 then
        let (name, stop) := readName source here
        if name.isEmpty then none
        else if valid 0 then
          let token := if name == "SCRIPT" then 1 else if name == "STYLE" then 2 else 0
          some ⟨token, here, stop, name :: elements⟩
        else if elements.head? == some name then some ⟨3, here, stop, elements.tail⟩
        else some ⟨4, here, stop, elements⟩
      else none

/-! ## Rules -/

/-- Reads one or more characters of a class. -/
def readSome (test : Char → Bool) (source : Source) (place : Nat) : Option Nat :=
  some (source.skipWhile test place)

/-- Reads the word "doctype" in any case. -/
def readDoctype (source : Source) (place : Nat) : Option Nat :=
  let word := (source.chars.extract place (place + 7)).toList.map Char.toLower
  if word == "doctype".toList then some (place + 7) else none

/-- Reads a character reference; the semicolon may be left out. -/
def readEntity (source : Source) (place : Nat) : Option Nat :=
  let closed (start limit : Nat) (test : Char → Bool) : Option Nat :=
    let stop := min (source.skipWhile test start) (start + limit)
    if stop == start then none
    else some (if source.peek? stop == some ';' then stop + 1 else stop)
  if source.peek? place != some '&' then none
  else if source.peek? (place + 1) == some '#' then
    let mark := source.peek (place + 2)
    if mark == 'x' || mark == 'X' then closed (place + 3) 6 isHexDigit
    else closed (place + 2) 5 Char.isDigit
  else closed (place + 1) 30 Char.isAlpha

/-- Reads text: it begins and ends with a character that is no blank. -/
def readText (source : Source) (place : Nat) : Option Nat :=
  let isText (c : Char) : Bool := c != '<' && c != '>' && c != '&'
  let stop := source.skipWhile isText place
  if (source.peek? place).any fun c => isText c && !isSpace c then
    ((List.range (stop - place)).map (stop - ·)).find? fun place =>
      !isSpace (source.peek (place - 1))
  else none

section

open Rule

/-- A tag that opens an element. -/
private def opening (name finish : String) : Rule :=
  seq ["<", as "tag_name" (sym name), many (sym "attribute"), .literal finish]

/-- An element with raw text. -/
private def rawElement (start : String) : Rule :=
  seq [as "start_tag" (sym start), optional (sym "raw_text"), sym "end_tag"]

/-- The value of an attribute between quotes. -/
private def quotedValue (quote inner : String) : Rule :=
  seq [.literal quote, optional (as "attribute_value" (sym inner)), .literal quote]

/-- The rules of pages. -/
private def pageRules : List (String × Definition) :=
  [("document", .rule (many (sym "_node"))),
    ("doctype", .rule (seq ["<!", asPlain "doctype" (sym "_doctype"), sym "_doctype_text", ">"])),
    ("_doctype_text", .token { read := readSome (· != '>') }),
    ("_doctype", .token { read := readDoctype }),
    ("_node", .rule (.choice [sym "doctype", sym "entity", sym "text", sym "element",
      sym "script_element", sym "style_element", sym "erroneous_end_tag"])),
    ("element", .rule (.choice [
      seq [sym "start_tag", many (sym "_node"), .choice [sym "end_tag", sym "_implicit_end_tag"]],
      sym "self_closing_tag"])),
    ("script_element", .rule (rawElement "script_start_tag")),
    ("style_element", .rule (rawElement "style_start_tag")),
    ("start_tag", .rule (opening "_start_tag_name" ">")),
    ("script_start_tag", .rule (opening "_script_start_tag_name" ">")),
    ("style_start_tag", .rule (opening "_style_start_tag_name" ">")),
    ("self_closing_tag", .rule (opening "_start_tag_name" "/>")),
    ("end_tag", .rule (seq ["</", as "tag_name" (sym "_end_tag_name"), ">"])),
    ("erroneous_end_tag", .rule (seq ["</", sym "erroneous_end_tag_name", ">"])),
    ("attribute", .rule (seq [sym "attribute_name",
      optional (seq ["=", .choice [sym "attribute_value", sym "quoted_attribute_value"]])])),
    ("attribute_name", .token
      { read := readSome fun c => !(isSpace c || "<>\"'/=".toList.contains c) }),
    ("attribute_value", .token
      { read := readSome fun c => !(isSpace c || "<>\"'=".toList.contains c) }),
    ("entity", .token { read := readEntity }),
    ("quoted_attribute_value", .rule (.choice [quotedValue "'" "_single_quoted",
      quotedValue "\"" "_double_quoted"])),
    ("_single_quoted", .token { read := readSome (· != '\'') }),
    ("_double_quoted", .token { read := readSome (· != '"') }),
    ("text", .token { read := readText })]

end

/-- The grammar of pages. -/
def grammar : RuleBook :=
  { definitions := pageRules
    extras := ["comment"]
    blank := isSpace
    external := scannerTokens
    scan := scan
    unrecoverable := ["_doctype_text", "attribute_name", "attribute_value", "_single_quoted",
      "_double_quoted", "text"] }

/-- The productions of pages. -/
def table : Table := Table.ofGrammar grammar

/-- Reads a page. -/
def parse (source : String) : Node :=
  table.parse source

end Deadwood.Markup
