/-
# Advice

What to do about a finding: what replaces an obsolete element, and how to mend
what a lint rule complains about. The table of elements is also the list of
those that count as deprecated.
-/

namespace Deadwood.Advice

/-- The obsolete elements, each with what replaces it. -/
def deprecatedTags : List (String × String) :=
  [("acronym",
      "Use <abbr> instead."),
    ("applet",
      "Use <object> or <embed>."),
    ("basefont",
      "Use CSS for typography."),
    ("big",
      "Use CSS with a larger font-size."),
    ("blink",
      "Use CSS animations (not recommended for accessibility)."),
    ("center",
      "Use CSS with text-align: center."),
    ("font",
      "Use CSS to set font family and size."),
    ("marquee",
      "Use CSS animations or a <div> with overflow + scroll."),
    ("s",
      "Use <del> or CSS text-decoration: line-through."),
    ("strike",
      "Use <del> or CSS text-decoration: line-through."),
    ("tt",
      "Use CSS with font-family: monospace."),
    ("u",
      "Use CSS text-decoration: underline."),
    ("frame",
      "Use <iframe> (frame support was removed)."),
    ("frameset",
      "Use <iframe> with a modern layout."),
    ("noframes",
      "Use <iframe> or redesign the layout."),
    ("isindex",
      "Use a <form> with an <input>."),
    ("keygen",
      "Use a <form> + the Web Crypto API."),
    ("listing",
      "Use <pre>."),
    ("xmp",
      "Use <pre> or <code>."),
    ("plaintext",
      "Use <pre> or <code>."),
    ("bgsound",
      "Use <audio autoplay> with controls where appropriate."),
    ("dir",
      "Use <ul>.")]

/-- What to do about the findings of each lint rule. -/
def rules : List (String × String) :=
  [("no-undef",
      "Define the variable before using it, import it correctly or fix the name."),
    ("no-unused-vars",
      "Remove the variable if unused, rename it, or comment the usage if intentional."),
    ("no-var",
      "Replace 'var' with 'let' or 'const' as appropriate (safer scoping)."),
    ("prefer-const",
      "Use `const` for variables that are never reassigned."),
    ("eqeqeq",
      "Use '===' or '!==' instead of '==' or '!=' to avoid implicit coercion."),
    ("no-with",
      "Remove the use of 'with'; it is not allowed in strict mode."),
    ("no-new-object",
      "Use the literal notation `\x7b\x7d` instead of `new Object()`."),
    ("prefer-arrow-callback",
      "Use arrow functions in callbacks that do not need `this`: `() => \x7b\x7d`."),
    ("func-names",
      "Name anonymous functions to ease debugging."),
    ("no-dupe-keys",
      "Remove or rename duplicate keys in object literals."),
    ("no-dupe-args",
      "Do not declare the same argument twice in one function; rename or remove it."),
    ("no-redeclare",
      "Do not redeclare a variable in the same scope; use let/const or regroup the logic."),
    ("duplicate-function",
      "Rename or remove the duplicate function; avoid declaring the same function twice in one file."),
    ("parse-error",
      "Syntax error: check for missing parentheses, braces, commas or semicolons. Open the file in an editor to see the highlight."),
    ("lint-error",
      "General lint error: read the message and run the linter on the file for details."),
    ("no-extra-semi",
      "Remove unnecessary extra semicolons."),
    ("no-unexpected-multiline",
      "Check line breaks that change behaviour (e.g. `return` on a line apart from its value)."),
    ("no-empty",
      "Avoid empty blocks; if intentional, document it with an `// intentional` comment."),
    ("no-duplicate-case",
      "Remove duplicate cases inside a switch."),
    ("no-unreachable",
      "Remove code after `return`, `throw`, `continue` or `break` that never runs."),
    ("no-constant-condition",
      "Avoid conditions that are always true/false; if intentional, leave a comment."),
    ("no-extra-parens",
      "Remove extra parentheses."),
    ("missing-parenthesis",
      "Close the missing parentheses `()`."),
    ("missing-bracket",
      "Close the missing brackets `[]`."),
    ("missing-brace",
      "Close the missing braces `\x7b\x7d`."),
    ("curly",
      "Always use braces `\x7b\x7d` in `if`/`else`/`for` blocks to avoid ambiguity."),
    ("brace-style",
      "Keep a consistent brace style for readability."),
    ("quotes",
      "Use quotes consistently following the project convention (single or double).")]

/-- What to do about a finding of a rule that is not tabled. -/
def otherRule : String :=
  "Check the linter documentation for this rule, or run the linter's autofix if it applies."

/-- What to do about a message that holds a phrase; the first that applies. -/
def messages : List (String × String) :=
  [("unexpected token",
      "Check misplaced commas, parentheses or braces. For example remove an extra comma in an object/array or close a missing brace/parenthesis."),
    ("has already been declared",
      "There is a duplicate declaration. Remove the repeated declaration or rename the variable/function to avoid the conflict."),
    ("unexpected string",
      "Possibly unclosed quotes or a missing operator between strings; check the strings (`'...'` or \"...\") and operators."),
    ("unexpected number",
      "Probably a missing operator between values (e.g. `2 3`), or a number placed where it does not belong."),
    ("unexpected identifier",
      "Possibly a reserved word used as a variable, or a missing separator/comma; check the reported line."),
    ("parsing error: eof",
      "The file ended unexpectedly; probably a closing brace `\x7d` or parenthesis `)` is missing at the end.")]

/-- What to do about any other message. -/
def otherMessage : String :=
  "Parsing error: check the syntax (parentheses, commas, braces). Open the file in an editor to see the highlight."

/-- What replaces an element, if it is obsolete. Cases do not matter. -/
def forTag? (tag : String) : Option String :=
  List.lookup (String.ofList (tag.toList.map Char.toLower)) deprecatedTags

/-- Whether an element is deprecated. -/
def isDeprecated (tag : String) : Bool :=
  (forTag? tag).isSome

/-- The lower case of a character as far as Latin letters go. Besides the
capitals of ASCII, two characters have a lower case with such a letter: the
Kelvin sign and the capital I with a dot. -/
def lowerLatin (c : Char) : List Char :=
  if c.toNat = 0x212A then ['k']
  else if c.toNat = 0x130 then ['i', Char.ofNat 0x307]
  else [c.toLower]

/-- Whether a list of characters occurs inside another. -/
def occursIn (phrase : List Char) : List Char → Bool
  | [] => phrase.isEmpty
  | c :: rest => phrase.isPrefixOf (c :: rest) || occursIn phrase rest

/-- What to do about a lint finding: by its rule, else by its message, whatever
the message's case. Without either it is taken for a syntax error. -/
def forFinding (rule : Option String) (message : String) : String :=
  match rule.bind (List.lookup · rules) with
  | some advice => advice
  | none =>
    if message.isEmpty then
      match rule with
      | none => (List.lookup "parse-error" rules).getD otherMessage
      | some _ => otherRule
    else
      let lowered := message.toList.flatMap lowerLatin
      ((messages.find? fun entry => occursIn entry.1.toList lowered).map (·.2)).getD otherMessage

end Deadwood.Advice
