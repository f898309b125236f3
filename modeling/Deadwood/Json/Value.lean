/-
# JSON values and how they are written

Objects keep their members in order. A value is written on one line, or on many
with two blanks for each level.
-/

namespace Deadwood

/-- A JSON value. -/
inductive Json
  | null
  | bool (value : Bool)
  /-- A number without fraction and exponent that fits in 64 bits. -/
  | integer (value : Int)
  /-- Any other number, as it is spelled. -/
  | real (spelling : List Char)
  | string (text : String)
  /-- A string with half of a surrogate pair, which stands for no text. -/
  | unpaired
  | array (elements : List Json)
  | object (members : List (String × Json))
deriving Inhabited, Repr

namespace Json

instance : Coe String Json := ⟨.string⟩

instance : Coe Nat Json := ⟨fun n => .integer n⟩

instance : Coe Bool Json := ⟨.bool⟩

/-- An array of strings. -/
def strings (texts : List String) : Json :=
  .array (texts.map .string)

/-- A value that may be missing. -/
def ofOption {α : Type} (toJson : α → Json) : Option α → Json
  | some value => toJson value
  | none => .null

/-! ## Writing -/

/-- A hexadecimal digit, small. -/
def hexDigit (n : Nat) : Char :=
  if n < 10 then Char.ofNat ('0'.toNat + n) else Char.ofNat ('a'.toNat + (n - 10))

/-- A character inside a string. Quotes, backslashes and control characters are
escaped, all else stands for itself. -/
def escape (c : Char) : List Char :=
  if c = '"' then ['\\', '"']
  else if c = '\\' then ['\\', '\\']
  else if c.toNat = 0x08 then ['\\', 'b']
  else if c.toNat = 0x0C then ['\\', 'f']
  else if c = '\n' then ['\\', 'n']
  else if c = '\r' then ['\\', 'r']
  else if c = '\t' then ['\\', 't']
  else if c.toNat < 0x20 then
    ['\\', 'u', '0', '0', hexDigit (c.toNat / 16), hexDigit (c.toNat % 16)]
  else [c]

/-- A text between quotes. -/
def quoted (text : List Char) : List Char :=
  '"' :: text.flatMap escape ++ ['"']

/-- A number. -/
def digits : Int → List Char
  | .ofNat n => Nat.toDigits 10 n
  | .negSucc n => '-' :: Nat.toDigits 10 (n + 1)

/-- A value that is no array or object. -/
def scalar : Json → List Char
  | .null => "null".toList
  | .bool true => "true".toList
  | .bool false => "false".toList
  | .integer value => digits value
  | .real spelling => spelling
  | .string text => quoted text.toList
  | .unpaired => "\"\\ud800\"".toList
  | .array _ => []
  | .object _ => []

mutual

/-- A value on one line, without blanks. -/
def compact : Json → List Char
  | .array elements => '[' :: compactElements true elements
  | .object members => '\x7b' :: compactMembers true members
  | other => scalar other

/-- The elements of an array and its end, behind a comma unless they are the
first. -/
def compactElements (first : Bool) : List Json → List Char
  | [] => [']']
  | element :: others =>
    (if first then [] else [',']) ++ compact element ++ compactElements false others

/-- The members of an object and its end. -/
def compactMembers (first : Bool) : List (String × Json) → List Char
  | [] => ['\x7d']
  | (key, value) :: others =>
    (if first then [] else [',']) ++ quoted key.toList ++ ':' :: compact value ++
      compactMembers false others

end

/-- The beginning of a line at a level. -/
def newLine (level : Nat) : List Char :=
  '\n' :: List.replicate (2 * level) ' '

mutual

/-- A value on many lines. Empty arrays and objects stay on theirs. -/
def pretty (level : Nat) : Json → List Char
  | .array [] => ['[', ']']
  | .array (element :: others) =>
    '[' :: newLine (level + 1) ++ pretty (level + 1) element ++ prettyElements level others
  | .object [] => ['\x7b', '\x7d']
  | .object ((key, value) :: others) =>
    '\x7b' :: newLine (level + 1) ++ quoted key.toList ++ ':' :: ' ' :: pretty (level + 1) value ++
      prettyMembers level others
  | other => scalar other

/-- The other elements of an array and its end. -/
def prettyElements (level : Nat) : List Json → List Char
  | [] => newLine level ++ [']']
  | element :: others =>
    ',' :: newLine (level + 1) ++ pretty (level + 1) element ++ prettyElements level others

/-- The other members of an object and its end. -/
def prettyMembers (level : Nat) : List (String × Json) → List Char
  | [] => newLine level ++ ['\x7d']
  | (key, value) :: others =>
    ',' :: newLine (level + 1) ++ quoted key.toList ++ ':' :: ' ' :: pretty (level + 1) value ++
      prettyMembers level others

end

/-- A value on one line. -/
def toCompact (value : Json) : String :=
  String.ofList value.compact

/-- A value on many lines. -/
def toPretty (value : Json) : String :=
  String.ofList (value.pretty 0)

end Json

end Deadwood
