/-
# Blanks

The characters with the Unicode property White_Space, and how they part words.
-/

namespace Deadwood.Text

/-- The characters with the property White_Space. -/
def isBlank (c : Char) : Bool :=
  let n := c.toNat
  (0x09 ≤ n && n ≤ 0x0D) || n == 0x20 || n == 0x85 || n == 0xA0 || n == 0x1680 ||
    (0x2000 ≤ n && n ≤ 0x200A) || n == 0x2028 || n == 0x2029 || n == 0x202F || n == 0x205F ||
    n == 0x3000

/-- The blanks of ASCII, without the vertical tab. -/
def isAsciiBlank (c : Char) : Bool :=
  c == ' ' || c == '\t' || c == '\n' || c.toNat == 0x0C || c == '\r'

/-- A text without the blanks in front. -/
def trimStart (text : List Char) : List Char :=
  text.dropWhile isBlank

/-- A text without the blanks at its end. -/
def trimEnd (text : List Char) : List Char :=
  (text.reverse.dropWhile isBlank).reverse

/-- A text without the blanks around it. -/
def trim (text : List Char) : List Char :=
  trimEnd (trimStart text)

/-- The word in progress and the words behind it, from the right. -/
def wordsStep (c : Char) (state : List Char × List (List Char)) :
    List Char × List (List Char) :=
  if isBlank c then ([], if state.1.isEmpty then state.2 else state.1 :: state.2)
  else (c :: state.1, state.2)

/-- The stretches between blanks. -/
def words (text : List Char) : List (List Char) :=
  let r := text.foldr wordsStep ([], [])
  if r.1.isEmpty then r.2 else r.1 :: r.2

/-- The stretches of a string between blanks. -/
def wordsOf (text : String) : List String :=
  (words text.toList).map String.ofList

/-- A string without the blanks around it. -/
def trimmed (text : String) : String :=
  String.ofList (trim text.toList)

end Deadwood.Text
