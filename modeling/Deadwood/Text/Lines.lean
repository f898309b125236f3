/-
# Lines

A text is parted at each line feed, so that an empty text has one empty line and
a last line feed is followed by an empty line. Joining the lines gives the text
back.
-/

namespace Deadwood.Text

/-- The lines of a text. -/
def lines : List Char → List (List Char)
  | [] => [[]]
  | c :: rest =>
    if c = '\n' then [] :: lines rest
    else
      match lines rest with
      | [] => [[c]]
      | line :: others => (c :: line) :: others

/-- Texts with a separator between them. -/
def joinWith (separator : List Char) : List (List Char) → List Char
  | [] => []
  | [text] => text
  | text :: others => text ++ separator ++ joinWith separator others

/-- A text of the given lines. -/
def unlines (lines : List (List Char)) : List Char :=
  joinWith ['\n'] lines

end Deadwood.Text
