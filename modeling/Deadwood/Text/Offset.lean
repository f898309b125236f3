/-
# Offsets in bytes

Texts are lists of characters, and places in them are counted in bytes of UTF-8.
An offset inside a character is no place to cut.
-/

namespace Deadwood.Text

/-- A stretch of a text in bytes, from `start` up to `stop`. -/
structure Range where
  start : Nat
  stop : Nat
deriving BEq, DecidableEq, Hashable, Repr, Inhabited

/-- The number of bytes of a text. -/
def byteSize : List Char → Nat
  | [] => 0
  | c :: rest => c.utf8Size + byteSize rest

/-- Parts a text at an offset. There is no such place inside a character or
beyond the end. -/
def splitAt? : Nat → List Char → Option (List Char × List Char)
  | 0, text => some ([], text)
  | _ + 1, [] => none
  | offset + 1, c :: rest =>
    if c.utf8Size ≤ offset + 1 then
      (splitAt? (offset + 1 - c.utf8Size) rest).map fun (before, after) => (c :: before, after)
    else none

/-- The text of a stretch, if both its ends are places to cut. -/
def slice? (text : List Char) (range : Range) : Option (List Char) :=
  if range.start ≤ range.stop then
    (splitAt? range.start text).bind fun (_, after) =>
      (splitAt? (range.stop - range.start) after).map (·.1)
  else none

/-- Whether an offset is a place to cut. -/
def isBoundary (text : List Char) (offset : Nat) : Bool :=
  (splitAt? offset text).isSome

end Deadwood.Text
