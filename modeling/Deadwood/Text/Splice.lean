/-
# Splicing edits into a text

Edits are chosen from the left: one that begins inside an edit already chosen, or
reaches beyond the text, is dropped. The chosen ones are then applied from the
right, so that the offsets of those still to come hold.
-/

import Deadwood.Text.Offset

namespace Deadwood.Text

/-- A stretch of a text in bytes and what takes its place. -/
structure Edit where
  start : Nat
  stop : Nat
  replacement : List Char := []
deriving BEq, DecidableEq, Repr, Inhabited

namespace Edit

/-- Whether an edit comes first: by its start, and of two with one start the
longer. -/
def precedes (a b : Edit) : Bool :=
  a.start < b.start || (a.start == b.start && b.stop ≤ a.stop)

/-- Whether an edit changes nothing: it is empty and puts nothing in place. -/
def isTrivial (edit : Edit) : Bool :=
  edit.stop ≤ edit.start && edit.replacement.isEmpty

/-- The edits that are applied, given ones in order: those that stay within
`size` and begin at or behind the end of the one before. -/
def choose (size : Nat) : Nat → List Edit → List Edit
  | _, [] => []
  | frontier, edit :: others =>
    if edit.isTrivial || size < edit.stop || edit.start < frontier then choose size frontier others
    else edit :: choose size edit.stop others

end Edit

/-- The longest part of a text in front with at most so many bytes, and the
rest. -/
def splitFloor : Nat → List Char → List Char × List Char
  | _, [] => ([], [])
  | size, c :: rest =>
    if c.utf8Size ≤ size then
      let (before, after) := splitFloor (size - c.utf8Size) rest
      (c :: before, after)
    else ([], c :: rest)

/-- The shortest part of a text in front with at least so many bytes, and the
rest; the whole text if it has fewer. -/
def splitCeil : Nat → List Char → List Char × List Char
  | _, [] => ([], [])
  | 0, text => ([], text)
  | size, c :: rest =>
    let (before, after) := splitCeil (size - c.utf8Size) rest
    (c :: before, after)

/-- Puts one edit in place. Ends inside a character move outwards to its edges.
An edit whose ends are out of order even then cannot be applied. -/
def applyEdit? (text : List Char) (edit : Edit) : Option (List Char) :=
  let before := (splitFloor edit.start text).1
  let (upTo, after) := splitCeil edit.stop text
  if byteSize before ≤ byteSize upTo then some (before ++ edit.replacement ++ after) else none

/-- Puts edits in place from the last to the first. -/
def applyEdits? (text : List Char) (edits : List Edit) : Option (List Char) :=
  edits.foldr (fun edit result => result.bind (applyEdit? · edit)) (some text)

/-- The edits of a list that are applied to a text, in order. -/
def chosenEdits (text : List Char) (edits : List Edit) : List Edit :=
  Edit.choose (byteSize text) 0 (edits.mergeSort Edit.precedes)

/-- A text with edits in place, and how many were applied. There is none if an
edit with a replacement has its ends out of order. -/
def splice? (text : List Char) (edits : List Edit) : Option (List Char × Nat) :=
  let chosen := chosenEdits text edits
  (applyEdits? text chosen).map fun result => (result, chosen.length)

end Deadwood.Text
