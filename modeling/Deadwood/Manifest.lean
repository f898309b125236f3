/-
# Manifests

A run that only proposes changes writes a manifest of its patches.
-/

namespace Deadwood

/-- What a patch does to its file. -/
inductive PatchKind
  | classRemoval
  | functionComment
deriving BEq, DecidableEq, Repr, Inhabited

/-- The kind of a patch as it is written. -/
def PatchKind.text : PatchKind → String
  | .classRemoval => "css-class-removal"
  | .functionComment => "js-comment-func"

/-- The kind of a patch that a text stands for. -/
def PatchKind.ofText? (text : String) : Option PatchKind :=
  [PatchKind.classRemoval, .functionComment].find? (·.text == text)

/-- A patch that was written. -/
structure Suggestion where
  file : String
  kind : PatchKind
  patch : String
  timestamp : String
deriving BEq, DecidableEq, Repr, Inhabited

/-- The patches of one run. -/
structure Manifest where
  timestamp : String
  suggestions : List Suggestion
deriving BEq, DecidableEq, Repr, Inhabited

end Deadwood
