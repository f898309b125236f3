/-
# Sets of names

A set is listed in ascending order, each name once.
-/

namespace Deadwood

/-- The names of a list in ascending order, each once. -/
def sortedNames (names : List String) : List String :=
  (names.mergeSort fun a b => a ≤ b).eraseReps

end Deadwood
