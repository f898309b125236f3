/-
# Syntax trees

The finished parse as a reader of the text sees it: nodes with a kind, a label
within their parent, and their extent in bytes. Hidden rules have given way to
their children.
-/

namespace Deadwood.Grammar

/-- A node of a syntax tree. Offsets are in bytes; lines count from zero. -/
inductive Node
  | mk (kind : String) (named : Bool) (label : Option String) (start stop : Nat)
      (startLine stopLine : Nat) (missing : Bool) (broken : Bool) (children : List Node)
deriving Inhabited, Repr

namespace Node

/-- The kind of a node that holds what a repair set aside. -/
def errorKind : String := "ERROR"

/-- What a node is. -/
def kind : Node → String
  | .mk kind _ _ _ _ _ _ _ _ _ => kind

/-- Whether a node is more than punctuation. -/
def isNamed : Node → Bool
  | .mk _ named _ _ _ _ _ _ _ _ => named

/-- The label under which its parent has it. -/
def label : Node → Option String
  | .mk _ _ label _ _ _ _ _ _ _ => label

/-- The byte at which it begins. -/
def start : Node → Nat
  | .mk _ _ _ start _ _ _ _ _ _ => start

/-- The byte behind its last. -/
def stop : Node → Nat
  | .mk _ _ _ _ stop _ _ _ _ _ => stop

/-- The line on which it begins, from zero. -/
def startLine : Node → Nat
  | .mk _ _ _ _ _ startLine _ _ _ _ => startLine

/-- The line on which it ends, from zero. -/
def stopLine : Node → Nat
  | .mk _ _ _ _ _ _ stopLine _ _ _ => stopLine

/-- Whether the token was supplied by a repair. -/
def isMissing : Node → Bool
  | .mk _ _ _ _ _ _ _ missing _ _ => missing

/-- Whether a repair was made in or below the node. -/
def isBroken : Node → Bool
  | .mk _ _ _ _ _ _ _ _ broken _ => broken

/-- The nodes in it, in order. -/
def children : Node → List Node
  | .mk _ _ _ _ _ _ _ _ _ children => children

/-- Whether it holds text that fits nowhere. -/
def isError (node : Node) : Bool :=
  node.kind == errorKind

/-- The first child with a label. -/
def child? (node : Node) (label : String) : Option Node :=
  node.children.find? fun child => child.label == some label

mutual

/-- A node and all nodes below it, each before its children. -/
def preorder : Node → List Node
  | .mk kind named label start stop startLine stopLine missing broken children =>
    .mk kind named label start stop startLine stopLine missing broken children ::
      preorderAll children

/-- All nodes of a list of trees, each before its children. -/
def preorderAll : List Node → List Node
  | [] => []
  | node :: rest => preorder node ++ preorderAll rest

end

mutual

/-- Every node of a tree with the nodes around it, innermost first; each node
before its children. -/
def placed (around : List Node) : Node → List (Node × List Node)
  | .mk kind named label start stop startLine stopLine missing broken children =>
    let self := Node.mk kind named label start stop startLine stopLine missing broken children
    (self, around) :: placedAll (self :: around) children

/-- Every node of several trees with the nodes around it. -/
def placedAll (around : List Node) : List Node → List (Node × List Node)
  | [] => []
  | node :: rest => placed around node ++ placedAll around rest

end

/-- The children that are more than punctuation. -/
def namedChildren (node : Node) : List Node :=
  node.children.filter (·.isNamed)

/-- The first child of a kind, punctuation apart. -/
def childOfKind? (node : Node) (kind : String) : Option Node :=
  node.namedChildren.find? (·.kind == kind)

end Node

end Deadwood.Grammar
