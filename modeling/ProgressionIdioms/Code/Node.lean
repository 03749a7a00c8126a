import ProgressionIdioms.Types.Ty
/-!
# Expression nodes

The code being recognised is a store of expression nodes, each with a type and a source
span. Nodes refer to each other and to callees by position; nothing checks a position
until it is read.
-/

namespace ProgressionIdioms

/-- The position of a node in a node store. -/
abbrev NodeId := Nat

/-- The position of a signature in a signature table. -/
abbrev FnId := Nat

/-- A half-open range of source offsets. -/
structure Span where
  /-- The first offset. -/
  start : Nat
  /-- The offset just past the end. -/
  stop : Nat
deriving DecidableEq, Repr, Inhabited

/-- The smallest span covering two spans. -/
def Span.cover (a b : Span) : Span := ⟨min a.start b.start, max a.stop b.stop⟩

/-- A literal constant. -/
inductive Literal where
  /-- A boolean constant. -/
  | bool (b : Bool)
  /-- A 32-bit integer constant. -/
  | int (v : Int)
  /-- A 64-bit integer constant. -/
  | long (v : Int)
  /-- A character constant. -/
  | char (c : Char)
deriving DecidableEq, Repr

/-- The value of an integer literal of either width. -/
def Literal.integer? : Literal → Option Int
  | .int v => some v
  | .long v => some v
  | _ => none

/-- A call: the callee, the optional dispatch and extension receivers, and the arguments. -/
structure Call where
  /-- The signature called. -/
  callee : FnId
  /-- The receiver the call dispatches on, if any. -/
  dispatch : Option NodeId
  /-- The receiver of an extension call, if any. -/
  extension : Option NodeId
  /-- The arguments, in order. -/
  args : List NodeId
deriving DecidableEq, Repr

/-- What a node is. -/
inductive NodeKind where
  /-- A literal constant. -/
  | lit (l : Literal)
  /-- A variable reference. -/
  | var (name : String)
  /-- A call. -/
  | call (c : Call)
  /-- A sequence of nodes evaluated in order, whose value is the last one's. -/
  | block (parts : List NodeId)
deriving DecidableEq, Repr

/-- A node: what it is, its type and its span. -/
structure Node where
  /-- What the node is. -/
  kind : NodeKind
  /-- The node's type. -/
  ty : Ty
  /-- The node's source span. -/
  span : Span
deriving DecidableEq, Repr

/-- The value of a node that is an integer literal above zero. -/
def Node.positiveLiteral? (n : Node) : Option Int :=
  match n.kind with
  | .lit l =>
    match l.integer? with
    | some v => if 0 < v then some v else none
    | none => none
  | _ => none

end ProgressionIdioms
