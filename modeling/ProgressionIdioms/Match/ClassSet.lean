import ProgressionIdioms.Types.Subtype
/-!
# Class sets

A class set admits a type when the class the type is an instance of is in the set. So
`Int?` is admitted by a set holding `Int`, and every array instance by a set holding the
generic array class.
-/

namespace ProgressionIdioms

/-- A finite set of classes. -/
structure ClassSet where
  /-- The classes, possibly with repeats. -/
  classes : List Ty
deriving DecidableEq, Repr

namespace ClassSet

/-- Whether a class is one of the set's members. -/
def contains (c : ClassSet) (ty : Ty) : Bool := c.classes.contains ty

/-- The number of distinct classes in the set. -/
def card (c : ClassSet) : Nat := c.classes.eraseDups.length

/-- Whether the set admits a type: the type has a class and that class is a member. -/
def admits (c : ClassSet) (t : TypeTable) (ty : Ty) : Bool :=
  match t.classifier ty with
  | some k => c.contains k
  | none => false

end ClassSet

end ProgressionIdioms
