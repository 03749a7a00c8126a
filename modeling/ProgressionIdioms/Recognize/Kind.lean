import ProgressionIdioms.Types.Subtype
/-!
# Progression kinds

A progression counts over 32-bit integers, 64-bit integers or characters. The kind of an
expression is found by testing its type against the three base progression classes, in a
fixed order.
-/

namespace ProgressionIdioms

/-- The element kind of a progression. -/
inductive Kind where
  /-- 32-bit integer elements. -/
  | int
  /-- 64-bit integer elements. -/
  | long
  /-- Character elements. -/
  | char
deriving DecidableEq, Repr, Inhabited

namespace Kind

/-- The order in which a type is tested against the base classes. -/
def classificationOrder : List Kind := [.char, .int, .long]

/-- The progression class every progression of this kind derives from. -/
def base : Kind → Ty
  | .int => Ty.intProgression
  | .long => Ty.longProgression
  | .char => Ty.charProgression

/-- The type of the elements. -/
def element : Kind → Ty
  | .int => Ty.int
  | .long => Ty.long
  | .char => Ty.char

/-- The type of a step: characters step by 32-bit integers. -/
def stepType : Kind → Ty
  | .int => Ty.int
  | .long => Ty.long
  | .char => Ty.int

/-- The conversion that turns a loop counter into an element. -/
def castName : Kind → String
  | .int => "toInt"
  | .long => "toLong"
  | .char => "toChar"

/-- The kind's name. -/
def name : Kind → String
  | .int => "Int"
  | .long => "Long"
  | .char => "Char"

end Kind

/-- The kind of progression a type is, if it is one: the first kind, in classification
order, whose base class is a supertype. -/
def TypeTable.kindOf (t : TypeTable) (ty : Ty) : Option Kind :=
  Kind.classificationOrder.find? fun k => t.isSubtype ty k.base

end ProgressionIdioms
