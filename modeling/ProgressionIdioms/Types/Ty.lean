/-!
# Type handles

A type is named by a 32-bit handle into a type table. The first twenty-five handles are
the builtin classes, at fixed positions, and one handle past every table is reserved for
"no type". A handle is only a number: whether it names an entry depends on the table.
-/

namespace ProgressionIdioms

/-- A handle naming an entry of a type table by its position. -/
structure Ty where
  /-- The position of the entry, below `2 ^ 32`. -/
  id : Nat
deriving DecidableEq, Repr, Inhabited, Hashable

namespace Ty

/-- Names of the builtin types, in the order of their handles. -/
def builtinNames : List String :=
  ["Unit", "Boolean", "Byte", "Short", "Int", "Long", "Char", "Float", "Double", "String",
   "IntProgression", "LongProgression", "CharProgression", "IntRange", "LongRange",
   "CharRange", "ByteArray", "ShortArray", "IntArray", "LongArray", "CharArray",
   "BooleanArray", "FloatArray", "DoubleArray", "Array"]

/-- How many builtin types every table starts with. -/
def builtinCount : Nat := builtinNames.length

/-- The unit type. -/
def unit : Ty := ⟨0⟩
/-- The boolean type. -/
def boolean : Ty := ⟨1⟩
/-- The 8-bit integer type. -/
def byte : Ty := ⟨2⟩
/-- The 16-bit integer type. -/
def short : Ty := ⟨3⟩
/-- The 32-bit integer type. -/
def int : Ty := ⟨4⟩
/-- The 64-bit integer type. -/
def long : Ty := ⟨5⟩
/-- The character type. -/
def char : Ty := ⟨6⟩
/-- The 32-bit floating-point type. -/
def float : Ty := ⟨7⟩
/-- The 64-bit floating-point type. -/
def double : Ty := ⟨8⟩
/-- The string type. -/
def string : Ty := ⟨9⟩
/-- The progression of 32-bit integers. -/
def intProgression : Ty := ⟨10⟩
/-- The progression of 64-bit integers. -/
def longProgression : Ty := ⟨11⟩
/-- The progression of characters. -/
def charProgression : Ty := ⟨12⟩
/-- The closed range of 32-bit integers, a kind of integer progression. -/
def intRange : Ty := ⟨13⟩
/-- The closed range of 64-bit integers. -/
def longRange : Ty := ⟨14⟩
/-- The closed range of characters. -/
def charRange : Ty := ⟨15⟩
/-- The generic array class: every array instance is classified by it. -/
def array : Ty := ⟨24⟩

/-- The specialised array classes, followed by the generic one. -/
def arrayClasses : List Ty := (List.range 9).map fun i => ⟨16 + i⟩

/-- The reserved handle that names no type. -/
def noType : Ty := ⟨4294967295⟩

/-- The builtin name of a handle, if it is one of the builtin types. -/
def builtinName? (t : Ty) : Option String := builtinNames[t.id]?

/-- The diagnostic text of a handle, as used in messages: the builtin name when there is
one, the reserved spelling for `noType`, the number otherwise. -/
def handleText (t : Ty) : String :=
  match t.builtinName? with
  | some n => "TypeId(" ++ n ++ ")"
  | none => if t = noType then "TypeId::NONE" else "TypeId(" ++ toString t.id ++ ")"

end Ty

end ProgressionIdioms
