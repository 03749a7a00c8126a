import ProgressionIdioms.Types.Ty
import ProgressionIdioms.OutOfRange
/-!
# The type table

A type table is an append-only array of entries. An entry is a primitive, a nominal class
with its declared supertypes, an array instance over an element type, or the nullable
view of a type. Array instances and nullable views are shared: asking for one that exists
returns the existing handle. Classes are never shared, two declarations give two classes.

Each class carries its declared supertypes and whether it is a progression class: a class is
one exactly when one of its declared supertypes is.
-/

namespace ProgressionIdioms

/-- What a type-table entry is. -/
inductive TypeShape where
  /-- A builtin primitive type. -/
  | primitive
  /-- A nominal class: its name, its declared supertypes, and whether it is a progression
  class. -/
  | nominal (name : String) (supers : List Ty) (progression : Bool)
  /-- The array instance over an element type, which need not be in the table. -/
  | arrayOf (elem : Ty)
  /-- The nullable view of a type that is not itself nullable. -/
  | nullable (inner : Ty)
deriving DecidableEq, Repr

namespace TypeShape

/-- Whether the entry is a progression class. -/
def isProgression : TypeShape → Bool
  | nominal _ _ p => p
  | _ => false

/-- The declared supertypes of a class; other entries declare none. -/
def supers : TypeShape → List Ty
  | nominal _ s _ => s
  | _ => []

end TypeShape

/-- A table of types, indexed by handle. -/
structure TypeTable where
  /-- The entries, the entry of handle `i` at position `i`. -/
  entries : Array TypeShape
deriving Repr

namespace TypeTable

/-- The number of entries. -/
def size (t : TypeTable) : Nat := t.entries.size

/-- The entry a handle names, if it names one. -/
def shape? (t : TypeTable) (ty : Ty) : Option TypeShape := t.entries[ty.id]?

/-- Whether a handle names an entry. -/
def contains (t : TypeTable) (ty : Ty) : Bool := ty.id < t.size

/-- The entry a handle names, or a read past the end. -/
def shapeOrStop (t : TypeTable) (ty : Ty) : Except OutOfRange TypeShape :=
  match t.shape? ty with
  | some s => .ok s
  | none => .error ⟨t.size, ty.id⟩

/-- The builtin entries: ten primitives, the three progression classes, the three ranges
deriving from them, and the nine array classes. -/
def builtinShapes : List TypeShape :=
  let prim := (List.range 10).map fun _ => TypeShape.primitive
  let progressions := [Ty.intProgression, Ty.longProgression, Ty.charProgression]
  let named (i : Nat) := (Ty.builtinNames[i]?).getD ""
  let bases := progressions.map fun p => TypeShape.nominal (named p.id) [] true
  let ranges := progressions.map fun p => TypeShape.nominal (named (p.id + 3)) [p] true
  let arrays := Ty.arrayClasses.map fun a => TypeShape.nominal (named a.id) [] false
  prim ++ bases ++ ranges ++ arrays

/-- The table holding only the builtin types. -/
def builtin : TypeTable := ⟨builtinShapes.toArray⟩

/-- Appends an entry, unless an equal one is present, and returns its handle. -/
def share (t : TypeTable) (s : TypeShape) : TypeTable × Ty :=
  match t.entries.findIdx? (· == s) with
  | some i => (t, ⟨i⟩)
  | none => (⟨t.entries.push s⟩, ⟨t.size⟩)

/-- The nullable view of a type. A type that is already nullable is its own view; a handle
that names no entry stops. -/
def nullable (t : TypeTable) (inner : Ty) : Except OutOfRange (TypeTable × Ty) := do
  match ← t.shapeOrStop inner with
  | .nullable _ => pure (t, inner)
  | _ => pure (t.share (.nullable inner))

/-- The array instance over an element type, which is not checked. -/
def arrayOf (t : TypeTable) (elem : Ty) : TypeTable × Ty := t.share (.arrayOf elem)

/-- The declared supertypes of a handle. -/
def supers (t : TypeTable) (ty : Ty) : List Ty := ((t.shape? ty).map TypeShape.supers).getD []

/-- Whether a declared class with these supertypes is a progression class. Every supertype
must name an entry; the first that does not stops. -/
def anyProgression (t : TypeTable) : List Ty → Except OutOfRange Bool
  | [] => pure false
  | s :: rest => do
    let shape ← t.shapeOrStop s
    let later ← t.anyProgression rest
    pure (shape.isProgression || later)

/-- Declares a new class with a name and its supertypes. -/
def declareClass (t : TypeTable) (name : String) (supers : List Ty) :
    Except OutOfRange (TypeTable × Ty) := do
  let progression ← t.anyProgression supers
  pure (⟨t.entries.push (.nominal name supers progression)⟩, ⟨t.size⟩)

/-- Renders a type's name with a bound on the depth: the builtin name, the handle's text for
a handle past the end, `Array<e>` for an array instance, `t?` for a nullable view, the
declared name of a class. An array instance can hold itself, so the depth bound can run
out; that gives `none`. -/
def renderWithin (t : TypeTable) : Nat → Ty → Option String
  | 0, _ => none
  | fuel + 1, ty =>
    match ty.builtinName? with
    | some n => some n
    | none =>
      match t.shape? ty with
      | none => some ty.handleText
      | some (.arrayOf e) => (t.renderWithin fuel e).map fun s => "Array<" ++ s ++ ">"
      | some (.nullable i) => (t.renderWithin fuel i).map fun s => s ++ "?"
      | some (.nominal n _ _) => some n
      | some .primitive => some ty.handleText

/-- Renders a type's name. Every rendering that does not revisit an entry takes at most one
step per entry and one more, so `none` means the rendering never ends. -/
def render (t : TypeTable) (ty : Ty) : Option String := t.renderWithin (t.size + 1) ty

end TypeTable

end ProgressionIdioms
