import ProgressionIdioms.Recognize.Recognizer
/-!
# Scripts

A script describes a session: type declarations, callee declarations, an optional
configuration, expression nodes, and a list of operations to run against them. Each entry is
read on its own, so an entry that could not be read is kept as the problem found in it; a
session stops at the first such entry, in the order it is built. Operations that intern
strings read their parts one at a time, so the strings before an unreadable part are
interned all the same.

Types are referred to by handle or by the position of an earlier type declaration.
-/

namespace ProgressionIdioms

/-- A problem with a script entry. -/
inductive InputError where
  /-- A reference to a type declaration that is not (yet) there. -/
  | declaredOutOfRange
  /-- The entry does not have the expected shape; the message says what was expected. -/
  | malformed (message : String)
deriving DecidableEq, Repr

/-- The message of an input problem. -/
def InputError.message : InputError → String
  | .declaredOutOfRange => "declared type reference out of range"
  | .malformed m => m

/-- A reference to a type: a handle, or the type made by a type declaration. -/
inductive TypeRef where
  /-- This handle. -/
  | fixed (t : Ty)
  /-- The type made by the declaration at this position. -/
  | declared (k : Nat)
deriving DecidableEq, Repr

/-- The type a reference names, given the types declared so far. -/
def TypeRef.resolve (declared : Array Ty) : TypeRef → Except InputError Ty
  | .fixed t => pure t
  | .declared k =>
    match declared[k]? with
    | some t => pure t
    | none => throw .declaredOutOfRange

/-- The types a list of references names, in order. -/
def TypeRef.resolveAll (declared : Array Ty) (rs : List TypeRef) : Except InputError (List Ty) :=
  rs.mapM (TypeRef.resolve declared)

/-- A type declaration. -/
inductive TypeDecl where
  /-- The nullable view of a type. -/
  | nullable (inner : TypeRef)
  /-- The array instance over a type. -/
  | arrayOf (elem : TypeRef)
  /-- A new class with a name and supertypes. -/
  | nominal (name : String) (supers : List TypeRef)
deriving DecidableEq, Repr

/-- A callee declaration. -/
inductive FnDecl where
  /-- The builtin helpers, whose configuration becomes the default one. -/
  | builtins
  /-- A callee with a dotted path, a return type, parameter types and receivers. -/
  | callee (path : String) (returns : TypeRef) (params : List TypeRef)
      (dispatch extension : Option TypeRef)
deriving DecidableEq, Repr

/-- Replacements for the idiom names; each present one replaces the standard name. -/
structure NamesDecl where
  /-- The innermost segment of the member operator. -/
  rangeTo : Option String
  /-- The path of the `downTo` extension. -/
  downTo : Option String
  /-- The path of the `until` extension. -/
  upUntil : Option String
  /-- The path of the `step` extension. -/
  step : Option String
  /-- The path of the `indices` getter. -/
  indices : Option String
deriving DecidableEq, Repr

/-- A configuration declaration. -/
structure ConfigDecl where
  /-- Size accessors by array class; when given, the helpers are exactly the given ones. -/
  sizeAccessors : Option (List (TypeRef × FnId))
  /-- Step checks by step type; when given, the helpers are exactly the given ones. -/
  stepChecks : Option (List (TypeRef × FnId))
  /-- Replacements for the idiom names. -/
  names : NamesDecl
  /-- A replacement for the progression classes. -/
  progressionClasses : Option (List TypeRef)
  /-- A replacement for the element classes. -/
  elementClasses : Option (List TypeRef)
  /-- A replacement for the step classes. -/
  stepClasses : Option (List TypeRef)
  /-- A replacement for the arrays with indices. -/
  supportedArrays : Option (List TypeRef)
deriving DecidableEq, Repr

/-- An expression node declaration; a missing type is inferred. -/
inductive ExprDecl where
  /-- A literal, typed by its literal type unless a type is given. -/
  | lit (l : Literal) (ty : Option TypeRef) (span : Span)
  /-- A variable of a type. -/
  | var (name : String) (ty : TypeRef) (span : Span)
  /-- A call, typed by its callee's return type unless a type is given. -/
  | call (c : Call) (ty : Option TypeRef) (span : Span)
  /-- A block of a type. -/
  | block (parts : List NodeId) (ty : TypeRef) (span : Span)
deriving DecidableEq, Repr

/-- A requirement declaration of the `matcher` operation. -/
inductive RequirementDecl where
  /-- The exact dotted name. -/
  | name (path : String)
  /-- The innermost segment. -/
  | last (segment : String)
  /-- The parameter count. -/
  | count (n : Nat)
  /-- The class of one parameter. -/
  | param (index : Nat) (classes : List TypeRef)
  /-- The class of the dispatch receiver. -/
  | dispatch (classes : List TypeRef)
  /-- The class of the extension receiver. -/
  | extension (classes : List TypeRef)
  /-- A one-argument extension of an exact name: three requirements. -/
  | extensionOfOne (path : String) (classes : List TypeRef)
deriving DecidableEq, Repr

/-- An operation run against a built session. -/
inductive Op where
  /-- Recognise a node, and optionally build its step as one node. -/
  | recognize (e : NodeId) (withStep : Bool)
  /-- Show a node. -/
  | node (e : NodeId)
  /-- The number of nodes. -/
  | size
  /-- The progression kind of a type. -/
  | kind (t : TypeRef)
  /-- Whether one type is a subtype of another. -/
  | subtype (sub sup : TypeRef)
  /-- The class of a type. -/
  | classifier (t : TypeRef)
  /-- A type without its nullable view. -/
  | stripNullable (t : TypeRef)
  /-- The name of a type. -/
  | display (t : TypeRef)
  /-- The idioms that accept a callee. -/
  | idioms (f : FnId)
  /-- The priority order of the idioms. -/
  | idiomOrder
  /-- Whether a pattern accepts a callee, and how many requirements it has. The requirements
  are read, and their names interned, one at a time, then the callee. -/
  | matcher (reqs : List (Except InputError RequirementDecl)) (f : Except InputError FnId)
  /-- Intern strings, read and interned one at a time. -/
  | intern (strings : List (Except InputError String))
  /-- Read a dotted path. -/
  | dotted (path : String)
  /-- The constants of a kind. -/
  | kindInfo (k : Kind)
  /-- The helpers and index support registered for a type. -/
  | helpers (t : TypeRef)
deriving Repr

/-- A script: its entries in the order they are built, then its operations. -/
structure Script where
  /-- The type declarations. -/
  types : List (Except InputError TypeDecl)
  /-- The callee declarations. -/
  functions : List (Except InputError FnDecl)
  /-- The configuration declaration, if there is one. -/
  config : Option (Except InputError ConfigDecl)
  /-- The expression nodes. -/
  exprs : List (Except InputError ExprDecl)
  /-- The operations; a problem with one only affects that operation. -/
  ops : List (Except InputError Op)

end ProgressionIdioms
