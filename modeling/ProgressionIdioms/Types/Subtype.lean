import ProgressionIdioms.Types.Table
/-!
# Questions about types

Subtyping, the class a type is an instance of, and stripping nullability.

Nullable views are one layer deep: the view of a nullable type is that type. So subtyping
is a rule on at most one nullable layer over `plainSubtype`, the rule between types that
are not nullable views.
-/

namespace ProgressionIdioms

namespace TypeTable

/-- The depth-first walk that decides `derives`, for at most `rounds` rounds. `stack` holds the
types still to visit, its top first, and `seen` those already visited. A round pops the top
type: the walk succeeds if it is `sup`, passes over it if it was visited before, and otherwise
visits it, pushing its declared supertypes so that the last of them is on top. An empty stack
means `sup` is not above; `none` means the rounds ran out first. -/
def walkSupers (t : TypeTable) (sup : Ty) : Nat → List Ty → List Ty → Option Bool
  | _, [], _ => some false
  | 0, _ :: _, _ => none
  | rounds + 1, ty :: stack, seen =>
    if ty = sup then some true
    else if ty ∈ seen then t.walkSupers sup rounds stack seen
    else t.walkSupers sup rounds ((t.supers ty).reverse ++ stack) (ty :: seen)

/-- The number of declared-supertype edges leaving the table's entries. -/
def edgeCount (t : TypeTable) : Nat :=
  ((List.range t.size).map fun i => (t.supers ⟨i⟩).length).foldr (· + ·) 0

/-- Whether `sub` derives from `sup` through declared supertypes: the walk from the declared
supertypes of `sub`. Every round pops a type pushed at the start or by the first visit of an
entry, so the walk needs at most one round per declared supertype of `sub` and one per edge of
the table. -/
def derives (t : TypeTable) (sub sup : Ty) : Bool :=
  (t.walkSupers sup ((t.supers sub).length + t.edgeCount) (t.supers sub).reverse []).getD false

/-- Subtyping below the nullable layer. Every array instance is a subtype of the generic
array class and nothing else; no other type is below an array instance; a progression class
is only above progression classes; otherwise `sub` must derive from `sup`. -/
def plainSubtype (t : TypeTable) (sub sup : Ty) : Bool :=
  sub == sup ||
    match t.shape? sub, t.shape? sup with
    | some (.arrayOf _), some _ => sup == Ty.array
    | some _, some (.arrayOf _) => false
    | some s, some u => (!u.isProgression || s.isProgression) && t.derives sub sup
    | _, _ => false

/-- Whether `sub` is a subtype of `sup`. A handle that names no entry is only a subtype of
itself; a nullable view is only below nullable views, and a plain type is below the
nullable view of anything it is below. -/
def isSubtype (t : TypeTable) (sub sup : Ty) : Bool :=
  sub == sup ||
    match t.shape? sub, t.shape? sup with
    | some (.nullable a), some (.nullable b) => t.plainSubtype a b
    | some (.nullable _), some _ => false
    | some _, some (.nullable b) => t.plainSubtype sub b
    | some _, some _ => t.plainSubtype sub sup
    | _, _ => false

/-- The class of a type that is not a nullable view: itself for primitives and classes, the
generic array class for array instances. -/
def plainClassifier (t : TypeTable) (ty : Ty) : Option Ty :=
  match t.shape? ty with
  | some .primitive => some ty
  | some (.nominal _ _ _) => some ty
  | some (.arrayOf _) => some Ty.array
  | _ => none

/-- The class a type is an instance of, looking through one nullable view. -/
def classifier (t : TypeTable) (ty : Ty) : Option Ty :=
  match t.shape? ty with
  | some (.nullable i) => t.plainClassifier i
  | _ => t.plainClassifier ty

/-- A type with its nullable view removed; other handles are unchanged. -/
def stripNullable (t : TypeTable) (ty : Ty) : Ty :=
  match t.shape? ty with
  | some (.nullable i) => i
  | _ => ty

end TypeTable

end ProgressionIdioms
