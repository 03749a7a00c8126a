import ProgressionIdioms.Match.ClassSet
import ProgressionIdioms.Code.Signature
import ProgressionIdioms.Names.Interner
/-!
# Recogniser configuration

Which names denote which idiom, which classes may form a progression, and which helper
callees the recogniser may emit calls to: a size accessor per array class, and a step check
per step type.
-/

namespace ProgressionIdioms

/-- The callee names that identify each idiom. -/
structure Spelling where
  /-- The innermost segment of the member operator `a..b`, declared once per element class. -/
  rangeTo : String
  /-- The full name of the `downTo` extension. -/
  downTo : DottedName
  /-- The full name of the `until` extension. -/
  upUntil : DottedName
  /-- The full name of the `step` extension. -/
  step : DottedName
  /-- The full name of the `indices` property getter. -/
  indices : DottedName
deriving DecidableEq, Repr

/-- The standard spelling of the idioms. -/
def Spelling.standard : Spelling where
  rangeTo := "rangeTo"
  downTo := .parse "core.ranges.downTo"
  upUntil := .parse "core.ranges.until"
  step := .parse "core.ranges.step"
  indices := .parse "core.collections.<get-indices>"

/-- The strings interned when the standard spelling is built, in order. -/
def Spelling.standardWords : List String :=
  ["rangeTo"] ++ ["core", "ranges", "downTo"] ++ ["core", "ranges", "until"] ++
    ["core", "ranges", "step"] ++ ["core", "collections", "<get-indices>"]

/-- A table from types to helper callees. Adding a type already present replaces its entry. -/
structure HelperTable where
  /-- The entries, each type at most once. -/
  entries : List (Ty × FnId)
deriving DecidableEq, Repr

namespace HelperTable

/-- The table with no entries. -/
def empty : HelperTable := ⟨[]⟩

/-- The helper registered for a type. -/
def find? (h : HelperTable) (ty : Ty) : Option FnId :=
  (h.entries.find? fun e => e.1 == ty).map Prod.snd

/-- Registers a helper for a type, replacing any earlier one. -/
def insert (h : HelperTable) (ty : Ty) (f : FnId) : HelperTable :=
  if h.entries.any (·.1 == ty) then
    ⟨h.entries.map fun e => if e.1 == ty then (ty, f) else e⟩
  else ⟨h.entries ++ [(ty, f)]⟩

/-- The table built by registering pairs in order. -/
def ofList (pairs : List (Ty × FnId)) : HelperTable :=
  pairs.foldl (fun h p => h.insert p.1 p.2) empty

/-- The types with a registered helper. -/
def keys (h : HelperTable) : List Ty := h.entries.map Prod.fst

end HelperTable

/-- The recogniser's configuration. -/
structure Config where
  /-- The idiom names. -/
  spelling : Spelling
  /-- The base progression classes a step may be applied to. -/
  progressionClasses : ClassSet
  /-- The classes whose values may be the ends of a range. -/
  elementClasses : ClassSet
  /-- The classes a step value may have. -/
  stepClasses : ClassSet
  /-- The array classes that have indices. -/
  supportedArrays : ClassSet
  /-- The size accessor of each array class. -/
  sizeAccessors : HelperTable
  /-- The step check of each step type. -/
  stepChecks : HelperTable
deriving DecidableEq, Repr

namespace Config

/-- The configuration over the builtin classes with the given helpers. The arrays with indices
are exactly those with a size accessor. -/
def make (spelling : Spelling) (sizes checks : HelperTable) : Config where
  spelling := spelling
  progressionClasses := ⟨[Ty.intProgression, Ty.longProgression, Ty.charProgression]⟩
  elementClasses := ⟨[Ty.byte, Ty.short, Ty.int, Ty.long, Ty.char]⟩
  stepClasses := ⟨[Ty.int, Ty.long]⟩
  supportedArrays := ⟨sizes.keys⟩
  sizeAccessors := sizes
  stepChecks := checks

/-- The size accessor of an array class. -/
def sizeAccessor? (c : Config) (array : Ty) : Option FnId := c.sizeAccessors.find? array

/-- The step check of a step type. -/
def stepCheck? (c : Config) (stepType : Ty) : Option FnId := c.stepChecks.find? stepType

end Config

/-- The path of the size accessor of an array class. -/
def sizeAccessorPath (array : Ty) : String :=
  "core." ++ (array.builtinName?).getD "Array" ++ ".<get-size>"

/-- The path of the step checks. -/
def stepCheckPath : String := "core.internal.checkProgressionStep"

/-- The strings declaring the builtin helpers interns, in order: the segments of every size
accessor's path, those of the step checks' path, the name of the step parameter, and the
standard idiom names. -/
def builtinHelperWords : List String :=
  Ty.arrayClasses.flatMap (fun array => (DottedName.parse (sizeAccessorPath array)).segments) ++
    (DottedName.parse stepCheckPath).segments ++ ["step"] ++ Spelling.standardWords

/-- Declares the builtin helpers: a size accessor, returning `Int`, on every array class,
then a step check for `Int` and for `Long` steps. Returns the extended table, the interner
with every name of the helpers interned (or why interning stopped), and the standard
configuration over these helpers. -/
def declareBuiltinHelpers (sigs : SignatureTable) (names : Interner) :
    SignatureTable × Except InternError Interner × Config :=
  let (sigs, sizes) := Ty.arrayClasses.foldl
    (fun (acc : SignatureTable × HelperTable) array =>
      let (sigs, sizes) := acc
      let (sigs, f) := sigs.declare
        { name := DottedName.parse (sizeAccessorPath array), params := [],
          dispatch := some array, extension := none, returns := Ty.int }
      (sigs, sizes.insert array f))
    (sigs, HelperTable.empty)
  let checkName := DottedName.parse stepCheckPath
  let (sigs, checks) := [Ty.int, Ty.long].foldl
    (fun (acc : SignatureTable × HelperTable) stepType =>
      let (sigs, checks) := acc
      let (sigs, f) := sigs.declare
        { name := checkName, params := [stepType], dispatch := none, extension := none,
          returns := stepType }
      (sigs, checks.insert stepType f))
    (sigs, HelperTable.empty)
  (sigs, names.internEvery builtinHelperWords, Config.make Spelling.standard sizes checks)

end ProgressionIdioms
