import ProgressionIdioms.Session.Script
import ProgressionIdioms.Code.Arena
/-!
# Building a session

A session is built from a script in four stages: the type declarations, the callee
declarations, the configuration, and the expression nodes. Each stage reads its entries in
order and stops at the first that cannot be read or that reads past the end of a table. The
expression nodes are laid out in a node arena, which the session keeps.
-/

namespace ProgressionIdioms

/-- Why a session could not be built, or an operation could not answer. -/
inductive Failure where
  /-- A matched idiom cannot be described. -/
  | fault (f : Fault)
  /-- A read past the end of a table. -/
  | outOfRange (e : OutOfRange)
  /-- A count past the width the node arena keeps it in. -/
  | overflow (e : ArenaOverflow)
  /-- The position one before the end of an empty sequence. -/
  | underflow
  /-- A string for an interner shard that is full. -/
  | interner (e : InternError)
  /-- The computation never ends. -/
  | endless
  /-- The input could not be read. -/
  | input (e : InputError)
deriving DecidableEq, Repr

/-- The failure a stopped recognition reports. -/
def Failure.ofStop : Stop → Failure
  | .fault f => .fault f
  | .outOfRange e => .outOfRange e
  | .loops => .endless
  | .overflow e => .overflow e
  | .underflow => .underflow

/-- Reads a script entry. -/
def readEntry {α : Type} (e : Except InputError α) : Except Failure α := e.mapError .input

/-- Resolves a type reference. -/
def resolveRef (declared : Array Ty) (r : TypeRef) : Except Failure Ty :=
  readEntry (r.resolve declared)

/-- Resolves type references in order. -/
def resolveRefs (declared : Array Ty) (rs : List TypeRef) : Except Failure (List Ty) :=
  readEntry (TypeRef.resolveAll declared rs)

/-- Resolves an optional type reference. -/
def resolveOptRef (declared : Array Ty) : Option TypeRef → Except Failure (Option Ty)
  | none => pure none
  | some r => some <$> resolveRef declared r

/-- A built session: the state every operation runs against. -/
structure Session where
  /-- The interner. -/
  names : Interner
  /-- The type table. -/
  types : TypeTable
  /-- The type made by each type declaration, in order. -/
  declared : Array Ty
  /-- The callee signatures. -/
  sigs : SignatureTable
  /-- The recogniser's configuration. -/
  config : Config
  /-- The expression nodes. -/
  arena : NodeArena

namespace Session

/-- The recognition context of a session. -/
def context (s : Session) : Context := ⟨s.types, s.sigs, s.config, Idiom.priority, .refl _⟩

end Session

/-- Applies one type declaration. -/
def declareType (t : TypeTable) (declared : Array Ty) : TypeDecl → Except Failure (TypeTable × Ty)
  | .nullable r => do
    let inner ← resolveRef declared r
    (t.nullable inner).mapError .outOfRange
  | .arrayOf r => do
    let elem ← resolveRef declared r
    pure (t.arrayOf elem)
  | .nominal name supers => do
    let ss ← resolveRefs declared supers
    (t.declareClass name ss).mapError .outOfRange

/-- Applies type declarations in order; each may refer to the ones before it. -/
def declareTypes (t : TypeTable) (declared : Array Ty) :
    List (Except InputError TypeDecl) → Except Failure (TypeTable × Array Ty)
  | [] => pure (t, declared)
  | e :: rest => do
    let decl ← readEntry e
    let (t', ty) ← declareType t declared decl
    declareTypes t' (declared.push ty) rest

/-- The names of the first `n` parameters. -/
def paramNames (n : Nat) : List String := (List.range n).map fun i => "p" ++ toString i

/-- What the callee stage produces: the interner, the signatures, and the configuration of the
last builtin helpers, if any were declared. -/
structure Callees where
  /-- The interner. -/
  names : Interner
  /-- The signatures. -/
  sigs : SignatureTable
  /-- The configuration of the last builtin helpers declared. -/
  builtinConfig : Option Config

/-- Interns strings in order, failing at the first that overflows its shard. -/
def internStrings (names : Interner) (ss : List String) : Except Failure Interner :=
  (names.internEvery ss).mapError .interner

/-- Reads a dotted path and interns its segments in order, as a qualified name does; the string
form is what signatures and patterns compare. A segment that overflows its shard stops, keeping
the segments interned before it. -/
def internPath (names : Interner) (path : String) : Interner × Except Failure DottedName :=
  match QualifiedName.parse names path with
  | (names, .ok _) => (names, .ok (DottedName.parse path))
  | (names, .error e) => (names, .error (.interner e))

/-- Applies one callee declaration: the segments of its path are interned, then the names of
its parameters. -/
def declareCallee (declared : Array Ty) (acc : Callees) : FnDecl → Except Failure Callees
  | .builtins => do
    let (sigs, names, config) := declareBuiltinHelpers acc.sigs acc.names
    let names ← names.mapError .interner
    pure ⟨names, sigs, some config⟩
  | .callee path returns params dispatch extension => do
    let ret ← resolveRef declared returns
    let ps ← resolveRefs declared params
    let d ← resolveOptRef declared dispatch
    let x ← resolveOptRef declared extension
    let (names, name) := internPath acc.names path
    let name ← name
    let names ← internStrings names (paramNames ps.length)
    let (sigs, _) := acc.sigs.declare ⟨name, ps, d, x, ret⟩
    pure ⟨names, sigs, acc.builtinConfig⟩

/-- Applies callee declarations in order. -/
def declareCallees (declared : Array Ty) (acc : Callees) :
    List (Except InputError FnDecl) → Except Failure Callees
  | [] => pure acc
  | e :: rest => do
    let decl ← readEntry e
    let acc' ← declareCallee declared acc decl
    declareCallees declared acc' rest

/-- Resolves the types of helper registrations. -/
def resolveHelpers (declared : Array Ty) : List (TypeRef × FnId) → Except Failure (List (Ty × FnId))
  | [] => pure []
  | (r, f) :: rest => do
    let t ← resolveRef declared r
    let more ← resolveHelpers declared rest
    pure ((t, f) :: more)

/-- Resolves optional helper registrations, an absent list giving none. -/
def resolveOptHelpers (declared : Array Ty) :
    Option (List (TypeRef × FnId)) → Except Failure (List (Ty × FnId))
  | none => pure []
  | some ps => resolveHelpers declared ps

/-- Replaces a class set when a replacement is given. -/
def replaceClasses (declared : Array Ty) (current : ClassSet) :
    Option (List TypeRef) → Except Failure ClassSet
  | none => pure current
  | some rs => ClassSet.mk <$> resolveRefs declared rs

/-- Applies replacements for the idiom names, interning each in the order of the idioms. -/
def renameIdioms (names : Interner) (sp : Spelling) (d : NamesDecl) :
    Except Failure (Interner × Spelling) := do
  let (names, sp) ← match d.rangeTo with
    | some s => do
      let names ← internStrings names [s]
      pure (names, { sp with rangeTo := s })
    | none => pure (names, sp)
  let path (names : Interner) (p : String) : Except Failure (Interner × DottedName) := do
    let (names, n) := internPath names p
    pure (names, ← n)
  let (names, sp) ← match d.downTo with
    | some p => do let (names, n) ← path names p; pure (names, { sp with downTo := n })
    | none => pure (names, sp)
  let (names, sp) ← match d.upUntil with
    | some p => do let (names, n) ← path names p; pure (names, { sp with upUntil := n })
    | none => pure (names, sp)
  let (names, sp) ← match d.step with
    | some p => do let (names, n) ← path names p; pure (names, { sp with step := n })
    | none => pure (names, sp)
  match d.indices with
  | some p => do let (names, n) ← path names p; pure (names, { sp with indices := n })
  | none => pure (names, sp)

/-- The configuration of a session. Given helper registrations, or no builtin helpers, give the
standard configuration over the given helpers; otherwise it is that of the last builtin
helpers. The replacements are applied after. -/
def configure (declared : Array Ty) (names : Interner) (builtinConfig : Option Config) :
    Option (Except InputError ConfigDecl) → Except Failure (Interner × Config)
  | none => pure (names, builtinConfig.getD (Config.make Spelling.standard .empty .empty))
  | some e => do
    let d ← readEntry e
    let sizes ← resolveOptHelpers declared d.sizeAccessors
    let checks ← resolveOptHelpers declared d.stepChecks
    let base := match builtinConfig with
      | some c =>
        if d.sizeAccessors.isSome || d.stepChecks.isSome then
          Config.make Spelling.standard (HelperTable.ofList sizes) (HelperTable.ofList checks)
        else c
      | none => Config.make Spelling.standard (HelperTable.ofList sizes) (HelperTable.ofList checks)
    let (names, spelling) ← renameIdioms names base.spelling d.names
    let progressionClasses ← replaceClasses declared base.progressionClasses d.progressionClasses
    let elementClasses ← replaceClasses declared base.elementClasses d.elementClasses
    let stepClasses ← replaceClasses declared base.stepClasses d.stepClasses
    let supportedArrays ← replaceClasses declared base.supportedArrays d.supportedArrays
    pure (names, { base with
      spelling := spelling, progressionClasses := progressionClasses,
      elementClasses := elementClasses, stepClasses := stepClasses,
      supportedArrays := supportedArrays })

/-- The type a literal has when none is given. -/
def Literal.defaultType : Literal → Ty
  | .bool _ => Ty.boolean
  | .int _ => Ty.int
  | .long _ => Ty.long
  | .char _ => Ty.char

/-- The node of an expression declaration. A call without a given type takes its callee's
return type, so its callee must exist. -/
def exprNode (declared : Array Ty) (sigs : SignatureTable) (names : Interner) :
    ExprDecl → Except Failure (Interner × Node)
  | .lit l ty span => do
    let t ← resolveOptRef declared ty
    pure (names, ⟨.lit l, t.getD l.defaultType, span⟩)
  | .var name ty span => do
    let t ← resolveRef declared ty
    let names ← internStrings names [name]
    pure (names, ⟨.var name, t, span⟩)
  | .call c ty span => do
    let t ← match ty with
      | some r => resolveRef declared r
      | none => (Signature.returns <$> sigs.getOrStop c.callee).mapError .outOfRange
    pure (names, ⟨.call c, t, span⟩)
  | .block parts ty span => do
    let t ← resolveRef declared ty
    pure (names, ⟨.block parts, t, span⟩)

/-- Lays the expression nodes out in the arena, in order. -/
def addExprs (declared : Array Ty) (sigs : SignatureTable) (names : Interner) (arena : NodeArena) :
    List (Except InputError ExprDecl) → Except Failure (Interner × NodeArena)
  | [] => pure (names, arena)
  | e :: rest => do
    let decl ← readEntry e
    let (names', n) ← exprNode declared sigs names decl
    let (arena', _) ← (arena.layOut n).mapError .overflow
    addExprs declared sigs names' arena' rest

/-- Builds the session a script describes. -/
def Script.build (s : Script) : Except Failure Session := do
  let (types, declared) ← declareTypes TypeTable.builtin #[] s.types
  let names ← Interner.new.mapError .interner
  let callees ← declareCallees declared ⟨names, SignatureTable.empty, none⟩ s.functions
  let (names, config) ← configure declared callees.names callees.builtinConfig s.config
  let (names, arena) ← addExprs declared callees.sigs names NodeArena.empty s.exprs
  pure { names, types, declared, sigs := callees.sigs, config, arena }

end ProgressionIdioms
