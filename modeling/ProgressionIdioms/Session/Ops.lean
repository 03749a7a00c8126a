import ProgressionIdioms.Session.Build
/-!
# Running operations

Operations run in order against one session: recognition appends nodes and interning adds
strings, and later operations see both. An operation that fails answers with its failure and
leaves the session as the failure found it, so nodes appended before a stop stay.
-/

namespace ProgressionIdioms

/-- The answer of one operation. -/
inductive Answer where
  /-- A recognition: the description if any, the nodes appended with their ids, the number of
  nodes after, and, when asked for, the step as one node. -/
  | recognized (info : Option Progression) (added : List (NodeId × Node)) (size : Nat)
      (step : Option (Option NodeId))
  /-- A node with its id. -/
  | node (id : NodeId) (n : Node)
  /-- The number of nodes. -/
  | size (n : Nat)
  /-- A progression kind, if any. -/
  | kind (k : Option Kind)
  /-- A yes or no. -/
  | truth (b : Bool)
  /-- A class, if any. -/
  | classOf (c : Option Ty)
  /-- A type. -/
  | type (t : Ty)
  /-- A type's name. -/
  | text (s : String)
  /-- Idioms in priority order. -/
  | idioms (is : List Idiom)
  /-- Whether a pattern accepted, and how many requirements it has. -/
  | matched (b : Bool) (count : Nat)
  /-- Interned names, and the number of strings interned. -/
  | names (ns : List Name) (size : Nat)
  /-- A qualified name: its number of segments, whether it is the root, its innermost segment
  and its display. -/
  | dotted (segments : Nat) (root : Bool) (last : Option String) (display : String)
  /-- The constants of a kind. -/
  | kindInfo (k : Kind)
  /-- The helpers registered for a type, whether it has indices, and how many arrays do. -/
  | helpers (size check : Option FnId) (supported : Bool) (count : Nat)
  /-- The operation failed. -/
  | failed (f : Failure)
deriving Repr

/-- The outcome of a script: a failure while building, or the declared types, the number of
callees, and one answer per operation. -/
inductive Outcome where
  /-- Building the session failed. -/
  | rejected (f : Failure)
  /-- The session was built and every operation answered. -/
  | ran (types : List Ty) (functions : Nat) (answers : List Answer)
deriving Repr

/-- The requirements a requirement declaration stands for, after interning its names. A path
is interned segment by segment, and one that overflows a shard keeps the segments before it. -/
def RequirementDecl.toRequirements (declared : Array Ty) (names : Interner) :
    RequirementDecl → Interner × Except Failure (List Requirement)
  | .name path =>
    let (names, n) := internPath names path
    (names, n.map fun n => [.name (.exact n)])
  | .last seg =>
    match names.intern seg with
    | .ok (names, _) => (names, .ok [.name (.lastSegment seg)])
    | .error e => (names, .error (.interner e))
  | .count n => (names, .ok [.paramCount n])
  | .param i cs => (names, (fun c => [.param i ⟨c⟩]) <$> resolveRefs declared cs)
  | .dispatch cs => (names, (fun c => [.dispatch ⟨c⟩]) <$> resolveRefs declared cs)
  | .extension cs => (names, (fun c => [.extension ⟨c⟩]) <$> resolveRefs declared cs)
  | .extensionOfOne path cs =>
    -- the classes are resolved before the path is interned
    match resolveRefs declared cs with
    | .error e => (names, .error e)
    | .ok c =>
      let (names, n) := internPath names path
      (names, n.map fun n => Pattern.extensionOfOne n ⟨c⟩)

/-- The pattern of requirement declarations read one at a time: each one's names are
interned as it is read, and the first that cannot be read stops the pattern, keeping the
names interned before it. -/
def patternOf (declared : Array Ty) (names : Interner) :
    List (Except InputError RequirementDecl) → Interner × Except Failure (List Requirement)
  | [] => (names, .ok [])
  | .error e :: _ => (names, .error (.input e))
  | .ok d :: rest =>
    match d.toRequirements declared names with
    | (names, .error f) => (names, .error f)
    | (names, .ok rs) =>
      let (names, more) := patternOf declared names rest
      (names, (rs ++ ·) <$> more)

/-- Interns strings read one at a time, with their names; the first that cannot be read or
that overflows its shard stops the interning, keeping the strings interned before it. -/
def internEach (names : Interner) :
    List (Except InputError String) → Interner × Except Failure (List Name)
  | [] => (names, .ok [])
  | .error e :: _ => (names, .error (.input e))
  | .ok s :: rest =>
    match names.intern s with
    | .error e => (names, .error (.interner e))
    | .ok (names, n) =>
      let (names, ns) := internEach names rest
      (names, (n :: ·) <$> ns)

namespace Session

/-- Recognises a node in the session's arena, and builds its step as one node when asked to.
The nodes appended are laid out in the arena as they come. -/
def recognizeOp (s : Session) (e : NodeId) (withStep : Bool) : Session × Answer :=
  let before := s.arena.size
  let run : StoreM (Option Progression × Option (Option NodeId)) := do
    let info ← s.context.recognize e
    if withStep then
      match info with
      | some p => pure (info, some (← p.stepNode))
      | none => pure (info, some none)
    else pure (info, none)
  match run.runArena s.arena with
  | (.ok (info, step), arena) =>
    ({ s with arena }, .recognized info (arena.view.since before) arena.size step)
  | (.error stop, arena) => ({ s with arena }, .failed (Failure.ofStop stop))

/-- Answers from a type reference, or its problem. -/
def withType (s : Session) (r : TypeRef) (f : Ty → Answer) : Answer :=
  match resolveRef s.declared r with
  | .ok t => f t
  | .error e => .failed e

/-- Runs one operation. -/
def perform (s : Session) : Op → Session × Answer
  | .recognize e withStep => s.recognizeOp e withStep
  | .node e =>
    match s.arena.get e with
    | .ok n => (s, .node e (s.arena.decode n))
    | .error err => (s, .failed (.outOfRange err))
  | .size => (s, .size s.arena.size)
  | .kind r => (s, s.withType r fun t => .kind (s.types.kindOf t))
  | .subtype a b =>
    match resolveRef s.declared a, resolveRef s.declared b with
    | .ok sub, .ok sup => (s, .truth (s.types.isSubtype sub sup))
    | .error e, _ => (s, .failed e)
    | _, .error e => (s, .failed e)
  | .classifier r => (s, s.withType r fun t => .classOf (s.types.classifier t))
  | .stripNullable r => (s, s.withType r fun t => .type (s.types.stripNullable t))
  | .display r =>
    (s, s.withType r fun t =>
      match s.types.render t with
      | some n => .text n
      | none => .failed .endless)
  | .idioms f =>
    match s.sigs.get? f with
    | some sig => (s, .idioms (acceptingIdioms s.config s.types sig))
    | none => (s, .failed (.outOfRange ⟨s.sigs.size, f⟩))
  | .idiomOrder => (s, .idioms s.context.handlers)
  | .matcher ds f =>
    let (names, reqs) := patternOf s.declared s.names ds
    let s := { s with names }
    match reqs, f with
    | .error e, _ => (s, .failed e)
    | .ok _, .error e => (s, .failed (.input e))
    | .ok reqs, .ok f =>
      match s.sigs.get? f with
      | some sig => (s, .matched ((Pattern.mk reqs).accepts s.types sig) reqs.length)
      | none => (s, .failed (.outOfRange ⟨s.sigs.size, f⟩))
  | .intern strings =>
    let (names, ns) := internEach s.names strings
    match ns with
    | .ok ns => ({ s with names }, .names ns names.len)
    | .error e => ({ s with names }, .failed e)
  | .dotted path =>
    let (names, q) := QualifiedName.parse s.names path
    let s := { s with names }
    match q with
    | .error e => (s, .failed (.interner e))
    | .ok q =>
      match q.last?.mapM names.lookup, q.display names with
      | .ok last, .ok text => (s, .dotted q.segments.length q.isRoot last text)
      | .error e, _ => (s, .failed (.outOfRange e))
      | _, .error e => (s, .failed (.outOfRange e))
  | .kindInfo k => (s, .kindInfo k)
  | .helpers r =>
    (s, s.withType r fun t =>
      .helpers (s.config.sizeAccessor? t) (s.config.stepCheck? t)
        (s.config.supportedArrays.contains t) s.config.supportedArrays.card)

/-- Runs operations in order, each against the session the one before left. -/
def performAll (s : Session) : List (Except InputError Op) → Session × List Answer
  | [] => (s, [])
  | .error e :: rest =>
    let (s', answers) := s.performAll rest
    (s', .failed (.input e) :: answers)
  | .ok op :: rest =>
    let (s1, a) := s.perform op
    let (s2, answers) := s1.performAll rest
    (s2, a :: answers)

end Session

/-- Runs a script: builds its session, then runs its operations. -/
def Script.run (s : Script) : Outcome :=
  match s.build with
  | .error f => .rejected f
  | .ok session =>
    let (_, answers) := session.performAll s.ops
    .ran session.declared.toList session.sigs.size answers

end ProgressionIdioms
