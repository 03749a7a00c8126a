import ProgressionIdioms.Code.Store
import ProgressionIdioms.OutOfRange
/-!
# The node arena

The node store as the compiler lays it out: three parallel arrays holding the kind, the span
and the type of each node at its id, and one flat array holding every list of node ids (call
arguments, block parts) end to end. A node refers to a list by the range the list occupies in
the flat array; every empty list gets the same range, at offset 0 with length 0. Offsets are
32-bit and list lengths 16-bit, and a count past its width stops the computation.

Nothing in the arena is ever rewritten, so an id or a range handed out keeps its meaning.
Reading every node's ranges back gives the node store with its lists inline
(`NodeArena.view`), which is what recognition works on.
-/

namespace ProgressionIdioms

/-- A count too large for the width it is narrowed to. -/
inductive ArenaOverflow where
  /-- A count past the 32-bit range: of nodes, or of ids in the flat list array. -/
  | tooMany (what : String) (count : Nat)
  /-- A list longer than a 16-bit length allows. -/
  | tooLong (what : String) (count : Nat)
deriving DecidableEq, Repr

/-- The message reported for an overflow. -/
def ArenaOverflow.message : ArenaOverflow → String
  | .tooMany what n => "too many " ++ what ++ ": " ++ toString n ++ " exceeds u32::MAX"
  | .tooLong what n => what ++ " too long: " ++ toString n ++ " exceeds u16::MAX"

/-- A count narrowed to a fixed width: below `bound` it is `mk` of the count, and at or past
`bound` the narrowing stops with `overflow` of the count. -/
def narrow {β : Type} (bound : Nat) (mk : (n : Nat) → n < bound → β)
    (overflow : Nat → ArenaOverflow) (n : Nat) : Except ArenaOverflow β :=
  if h : n < bound then pure (mk n h) else throw (overflow n)

/-- A count as a 32-bit number; `what` names the things counted. -/
def toU32 (n : Nat) (what : String) : Except ArenaOverflow UInt32 :=
  narrow UInt32.size UInt32.ofNatLT (.tooMany what) n

/-- A length as a 16-bit number; `what` names the thing measured. -/
def toU16 (n : Nat) (what : String) : Except ArenaOverflow UInt16 :=
  narrow UInt16.size UInt16.ofNatLT (.tooLong what) n

section Narrow

variable {β : Type} {bound n : Nat} {mk : (n : Nat) → n < bound → β} {overflow : Nat → ArenaOverflow}

theorem narrow_of_lt (h : n < bound) : narrow bound mk overflow n = .ok (mk n h) := by
  simp only [narrow, dif_pos h]
  rfl

theorem narrow_of_le (h : bound ≤ n) : narrow bound mk overflow n = .error (overflow n) := by
  simp only [narrow, dif_neg (Nat.not_lt.mpr h)]
  rfl

end Narrow

/-- A slice of the flat list array that ends past the array's end. -/
structure SliceOutOfRange where
  /-- The offset just past the slice. -/
  stop : Nat
  /-- The length of the array. -/
  size : Nat
deriving DecidableEq, Repr

/-- The message reported for a slice past the end. -/
def SliceOutOfRange.message (e : SliceOutOfRange) : String :=
  "range end index " ++ toString e.stop ++ " out of range for slice of length " ++
    toString e.size

/-- Where a list sits in the flat list array: its first offset and its length. -/
structure ListRange where
  /-- The offset of the first id. -/
  start : UInt32
  /-- The number of ids. -/
  len : UInt16
deriving DecidableEq, Repr

namespace ListRange

/-- The range every empty list gets. -/
def empty : ListRange := ⟨0, 0⟩

/-- Whether the range holds no ids. -/
def isEmpty (r : ListRange) : Bool := r.len == 0

/-- The offset just past the range. -/
def stop (r : ListRange) : Nat := r.start.toNat + r.len.toNat

end ListRange

/-- A call as the arena holds it: its arguments are a range of the flat list array. -/
structure ArenaCall where
  /-- The signature called. -/
  callee : FnId
  /-- The receiver the call dispatches on, if any. -/
  dispatch : Option NodeId
  /-- The receiver of an extension call, if any. -/
  extension : Option NodeId
  /-- The range of the arguments. -/
  args : ListRange
deriving DecidableEq, Repr

/-- What a node is, with its lists held as ranges. -/
inductive ArenaKind where
  /-- A literal constant. -/
  | lit (l : Literal)
  /-- A variable reference. -/
  | var (name : String)
  /-- A call. -/
  | call (c : ArenaCall)
  /-- A sequence of nodes evaluated in order. -/
  | block (parts : ListRange)
deriving DecidableEq, Repr

/-- A node as it goes into the arena and comes out of it. -/
structure ArenaNode where
  /-- What the node is. -/
  kind : ArenaKind
  /-- The node's type. -/
  ty : Ty
  /-- The node's source span. -/
  span : Span
deriving DecidableEq, Repr

/-- The entry at position `i` of an array, or a read past the end. -/
def readAt {α : Type} (xs : Array α) (i : Nat) : Except OutOfRange α :=
  match xs[i]? with
  | some x => pure x
  | none => throw ⟨xs.size, i⟩

@[simp]
theorem readAt_eq_ok_iff {α : Type} {xs : Array α} {i : Nat} {x : α} :
    readAt xs i = .ok x ↔ xs[i]? = some x := by
  unfold readAt
  split <;> simp_all [pure, Except.pure, throw, throwThe, MonadExceptOf.throw]

/-- The arena: three parallel arrays indexed by node id, which only grow together, and the
flat array of list entries. -/
structure NodeArena where
  /-- The kind of each node. -/
  kinds : Array ArenaKind
  /-- The span of each node. -/
  spans : Array Span
  /-- The type of each node. -/
  types : Array Ty
  /-- Every list of node ids, end to end. -/
  lists : Array NodeId
  spans_size : spans.size = kinds.size
  types_size : types.size = kinds.size

namespace NodeArena

/-- The arena with no nodes and no lists. -/
def empty : NodeArena := ⟨#[], #[], #[], #[], rfl, rfl⟩

/-- The number of nodes. -/
def size (a : NodeArena) : Nat := a.kinds.size

/-- Puts a node at the end of the parallel arrays. -/
def appendNode (a : NodeArena) (n : ArenaNode) : NodeArena where
  kinds := a.kinds.push n.kind
  spans := a.spans.push n.span
  types := a.types.push n.ty
  lists := a.lists
  spans_size := by simp [a.spans_size]
  types_size := by simp [a.types_size]

/-- Puts ids at the end of the flat list array. -/
def appendList (a : NodeArena) (ids : List NodeId) : NodeArena :=
  { a with lists := a.lists ++ ids.toArray }

@[simp] theorem size_empty : empty.size = 0 := rfl

@[simp] theorem lists_empty : empty.lists = #[] := rfl

@[simp] theorem kinds_appendNode (a : NodeArena) (n : ArenaNode) :
    (a.appendNode n).kinds = a.kinds.push n.kind := rfl

@[simp] theorem spans_appendNode (a : NodeArena) (n : ArenaNode) :
    (a.appendNode n).spans = a.spans.push n.span := rfl

@[simp] theorem types_appendNode (a : NodeArena) (n : ArenaNode) :
    (a.appendNode n).types = a.types.push n.ty := rfl

@[simp] theorem lists_appendNode (a : NodeArena) (n : ArenaNode) :
    (a.appendNode n).lists = a.lists := rfl

@[simp] theorem size_appendNode (a : NodeArena) (n : ArenaNode) :
    (a.appendNode n).size = a.size + 1 := by
  simp [size]

@[simp] theorem kinds_appendList (a : NodeArena) (ids : List NodeId) :
    (a.appendList ids).kinds = a.kinds := rfl

@[simp] theorem spans_appendList (a : NodeArena) (ids : List NodeId) :
    (a.appendList ids).spans = a.spans := rfl

@[simp] theorem types_appendList (a : NodeArena) (ids : List NodeId) :
    (a.appendList ids).types = a.types := rfl

@[simp] theorem lists_appendList (a : NodeArena) (ids : List NodeId) :
    (a.appendList ids).lists = a.lists ++ ids.toArray := rfl

@[simp] theorem size_appendList (a : NodeArena) (ids : List NodeId) :
    (a.appendList ids).size = a.size := rfl

/-- Appends a node and returns its id, the number of nodes before it. -/
def push (a : NodeArena) (n : ArenaNode) : Except ArenaOverflow (NodeArena × NodeId) := do
  let id ← toU32 a.size "expressions"
  pure (a.appendNode n, id.toNat)

/-- Appends a literal. -/
def pushLit (a : NodeArena) (l : Literal) (ty : Ty) (span : Span) :
    Except ArenaOverflow (NodeArena × NodeId) :=
  a.push ⟨.lit l, ty, span⟩

/-- Appends a variable reference. -/
def pushVar (a : NodeArena) (name : String) (ty : Ty) (span : Span) :
    Except ArenaOverflow (NodeArena × NodeId) :=
  a.push ⟨.var name, ty, span⟩

/-- Appends a call. -/
def pushCall (a : NodeArena) (c : ArenaCall) (ty : Ty) (span : Span) :
    Except ArenaOverflow (NodeArena × NodeId) :=
  a.push ⟨.call c, ty, span⟩

/-- Stores a list of ids and returns its range. The empty list stores nothing and gets the
empty range. The compiler writes the ids before it narrows their count; the entries a failed
narrowing leaves behind belong to no range and are never read, so a stop here keeps none of
them. -/
def pushList (a : NodeArena) (ids : List NodeId) : Except ArenaOverflow (NodeArena × ListRange) :=
  if ids.isEmpty then pure (a, .empty) else do
    let start ← toU32 a.lists.size "expression lists"
    let len ← toU16 ids.length "expression list"
    pure (a.appendList ids, ⟨start, len⟩)

/-- Stores the parts of a block, then appends the block. -/
def pushComposite (a : NodeArena) (parts : List NodeId) (ty : Ty) (span : Span) :
    Except ArenaOverflow (NodeArena × NodeId) := do
  let (a, r) ← a.pushList parts
  a.push ⟨.block r, ty, span⟩

/-- The kind of a node. -/
def kind (a : NodeArena) (id : NodeId) : Except OutOfRange ArenaKind := readAt a.kinds id

/-- The span of a node. -/
def span (a : NodeArena) (id : NodeId) : Except OutOfRange Span := readAt a.spans id

/-- The type of a node. -/
def ty (a : NodeArena) (id : NodeId) : Except OutOfRange Ty := readAt a.types id

/-- A whole node, put together from the parallel arrays. -/
def get (a : NodeArena) (id : NodeId) : Except OutOfRange ArenaNode := do
  let kind ← a.kind id
  let span ← a.span id
  let ty ← a.ty id
  pure ⟨kind, ty, span⟩

/-- The ids a range covers, cut at the end of the flat list array. -/
def slice (a : NodeArena) (r : ListRange) : List NodeId :=
  (a.lists.extract r.start.toNat r.stop).toList

/-- The list a range stands for. An empty range is the empty list wherever it starts; any
other range must end inside the flat list array. -/
def getList (a : NodeArena) (r : ListRange) : Except SliceOutOfRange (List NodeId) :=
  if r.isEmpty then pure []
  else if r.stop ≤ a.lists.size then pure (a.slice r)
  else throw ⟨r.stop, a.lists.size⟩

/-- The `i`-th argument of a call, if it has that many. -/
def callArg (a : NodeArena) (c : ArenaCall) (i : Nat) : Except SliceOutOfRange (Option NodeId) := do
  let args ← a.getList c.args
  pure args[i]?

/-- Lays out a node whose lists are inline: its list is stored first, then the node is
appended. -/
def layOut (a : NodeArena) (n : Node) : Except ArenaOverflow (NodeArena × NodeId) :=
  match n.kind with
  | .lit l => a.pushLit l n.ty n.span
  | .var x => a.pushVar x n.ty n.span
  | .call c => do
    let (a, args) ← a.pushList c.args
    a.pushCall ⟨c.callee, c.dispatch, c.extension, args⟩ n.ty n.span
  | .block parts => a.pushComposite parts n.ty n.span

/-- Lays nodes out one after another. The first that does not fit stops, with the arena as the
nodes before it left it. -/
def layOutAll (a : NodeArena) : List Node → NodeArena × Option ArenaOverflow
  | [] => (a, none)
  | n :: ns =>
    match a.layOut n with
    | .ok (a', _) => a'.layOutAll ns
    | .error e => (a, some e)

/-- The node with inline lists that an arena node stands for. -/
def decode (a : NodeArena) (n : ArenaNode) : Node :=
  match n.kind with
  | .lit l => ⟨.lit l, n.ty, n.span⟩
  | .var x => ⟨.var x, n.ty, n.span⟩
  | .call c => ⟨.call ⟨c.callee, c.dispatch, c.extension, a.slice c.args⟩, n.ty, n.span⟩
  | .block r => ⟨.block (a.slice r), n.ty, n.span⟩

/-- The node at a position of the arena. -/
def nodeAt (a : NodeArena) (i : Fin a.size) : ArenaNode :=
  have hk : i.1 < a.kinds.size := i.2
  have hs : i.1 < a.spans.size := a.spans_size ▸ i.2
  have ht : i.1 < a.types.size := a.types_size ▸ i.2
  ⟨a.kinds[i.1], a.types[i.1], a.spans[i.1]⟩

/-- The node store the arena holds: every node, in order, with its lists inline. -/
def view (a : NodeArena) : NodeStore := ⟨Array.ofFn fun i => a.decode (a.nodeAt i)⟩

end NodeArena

end ProgressionIdioms
