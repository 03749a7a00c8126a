import ProgressionIdioms.Recognize.Fault
import ProgressionIdioms.Code.Store
import ProgressionIdioms.Code.Signature
/-!
# Computations over the node store

Recognition reads nodes and appends new ones as it goes, and may stop part way. A stop
keeps every node appended before it, so the store is the outer layer and the stop the
inner: `ExceptT Stop (StateM NodeStore)`. A computation runs on a node arena through the
arena's view, and the nodes it appended are then laid out in the arena.
-/

namespace ProgressionIdioms

/-- A computation that reads and appends to a node store and may stop; nodes appended
before a stop stay in the store. -/
abbrev StoreM := ExceptT Stop (StateM NodeStore)

namespace StoreM

/-- Runs a computation on a store: its outcome and the store it leaves. -/
def runOn {α : Type} (m : StoreM α) (s : NodeStore) : Except Stop α × NodeStore :=
  m.run.run s

/-- Runs a computation on the nodes of an arena. The nodes it appends are laid out in the arena
in the order it appended them, and the first that does not fit stops with an overflow, keeping
those laid out before it. As a stop ends the computation and every node it appended came
before its end, this is laying each node out the moment it is appended. -/
def runArena {α : Type} (m : StoreM α) (a : NodeArena) : Except Stop α × NodeArena :=
  let (r, s) := m.runOn a.view
  match a.layOutAll ((s.since a.size).map Prod.snd) with
  | (a', none) => (r, a')
  | (a', some e) => (.error (.overflow e), a')

/-- The node of an id; an id past the end stops. -/
def node (id : NodeId) : StoreM Node := do
  let s ← get
  match s.get? id with
  | some n => pure n
  | none => throw (.outOfRange ⟨s.size, id⟩)

/-- Appends a node and returns its id. -/
def append (n : Node) : StoreM NodeId := do
  let s ← get
  set (s.push n).1
  pure s.size

/-- The signature of a callee; an id past the end of the table stops. -/
def signature (sigs : SignatureTable) (f : FnId) : StoreM Signature :=
  match sigs.get? f with
  | some sig => pure sig
  | none => throw (.outOfRange ⟨sigs.size, f⟩)

/-- A part of a call that its callee declares; a call lacking it is malformed. -/
def require (c : Call) (what : CallPart) : StoreM NodeId :=
  match c.part what with
  | some id => pure id
  | none => throw (.fault (.malformedCall c.callee what))

/-- Stops with a fault. -/
def fail {α : Type} (f : Fault) : StoreM α := throw (.fault f)

end StoreM

end ProgressionIdioms
