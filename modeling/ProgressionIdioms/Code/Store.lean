import ProgressionIdioms.Code.Node
/-!
# The node store

An append-only array of nodes. A node's id is its position, so appending never changes a
node that is already there.
-/

namespace ProgressionIdioms

/-- An append-only store of nodes, indexed by position. -/
structure NodeStore where
  /-- The nodes, the node of id `i` at position `i`. -/
  nodes : Array Node
deriving Repr

namespace NodeStore

/-- The store with no nodes. -/
def empty : NodeStore := ⟨#[]⟩

/-- The number of nodes. -/
def size (s : NodeStore) : Nat := s.nodes.size

/-- The node of an id, if there is one. -/
def get? (s : NodeStore) (id : NodeId) : Option Node := s.nodes[id]?

/-- Appends a node and returns its id, the old size. -/
def push (s : NodeStore) (n : Node) : NodeStore × NodeId := (⟨s.nodes.push n⟩, s.size)

@[simp]
theorem size_push (s : NodeStore) (n : Node) : (s.push n).1.size = s.size + 1 := by
  simp [push, size]

@[simp]
theorem push_id (s : NodeStore) (n : Node) : (s.push n).2 = s.size := rfl

/-- Appending keeps every node that was there. -/
theorem get?_push_of_lt (s : NodeStore) (n : Node) {id : NodeId} (h : id < s.size) :
    (s.push n).1.get? id = s.get? id := by
  simp only [push, get?]
  rw [Array.getElem?_push_lt h, Array.getElem?_eq_getElem h]

/-- The appended node sits at the old size. -/
@[simp]
theorem get?_push_size (s : NodeStore) (n : Node) : (s.push n).1.get? s.size = some n := by
  simp [push, get?, size]

/-- `after` keeps every node of `before`, at the same id. -/
def Extends (before after : NodeStore) : Prop :=
  ∀ (id : NodeId) (n : Node), before.get? id = some n → after.get? id = some n

theorem Extends.refl (s : NodeStore) : Extends s s := fun _ _ h => h

theorem Extends.trans {a b c : NodeStore} (hab : Extends a b) (hbc : Extends b c) :
    Extends a c := fun id n h => hbc id n (hab id n h)

/-- Appending a node extends the store. -/
theorem extends_push (s : NodeStore) (n : Node) : Extends s (s.push n).1 := by
  intro id m h
  have hid : id < s.size := (Array.getElem?_eq_some_iff.mp h).1
  rw [get?_push_of_lt s n hid]
  exact h

/-- The nodes from position `start` on, each with its id. -/
def since (s : NodeStore) (start : Nat) : List (NodeId × Node) :=
  ((s.nodes.toList.zipIdx).drop start).map fun (n, i) => (i, n)

end NodeStore

end ProgressionIdioms
