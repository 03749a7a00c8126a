import ProgressionIdioms.Code.Node
import ProgressionIdioms.Names.Dotted
import ProgressionIdioms.OutOfRange
/-!
# Callee signatures

What the recogniser knows about a callee: its dotted name, its parameter types, its
receivers and its return type. Signatures are kept in a table and named by position.
-/

namespace ProgressionIdioms

/-- The declared shape of a callee. -/
structure Signature where
  /-- The callee's dotted name. -/
  name : DottedName
  /-- The parameter types, in order. -/
  params : List Ty
  /-- The type of the receiver the callee dispatches on, if it has one. -/
  dispatch : Option Ty
  /-- The type of the receiver of an extension callee, if it has one. -/
  extension : Option Ty
  /-- The return type. -/
  returns : Ty
deriving DecidableEq, Repr

/-- A table of signatures, indexed by position. -/
structure SignatureTable where
  /-- The signatures, that of id `i` at position `i`. -/
  sigs : Array Signature
deriving Repr

namespace SignatureTable

/-- The table with no signatures. -/
def empty : SignatureTable := ⟨#[]⟩

/-- The number of signatures. -/
def size (t : SignatureTable) : Nat := t.sigs.size

/-- The signature of an id, if there is one. -/
def get? (t : SignatureTable) (f : FnId) : Option Signature := t.sigs[f]?

/-- The signature of an id, or a read past the end. -/
def getOrStop (t : SignatureTable) (f : FnId) : Except OutOfRange Signature :=
  match t.get? f with
  | some s => .ok s
  | none => .error ⟨t.size, f⟩

/-- Appends a signature and returns its id. -/
def declare (t : SignatureTable) (s : Signature) : SignatureTable × FnId :=
  (⟨t.sigs.push s⟩, t.size)

@[simp]
theorem size_declare (t : SignatureTable) (s : Signature) :
    (t.declare s).1.size = t.size + 1 := by
  simp [declare, size]

/-- Declaring keeps every signature that was there. -/
theorem get?_declare_of_lt (t : SignatureTable) (s : Signature) {f : FnId} (h : f < t.size) :
    (t.declare s).1.get? f = t.get? f := by
  simp only [declare, get?]
  rw [Array.getElem?_push_lt h, Array.getElem?_eq_getElem h]

end SignatureTable

end ProgressionIdioms
