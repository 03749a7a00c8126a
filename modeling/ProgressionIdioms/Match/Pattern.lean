import ProgressionIdioms.Match.ClassSet
import ProgressionIdioms.Code.Signature
/-!
# Signature patterns

A pattern is a list of requirements on a callee's signature, and accepts a signature when
every requirement holds.
-/

namespace ProgressionIdioms

/-- How a callee's name is compared. -/
inductive NameTest where
  /-- The whole dotted name must be this one. -/
  | exact (n : DottedName)
  /-- Only the innermost segment must be this one. -/
  | lastSegment (s : String)
deriving DecidableEq, Repr

/-- Whether a dotted name passes a name test. -/
def NameTest.holds : NameTest → DottedName → Bool
  | .exact n, m => m == n
  | .lastSegment s, m => m.last? == some s

/-- One requirement on a signature. -/
inductive Requirement where
  /-- The name passes a test. -/
  | name (test : NameTest)
  /-- There are exactly this many parameters. -/
  | paramCount (n : Nat)
  /-- The parameter at this position exists and the set admits its type. -/
  | param (index : Nat) (classes : ClassSet)
  /-- There is a dispatch receiver and the set admits its type. -/
  | dispatch (classes : ClassSet)
  /-- There is an extension receiver and the set admits its type. -/
  | extension (classes : ClassSet)
deriving DecidableEq, Repr

/-- Whether an optional type is present and admitted by a class set. -/
def ClassSet.admitsSome (c : ClassSet) (t : TypeTable) : Option Ty → Bool
  | some ty => c.admits t ty
  | none => false

/-- Whether a signature meets a requirement. -/
def Requirement.holds (t : TypeTable) (sig : Signature) : Requirement → Bool
  | .name test => test.holds sig.name
  | .paramCount n => sig.params.length == n
  | .param i c => c.admitsSome t sig.params[i]?
  | .dispatch c => c.admitsSome t sig.dispatch
  | .extension c => c.admitsSome t sig.extension

/-- A conjunction of requirements on a signature. -/
structure Pattern where
  /-- The requirements, all of which must hold. -/
  reqs : List Requirement
deriving DecidableEq, Repr

namespace Pattern

/-- Whether every requirement holds of a signature. -/
def accepts (p : Pattern) (t : TypeTable) (sig : Signature) : Bool :=
  p.reqs.all (Requirement.holds t sig)

/-- The three requirements of a one-argument extension callee of an exact name. -/
def extensionOfOne (name : DottedName) (receivers : ClassSet) : List Requirement :=
  [.extension receivers, .paramCount 1, .name (.exact name)]

end Pattern

end ProgressionIdioms
