import ProgressionIdioms.Names.Interner
/-!
# Dotted names

A dotted name is a path of segments such as `core.ranges.rangeTo`. The empty path has no
segments; any other path is cut at every dot, so segments may be empty. Callee signatures and
the patterns that match them compare these segments as strings.

A qualified name holds the interned names of the segments instead: reading a path interns
each segment in order, and displaying the name looks each segment up and puts dots between.
-/

namespace ProgressionIdioms

/-- A path of name segments, outermost first. -/
structure DottedName where
  /-- The segments, outermost first. -/
  segments : List String
deriving DecidableEq, Repr, Inhabited

namespace DottedName

/-- Reads a dotted path: no segments for the empty path, otherwise the pieces between dots,
cut character by character. -/
def parse (path : String) : DottedName :=
  if path.isEmpty then ⟨[]⟩ else ⟨(path.toList.splitOn '.').map String.ofList⟩

/-- The innermost segment, if there is one. -/
def last? (n : DottedName) : Option String := n.segments.getLast?

end DottedName

/-- A qualified name: the interned names of its segments, outermost first. -/
structure QualifiedName where
  /-- The names of the segments, outermost first. -/
  segments : List Name
deriving DecidableEq, Repr

namespace QualifiedName

/-- Reads a dotted path and interns its segments in order; the empty path is the root, with no
segments. A segment that overflows its shard stops, keeping the segments interned before it. -/
def parse (i : Interner) (path : String) : Interner × Except InternError QualifiedName :=
  let (i', ns) := i.internAll (DottedName.parse path).segments
  (i', QualifiedName.mk <$> ns)

/-- The name of the innermost segment, if there is one. -/
def last? (q : QualifiedName) : Option Name := q.segments.getLast?

/-- Whether the name has no segments. -/
def isRoot (q : QualifiedName) : Bool := q.segments.isEmpty

/-- The dotted path a name spells: each segment looked up in the interner, with dots between.
A name the interner cannot look up is a read past the end. -/
def display (q : QualifiedName) (i : Interner) : Except OutOfRange String :=
  (".".intercalate ·) <$> q.segments.mapM i.lookup

end QualifiedName

end ProgressionIdioms
