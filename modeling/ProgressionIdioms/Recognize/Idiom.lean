import ProgressionIdioms.Recognize.Config
import ProgressionIdioms.Match.Pattern
/-!
# The five idioms

A progression is written as `a.rangeTo(b)` (the member operator `a..b`), `a.downTo(b)`,
`a.until(b)`, `xs.indices`, or one of these under `p.step(s)`. Each idiom accepts callees of
one signature shape, built from the configuration, and they are offered a call in a fixed
priority order.
-/

namespace ProgressionIdioms

/-- The idioms a progression can be written in. -/
inductive Idiom where
  /-- The indices of an array. -/
  | indices
  /-- A half-open range counting up. -/
  | upUntil
  /-- A closed range counting down. -/
  | downTo
  /-- A step modifier on another progression. -/
  | step
  /-- A closed range counting up. -/
  | rangeTo
deriving DecidableEq, Repr

namespace Idiom

/-- The order in which idioms are offered a call; the first that describes it wins. -/
def priority : List Idiom := [.indices, .upUntil, .downTo, .step, .rangeTo]

/-- The idiom's name. -/
def name : Idiom → String
  | .indices => "Indices"
  | .upUntil => "Until"
  | .downTo => "DownTo"
  | .step => "Step"
  | .rangeTo => "RangeTo"

/-- The requirements on a callee for the idiom, in the order they are checked. -/
def requirements (c : Config) : Idiom → List Requirement
  | .rangeTo =>
    [.dispatch c.elementClasses, .name (.lastSegment c.spelling.rangeTo), .paramCount 1,
     .param 0 c.elementClasses]
  | .downTo => Pattern.extensionOfOne c.spelling.downTo c.elementClasses ++
      [.param 0 c.elementClasses]
  | .upUntil => Pattern.extensionOfOne c.spelling.upUntil c.elementClasses ++
      [.param 0 c.elementClasses]
  | .indices =>
    [.extension c.supportedArrays, .name (.exact c.spelling.indices), .paramCount 0]
  | .step => Pattern.extensionOfOne c.spelling.step c.progressionClasses ++
      [.param 0 c.stepClasses]

/-- The signature pattern of the idiom. -/
def pattern (c : Config) (i : Idiom) : Pattern := ⟨i.requirements c⟩

/-- Whether the idiom accepts a callee. -/
def accepts (c : Config) (t : TypeTable) (i : Idiom) (sig : Signature) : Bool :=
  (i.pattern c).accepts t sig

end Idiom

/-- The idioms, in priority order, that accept a callee. -/
def acceptingIdioms (c : Config) (t : TypeTable) (sig : Signature) : List Idiom :=
  Idiom.priority.filter fun i => i.accepts c t sig

end ProgressionIdioms
