import ProgressionIdioms.Recognize.Kind
import ProgressionIdioms.Code.Node
/-!
# Progression descriptors

The description of a recognised progression: its kind, the nodes of its two ends, the step
checks accumulated by step modifiers, its direction, whether its last element has to be
computed before it can end a loop, and whether its bound is inclusive.

The first step modifier gives a single check; each one after it turns the checks into a
sequence, or extends the sequence.
-/

namespace ProgressionIdioms

/-- The checks step modifiers accumulate, in the order the modifiers were applied, innermost
first: one check, or a sequence of them. -/
inductive StepCheck where
  /-- The check of the only step modifier. -/
  | single (check : NodeId)
  /-- The checks of several step modifiers. -/
  | sequence (checks : Array NodeId)
deriving DecidableEq, Repr

namespace StepCheck

/-- Appends a check that runs after every check already there. -/
def andThen : StepCheck → NodeId → StepCheck
  | .single first, next => .sequence #[first, next]
  | .sequence checks, next => .sequence (checks.push next)

/-- The checks, in the order they run. -/
def fragments : StepCheck → List NodeId
  | .single check => [check]
  | .sequence checks => checks.toList

@[simp]
theorem fragments_andThen (c : StepCheck) (next : NodeId) :
    (c.andThen next).fragments = c.fragments ++ [next] := by
  cases c <;> simp [andThen, fragments]

end StepCheck

/-- A recognised progression. -/
structure Progression where
  /-- The element kind. -/
  kind : Kind
  /-- The node of the first element. -/
  start : NodeId
  /-- The node of the bound. -/
  bound : NodeId
  /-- The step checks; none means a unit step. The last check's value is the effective
  step. -/
  step : Option StepCheck
  /-- Whether the progression counts up. -/
  increasing : Bool
  /-- Whether the step may overshoot the bound, so the last element must be computed. -/
  needsLast : Bool
  /-- Whether the bound is inclusive. -/
  closed : Bool
deriving DecidableEq, Repr

namespace Progression

/-- The progression from `start` to `bound` with a unit step, counting up or down, with an
inclusive or exclusive bound. -/
def basic (kind : Kind) (start bound : NodeId) (increasing closed : Bool) : Progression :=
  { kind, start, bound, step := none, increasing, needsLast := false, closed }

/-- The step checks in the order they run; none for a unit step. -/
def checks (p : Progression) : List NodeId :=
  match p.step with
  | none => []
  | some c => c.fragments

/-- Folds one more step modifier in: its check runs after the others, and the last-element
flag only ever turns on. -/
def withStep (p : Progression) (check : NodeId) (needsLast : Bool) : Progression :=
  { p with
    step := some (match p.step with
      | none => .single check
      | some existing => existing.andThen check),
    needsLast := p.needsLast || needsLast }

@[simp]
theorem checks_withStep (p : Progression) (check : NodeId) (needsLast : Bool) :
    (p.withStep check needsLast).checks = p.checks ++ [check] := by
  unfold withStep checks
  cases p.step with
  | none => rfl
  | some c => exact c.fragments_andThen check

@[simp]
theorem needsLast_withStep (p : Progression) (check : NodeId) (needsLast : Bool) :
    (p.withStep check needsLast).needsLast = (p.needsLast || needsLast) := rfl

end Progression

end ProgressionIdioms
