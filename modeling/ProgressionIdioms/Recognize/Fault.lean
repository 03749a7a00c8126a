import ProgressionIdioms.Recognize.Kind
import ProgressionIdioms.Code.Arena
/-!
# Why recognition stops

Not being a progression is not a failure. Recognition stops when a matched idiom cannot be
described (a helper is missing, the step has the wrong type, the call lacks a part its
callee declares), when it reads a node or signature that does not exist, or when a chain of
step modifiers leads back to itself. Putting the step checks into one node stops too when a
count does not fit the arena, or when the checks are an empty sequence, whose last check is
read at position `0 - 1`.
-/

namespace ProgressionIdioms

/-- A part of a call that its callee declares. -/
inductive CallPart where
  /-- The receiver the call dispatches on. -/
  | dispatchReceiver
  /-- The receiver of an extension call. -/
  | extensionReceiver
  /-- The first argument. -/
  | argument
deriving DecidableEq, Repr

/-- The part of a call: its receivers, and its first argument. -/
def Call.part (c : Call) : CallPart → Option NodeId
  | .dispatchReceiver => c.dispatch
  | .extensionReceiver => c.extension
  | .argument => c.args.head?

/-- How a call part is named in messages. -/
def CallPart.text : CallPart → String
  | .dispatchReceiver => "dispatch receiver"
  | .extensionReceiver => "extension receiver"
  | .argument => "argument"

/-- A matched idiom that cannot be described. -/
inductive Fault where
  /-- No size accessor is registered for the class of the array. -/
  | missingSizeAccessor (array : Ty)
  /-- No step check is registered for the type of the step. -/
  | missingStepCheck (stepType : Ty)
  /-- The step's type is not the step type of the progression's kind. -/
  | stepTypeMismatch (kind : Kind) (stepType : Ty)
  /-- The call lacks a part its callee declares. -/
  | malformedCall (callee : FnId) (part : CallPart)
deriving DecidableEq, Repr

namespace Fault

/-- The name of the fault. -/
def name : Fault → String
  | .missingSizeAccessor _ => "MissingSizeAccessor"
  | .missingStepCheck _ => "MissingStepCheck"
  | .stepTypeMismatch _ _ => "StepTypeMismatch"
  | .malformedCall _ _ => "MalformedCall"

/-- The message of the fault. -/
def message : Fault → String
  | .missingSizeAccessor a => "no size accessor registered for array class " ++ a.handleText
  | .missingStepCheck s =>
    "no \x60checkProgressionStep\x60 registered for step type " ++ s.handleText
  | .stepTypeMismatch k s =>
    "step of type " ++ s.handleText ++ " does not fit a " ++ k.name ++ " progression"
  | .malformedCall f p =>
    "call to FunctionId(" ++ toString f ++ ") is missing its declared " ++ p.text

end Fault

/-- Why recognition stopped. -/
inductive Stop where
  /-- A matched idiom cannot be described. -/
  | fault (f : Fault)
  /-- A node or signature was read past the end of its table. -/
  | outOfRange (e : OutOfRange)
  /-- A chain of step modifiers leads back to a node it has passed. -/
  | loops
  /-- A count past the width the node arena keeps it in. -/
  | overflow (e : ArenaOverflow)
  /-- The position one before the end of an empty sequence. -/
  | underflow
deriving DecidableEq, Repr

end ProgressionIdioms
