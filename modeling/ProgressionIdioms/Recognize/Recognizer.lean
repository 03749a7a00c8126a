import ProgressionIdioms.Recognize.StoreM
import ProgressionIdioms.Recognize.Idiom
import ProgressionIdioms.Recognize.Progression
/-!
# Recognition

An expression is a progression when its type derives from one of the base progression
classes and it is a call that one of the idioms, offered the call in priority order, can
describe. A step modifier describes its receiver first and adds its step check to that
description.

Recognition appends nodes as it goes: the zero and the size call of `indices`, and the
step-check calls of `step`. It never changes a node that is there.

Node ids are not checked in advance, so a chain of step modifiers may lead back to itself.
Every recursive call goes one modifier deeper before anything is appended, so an acyclic
chain visits distinct nodes of the store it started on; the recursion is bounded by one
more than that store's size, and running out of the bound means the chain is a cycle.
-/

namespace ProgressionIdioms

/-- What recognition reads besides the node store. -/
structure Context where
  /-- The type table. -/
  types : TypeTable
  /-- The callee signatures. -/
  sigs : SignatureTable
  /-- The configuration. -/
  config : Config
  /-- The order in which the idioms are offered a call; a recogniser is made with
  `Idiom.priority`. -/
  handlers : List Idiom
  /-- Every order offers each of the five idioms once. -/
  handlers_perm : handlers.Perm Idiom.priority

namespace Context

open StoreM

/-- Describes the indices of an array: from a zero constant up to, not including, a call of
the size accessor of the receiver's class. Both nodes are appended with the span of the
whole expression. -/
def indicesOf (ctx : Context) (e : Node) (c : Call) (k : Kind) : StoreM Progression := do
  let receiver ← require c .extensionReceiver
  let r ← node receiver
  let array := (ctx.types.classifier r.ty).getD r.ty
  match ctx.config.sizeAccessor? array with
  | none => fail (.missingSizeAccessor array)
  | some size =>
    let start ← append ⟨.lit (.int 0), Ty.int, e.span⟩
    let sig ← signature ctx.sigs size
    let bound ← append ⟨.call ⟨size, some receiver, none, []⟩, sig.returns, e.span⟩
    pure (.basic k start bound true false)

/-- The check of a step value, and whether the step may overshoot the bound. A positive
integer literal is its own check, and overshoots unless it is one. Any other step must have
the kind's step type, up to nullability, and is checked by a call of the registered step
check, appended with the span of the step. -/
def stepCheck (ctx : Context) (k : Kind) (s : NodeId) : StoreM (NodeId × Bool) := do
  let n ← node s
  match n.positiveLiteral? with
  | some v => pure (s, v != 1)
  | none =>
    let st := ctx.types.stripNullable n.ty
    if st != k.stepType then fail (.stepTypeMismatch k st)
    else
      match ctx.config.stepCheck? st with
      | none => fail (.missingStepCheck st)
      | some check =>
        let sig ← signature ctx.sigs check
        let id ← append ⟨.call ⟨check, none, none, [s]⟩, sig.returns, n.span⟩
        pure (id, true)

/-- Describes a range written as a call: it starts at one of the call's receivers and is
bounded by its first argument, and the call must have both. Neither node is read. -/
def rangeOf (c : Call) (k : Kind) (start : CallPart) (increasing closed : Bool) :
    StoreM Progression := do
  let first ← require c start
  let bound ← require c .argument
  pure (.basic k first bound increasing closed)

/-- Describes a step modifier: its receiver's description, recognised by `inner`, with the
check of its step added and the modifier's kind. The call must have both a receiver and a
step; it is no progression when its receiver is none. -/
def stepOver (ctx : Context) (inner : NodeId → StoreM (Option Progression)) (c : Call)
    (k : Kind) : StoreM (Option Progression) := do
  let receiver ← require c .extensionReceiver
  let s ← require c .argument
  match ← inner receiver with
  | none => pure none
  | some base =>
    let (check, needsLast) ← ctx.stepCheck k s
    pure (some { base.withStep check needsLast with kind := k })

/-- Describes a call by one idiom that accepts its callee. Only a step modifier may decline,
when its receiver is not a progression; `inner` recognises that receiver. -/
def build (ctx : Context) (inner : NodeId → StoreM (Option Progression)) (e : Node)
    (c : Call) (k : Kind) : Idiom → StoreM (Option Progression)
  | .rangeTo => some <$> rangeOf c k .dispatchReceiver true true
  | .downTo => some <$> rangeOf c k .extensionReceiver false true
  | .upUntil => some <$> rangeOf c k .extensionReceiver true false
  | .indices => some <$> ctx.indicesOf e c k
  | .step => ctx.stepOver inner c k

/-- Offers a call to idioms in order: each reads the callee's signature, and the first idiom
that accepts it and describes the call wins. -/
def offer (ctx : Context) (inner : NodeId → StoreM (Option Progression)) (e : Node)
    (c : Call) (k : Kind) : List Idiom → StoreM (Option Progression)
  | [] => pure none
  | i :: rest => do
    let sig ← signature ctx.sigs c.callee
    if i.accepts ctx.config ctx.types sig then
      match ← ctx.build inner e c k i with
      | some p => pure (some p)
      | none => ctx.offer inner e c k rest
    else ctx.offer inner e c k rest

/-- Recognises a node, recognising the receiver of a step modifier by `inner`: a node whose
type has a progression kind and that is a call is offered to the idioms in order. -/
def recognizeBy (ctx : Context) (inner : NodeId → StoreM (Option Progression)) (id : NodeId) :
    StoreM (Option Progression) := do
  let e ← node id
  match ctx.types.kindOf e.ty, e.kind with
  | some k, .call c => ctx.offer inner e c k ctx.handlers
  | _, _ => pure none

/-- Recognises a node with a bound on the depth of step modifiers. -/
def recognizeWithin (ctx : Context) : Nat → NodeId → StoreM (Option Progression)
  | 0, _ => throw .loops
  | fuel + 1, id => ctx.recognizeBy (ctx.recognizeWithin fuel) id

/-- Recognises a node: its description as a progression, or `none` when it is not one. -/
def recognize (ctx : Context) (id : NodeId) : StoreM (Option Progression) := do
  let s ← get
  ctx.recognizeWithin (s.size + 1) id

end Context

/-- The smallest span covering a first span and a list of others. -/
def Span.coverAll (first : Span) (rest : List Span) : Span := rest.foldl Span.cover first

/-- The step of a progression as one node: none for a unit step, the check itself for a single
check, and for a sequence a new block of the checks, whose value is the last one's, covering
all their spans. The last check is read first, at the position one before the end. -/
def Progression.stepNode (p : Progression) : StoreM (Option NodeId) :=
  match p.step with
  | none => pure none
  | some (.single check) => pure (some check)
  | some (.sequence checks) =>
    match checks.toList with
    | [] => throw .underflow
    | f :: rest => do
      let last ← StoreM.node ((f :: rest).getLast (List.cons_ne_nil f rest))
      let first ← StoreM.node f
      let others ← rest.mapM fun x => do pure (← StoreM.node x).span
      some <$> StoreM.append ⟨.block (f :: rest), last.ty, first.span.coverAll others⟩

end ProgressionIdioms
