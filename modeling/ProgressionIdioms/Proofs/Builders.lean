import ProgressionIdioms.Proofs.StoreRun
/-!
# What the builders do

The run of each builder of a description on a store, in closed form: what it reads, in which
order it meets its faults, and which nodes it appends. A range reads nothing and appends
nothing; the indices of an array append a zero constant and then a call of the size accessor;
a step check appends a call of the registered check unless the step is a positive literal.
-/

namespace ProgressionIdioms

open StoreM

namespace Context

variable (ctx : Context)

/-- A range needs the receiver it starts at, then its bound. -/
theorem runOn_rangeOf (c : Call) (k : Kind) (p : CallPart) (increasing closed : Bool)
    (s : NodeStore) :
    (rangeOf c k p increasing closed).runOn s =
      match c.part p, c.part .argument with
      | none, _ => (.error (.fault (.malformedCall c.callee p)), s)
      | some _, none => (.error (.fault (.malformedCall c.callee .argument)), s)
      | some a, some b => (.ok (.basic k a b increasing closed), s) := by
  unfold rangeOf
  rcases hp : c.part p with _ | a
  · rw [require_of_part_none hp]
    rfl
  rcases hb : c.part .argument with _ | b
  · rw [require_of_part hp, require_of_part_none hb]
    rfl
  · rw [require_of_part hp, require_of_part hb]
    rfl

/-- A positive literal step is its own check; any other step must have the kind's step type,
up to nullability, and a registered check, whose call is appended with the step's span. -/
theorem runOn_stepCheck (k : Kind) (a : NodeId) (s : NodeStore) :
    (ctx.stepCheck k a).runOn s =
      match s.get? a with
      | none => (.error (.outOfRange ⟨s.size, a⟩), s)
      | some n =>
        match n.positiveLiteral? with
        | some v => (.ok (a, v != 1), s)
        | none =>
          if ctx.types.stripNullable n.ty = k.stepType then
            match ctx.config.stepCheck? (ctx.types.stripNullable n.ty) with
            | none => (.error (.fault (.missingStepCheck (ctx.types.stripNullable n.ty))), s)
            | some f =>
              match ctx.sigs.get? f with
              | none => (.error (.outOfRange ⟨ctx.sigs.size, f⟩), s)
              | some sig =>
                (.ok (s.size, true), (s.push ⟨.call ⟨f, none, none, [a]⟩, sig.returns, n.span⟩).1)
          else (.error (.fault (.stepTypeMismatch k (ctx.types.stripNullable n.ty))), s) := by
  unfold stepCheck
  rcases hn : s.get? a with _ | n
  · exact runOn_bind_of_error (runOn_node_of_get_none hn)
  rw [runOn_bind_of_ok (runOn_node_of_get hn)]
  dsimp only
  rcases hp : n.positiveLiteral? with _ | v
  · dsimp only
    by_cases hst : ctx.types.stripNullable n.ty = k.stepType
    · rw [if_pos hst, if_neg (by simp [hst])]
      rcases hf : ctx.config.stepCheck? (ctx.types.stripNullable n.ty) with _ | f
      · rfl
      rcases hsig : ctx.sigs.get? f with _ | sig
      · dsimp only
        rw [signature_of_get_none hsig, hsig]
        rfl
      · dsimp only
        rw [signature_of_get hsig, hsig]
        rfl
    · rw [if_neg hst, if_pos (by simp [hst])]
      rfl
  · rfl

/-- The indices of an array need the receiver; the array's class, or its type when it has
none, must have a size accessor; a zero constant is appended before the accessor's signature
is read, and the accessor's call after. -/
theorem runOn_indicesOf (e : Node) (c : Call) (k : Kind) (s : NodeStore) :
    (ctx.indicesOf e c k).runOn s =
      match c.part .extensionReceiver with
      | none => (.error (.fault (.malformedCall c.callee .extensionReceiver)), s)
      | some r =>
        match s.get? r with
        | none => (.error (.outOfRange ⟨s.size, r⟩), s)
        | some n =>
          match ctx.config.sizeAccessor? ((ctx.types.classifier n.ty).getD n.ty) with
          | none => (.error (.fault (.missingSizeAccessor ((ctx.types.classifier n.ty).getD n.ty))), s)
          | some f =>
            match ctx.sigs.get? f with
            | none => (.error (.outOfRange ⟨ctx.sigs.size, f⟩), (s.push ⟨.lit (.int 0), Ty.int, e.span⟩).1)
            | some sig =>
              (.ok (.basic k s.size (s.size + 1) true false),
                ((s.push ⟨.lit (.int 0), Ty.int, e.span⟩).1.push
                  ⟨.call ⟨f, some r, none, []⟩, sig.returns, e.span⟩).1) := by
  unfold indicesOf
  rcases hr : c.part .extensionReceiver with _ | r
  · rw [require_of_part_none hr]
    rfl
  rw [require_of_part hr, pure_bind]
  dsimp only
  rcases hn : s.get? r with _ | n
  · exact runOn_bind_of_error (runOn_node_of_get_none hn)
  rw [runOn_bind_of_ok (runOn_node_of_get hn)]
  dsimp only
  rcases hf : ctx.config.sizeAccessor? ((ctx.types.classifier n.ty).getD n.ty) with _ | f
  · rfl
  dsimp only
  rcases hsig : ctx.sigs.get? f with _ | sig
  · rw [signature_of_get_none hsig]
    rfl
  · rw [signature_of_get hsig, runOn_bind_of_ok (runOn_append _ _), pure_bind,
      runOn_bind_of_ok (runOn_append _ _), runOn_pure, NodeStore.size_push]
end Context

end ProgressionIdioms
