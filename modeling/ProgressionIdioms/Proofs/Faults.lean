import ProgressionIdioms.Proofs.Chain
/-!
# Why recognition fails

Recognition that fails, rather than reading past the end of a table or looping, fails with the
first fault it meets in a fixed order (`recognize_eq_fault_iff`). Going down a chain of step
modifiers from the outermost, a modifier whose call lacks its receiver or its step fails before
its receiver is looked at. At the base, a range needs the receiver it starts at and then its
bound; the indices of an array need the receiver and then a size accessor. Coming back up, the
step checks run from the innermost modifier out, each once the chain below it is described, so
a failed check leaves the nodes appended below it in the store.
-/

namespace ProgressionIdioms

open StoreM

namespace Context

variable {ctx : Context} {s s' : NodeStore} {x : NodeId} {f : Fault}

/-- A first look at a node stops only on a missing node or signature, never on a fault. -/
theorem classify_ne_stop_fault : ctx.classify s x ≠ .stop (.fault f) := by
  intro h
  unfold classify at h
  split at h
  · cases h
  · split at h
    · split at h
      · cases h
      · split at h
        · cases h
        · split at h
          · split at h <;> cases h
          · cases h
    · cases h

/-! ## At the base -/

/-- The fault a base idiom meets on a call `c` in a store. A range needs the receiver of its
form, then its bound; the indices of an array need the receiver, then a size accessor for the
receiver's class, or for its type when it has none. -/
inductive BaseFault (ctx : Context) (c : Call) : Idiom → NodeStore → Fault → Prop
  /-- A range whose call lacks the receiver it starts at. -/
  | start {i : Idiom} {s : NodeStore} {p : CallPart} {increasing closed : Bool} :
      i.rangeForm = some (p, increasing, closed) → c.part p = none →
      BaseFault ctx c i s (.malformedCall c.callee p)
  /-- A range whose call has its start but lacks its bound. -/
  | bound {i : Idiom} {s : NodeStore} {p : CallPart} {increasing closed : Bool} :
      i.rangeForm = some (p, increasing, closed) → c.part p ≠ none → c.part .argument = none →
      BaseFault ctx c i s (.malformedCall c.callee .argument)
  /-- The indices of a call without a receiver. -/
  | receiver {s : NodeStore} : c.extension = none →
      BaseFault ctx c .indices s (.malformedCall c.callee .extensionReceiver)
  /-- The indices of an array whose class has no size accessor. -/
  | sizeAccessor {s : NodeStore} {r : NodeId} {n : Node} : c.extension = some r →
      s.get? r = some n → ctx.config.sizeAccessor? ((ctx.types.classifier n.ty).getD n.ty) = none →
      BaseFault ctx c .indices s (.missingSizeAccessor ((ctx.types.classifier n.ty).getD n.ty))

theorem runOn_rangeOf_eq_fault_iff {c : Call} {k : Kind} {p : CallPart}
    {increasing closed : Bool} :
    (some <$> rangeOf c k p increasing closed).runOn s = (.error (.fault f), s') ↔
      s' = s ∧ (c.part p = none ∧ f = .malformedCall c.callee p ∨
        c.part p ≠ none ∧ c.part .argument = none ∧ f = .malformedCall c.callee .argument) := by
  rw [runOn_map, runOn_rangeOf]
  rcases c.part p with _ | a <;> rcases c.part .argument with _ | b <;> simp [eq_comm, and_comm]

theorem runOn_indicesOf_eq_fault_iff {e : Node} {c : Call} {k : Kind} :
    (some <$> ctx.indicesOf e c k).runOn s = (.error (.fault f), s') ↔
      s' = s ∧ ctx.BaseFault c .indices s f := by
  rw [runOn_map, runOn_indicesOf]
  constructor
  · intro h
    rcases hr : c.part .extensionReceiver with _ | r <;> simp only [hr] at h
    · cases h
      exact ⟨rfl, .receiver hr⟩
    rcases hn : s.get? r with _ | n <;> simp only [hn] at h
    · cases h
    rcases hf : ctx.config.sizeAccessor? ((ctx.types.classifier n.ty).getD n.ty) with _ | g <;>
      simp only [hf] at h
    · cases h
      exact ⟨rfl, .sizeAccessor hr hn hf⟩
    -- past the size accessor only the accessor's signature can be missing, which is no fault
    rcases hsig : ctx.sigs.get? g with _ | sig <;> simp only [hsig] at h <;> cases h
  · rintro ⟨rfl, h⟩
    cases h with
    | start hform => cases hform
    | bound hform => cases hform
    | receiver hr => simp only [Call.part, hr]
    | sizeAccessor hr hn hf => simp only [Call.part, hr, hn, hf]

/-- An idiom other than the step modifier fails on a call exactly as `BaseFault` says, and
leaves the store alone. -/
theorem runOn_build_eq_fault_iff {inner : NodeId → StoreM (Option Progression)} {e : Node}
    {c : Call} {k : Kind} {i : Idiom} (hi : i ≠ .step) :
    (ctx.build inner e c k i).runOn s = (.error (.fault f), s') ↔
      s' = s ∧ ctx.BaseFault c i s f := by
  rcases hform : i.rangeForm with _ | ⟨p, increasing, closed⟩
  · obtain rfl : i = .indices := by cases i <;> simp_all [Idiom.rangeForm]
    exact runOn_indicesOf_eq_fault_iff
  · rw [build_of_rangeForm hform, runOn_rangeOf_eq_fault_iff]
    refine and_congr_right fun _ => ⟨?_, ?_⟩
    · rintro (⟨hp, rfl⟩ | ⟨hp, hb, rfl⟩)
      · exact .start hform hp
      · exact .bound hform hp hb
    · intro h
      -- a range fault names the range's own form
      cases h with
      | start hform' hp =>
        rw [hform] at hform'
        cases hform'
        exact .inl ⟨hp, rfl⟩
      | bound hform' hp hb =>
        rw [hform] at hform'
        cases hform'
        exact .inr ⟨hp, hb, rfl⟩
      | receiver => cases hform
      | sizeAccessor => cases hform

/-! ## Step checks -/

/-- The fault a step check meets on a step `a` in a store: the step is no positive literal,
and its type, up to nullability, is not the kind's step type, or has no registered check. -/
inductive CheckFault (ctx : Context) (s : NodeStore) (k : Kind) (a : NodeId) : Fault → Prop
  /-- The step's type is not the kind's step type. -/
  | mismatch {n : Node} : s.get? a = some n → n.positiveLiteral? = none →
      ctx.types.stripNullable n.ty ≠ k.stepType →
      CheckFault ctx s k a (.stepTypeMismatch k (ctx.types.stripNullable n.ty))
  /-- The step has the kind's step type, and no check is registered for it. -/
  | missingCheck {n : Node} : s.get? a = some n → n.positiveLiteral? = none →
      ctx.types.stripNullable n.ty = k.stepType → ctx.config.stepCheck? k.stepType = none →
      CheckFault ctx s k a (.missingStepCheck k.stepType)

/-- A step check fails exactly as `CheckFault` says, and leaves the store alone. -/
theorem runOn_stepCheck_eq_fault_iff {k : Kind} {a : NodeId} :
    (ctx.stepCheck k a).runOn s = (.error (.fault f), s') ↔ s' = s ∧ ctx.CheckFault s k a f := by
  rw [runOn_stepCheck]
  constructor
  · intro h
    rcases hn : s.get? a with _ | n <;> simp only [hn] at h
    · cases h
    rcases hp : n.positiveLiteral? with _ | v <;> simp only [hp] at h
    · by_cases hst : ctx.types.stripNullable n.ty = k.stepType
      · rw [if_pos hst] at h
        rcases hc : ctx.config.stepCheck? (ctx.types.stripNullable n.ty) with _ | g <;>
          simp only [hc] at h
        · cases h
          rw [hst] at hc ⊢
          exact ⟨rfl, .missingCheck hn hp hst hc⟩
        · rcases hsig : ctx.sigs.get? g with _ | sig <;> simp only [hsig] at h <;> cases h
      · rw [if_neg hst] at h
        cases h
        exact ⟨rfl, .mismatch hn hp hst⟩
    · cases h
  · rintro ⟨rfl, h⟩
    cases h with
    | mismatch hn hp hst => simp only [hn, hp, if_neg hst]
    | missingCheck hn hp hst hc => simp only [hn, hp, hst, hc, if_true]

/-! ## Faults of a chain -/

/-- `ctx.Faults s x f s'`: recognition of `x` in `s` fails with fault `f`, leaving `s'`. The
constructors give the order in which faults are met: a step modifier's own call first, then
its receiver, and its step only once the receiver is described. -/
inductive Faults (ctx : Context) (s : NodeStore) : NodeId → Fault → NodeStore → Prop
  /-- The step modifier accepts the call first, and the call lacks its receiver or its step. -/
  | malformed {x : NodeId} {f : Fault} : ctx.classify s x = .malformed f → Faults ctx s x f s
  /-- The receiver of a step modifier fails. -/
  | receiver {x : NodeId} {e : Node} {c : Call} {k : Kind} {r a : NodeId} {fb : Option Idiom}
      {f : Fault} {s' : NodeStore} :
      ctx.classify s x = .step e c k r a fb → Faults ctx s r f s' → Faults ctx s x f s'
  /-- The idiom that describes the node fails. -/
  | base {x : NodeId} {e : Node} {c : Call} {k : Kind} {i : Idiom} {f : Fault} :
      ctx.BaseAt s x e c k i → ctx.BaseFault c i s f → Faults ctx s x f s
  /-- The receiver heads a chain whose step checks succeed, and the modifier's own step check
  fails on the store they leave. -/
  | check {x : NodeId} {e : Node} {c : Call} {k k' : Kind} {r a : NodeId} {fb : Option Idiom}
      {levels : List (Kind × NodeId)} {d : Progression} {s₁ s₂ : NodeStore}
      {checks : List (NodeId × Bool)} {f : Fault} :
      ctx.classify s x = .step e c k r a fb → ctx.Heads s r k' levels d s₁ →
      (ctx.checkSteps levels).runOn s₁ = (.ok checks, s₂) → ctx.CheckFault s₂ k a f →
      Faults ctx s x f s₂

/-- Completeness: recognition meets every fault that `Faults` names. -/
theorem Faults.runOn_recognize (h : ctx.Faults s x f s') :
    (ctx.recognize x).runOn s = (.error (.fault f), s') := by
  induction h with
  | malformed hv =>
    rw [Context.runOn_recognize, hv]
    rfl
  | receiver hv _ ih =>
    rw [Context.runOn_recognize, hv]
    exact runOn_bind_of_error ih
  | base hb hbf =>
    rw [runOn_recognize_of_baseAt hb]
    exact (runOn_build_eq_fault_iff hb.ne_step).mpr ⟨rfl, hbf⟩
  | check hv hheads hcs hcf =>
    rw [runOn_recognize_of_receiver hv (hheads.runOn_recognize hcs)]
    simp only [afterReceiver]
    exact runOn_bind_of_error (runOn_stepCheck_eq_fault_iff.mpr ⟨rfl, hcf⟩)

/-- Soundness: every fault recognition meets is one that `Faults` names. -/
theorem faults_of_runOn_recognize (h : (ctx.recognize x).runOn s = (.error (.fault f), s')) :
    ctx.Faults s x f s' := by
  obtain ⟨path, hd⟩ := exists_descent_of_runOn_recognize h (by simp)
  induction hd generalizing f s' with
  | @stop x hx =>
    rw [runOn_recognize] at h
    rcases hv : ctx.classify s x with st | _ | ⟨e, c, k, i⟩ | g | ⟨e, c, k, r, a, fb⟩ <;>
      rw [hv] at h
    · cases h
      exact absurd hv classify_ne_stop_fault
    · cases h
    · obtain ⟨rfl, hbf⟩ := (runOn_build_eq_fault_iff (classify_base_ne_step hv)).mp h
      exact .base (.inl hv) hbf
    · cases h
      exact .malformed hv
    · simp [descent?, hv] at hx
  | @step x r path hx _ ih =>
    obtain ⟨e, c, k, a, fb, hv⟩ := descent?_eq_some_iff.mp hx
    rw [runOn_recognize, hv] at h
    rcases runOn_bind_eq h with ⟨o, s₀, h₁, h₂⟩ | ⟨st, h₁, he⟩
    · rcases o with _ | q
      · -- the receiver declined: the fallback idiom, if any, fails at `x` itself
        obtain ⟨rfl, hdecl⟩ := runOn_recognize_eq_none_iff.mp h₁
        rcases fb with _ | i
        · cases h₂
        obtain ⟨rfl, hbf⟩ := (runOn_build_eq_fault_iff (classify_fallback_ne_step hv)).mp h₂
        exact .base (.inr ⟨r, a, hv, hdecl⟩) hbf
      · -- the receiver heads a chain, and the modifier's own step check fails
        obtain ⟨k', levels, d, s₁, checks, hheads, hcs, -⟩ := heads_of_runOn_recognize h₁
        rcases runOn_bind_eq h₂ with ⟨_, _, _, h₃⟩ | ⟨st, h₃, he⟩
        · cases h₃
        · cases he
          obtain ⟨rfl, hcf⟩ := runOn_stepCheck_eq_fault_iff.mp h₃
          exact .check hv hheads hcs hcf
    · cases he
      exact .receiver hv (ih h₁)

/-- Recognition fails with a fault exactly when `Faults` names it: the first fault met going
down the chain of step modifiers (a modifier's call lacking its receiver or its step), then at
its base (a range's start or bound, an array's receiver or size accessor), then coming back up
(a step of the wrong type, or with no registered check), with the store as the fault left it. -/
theorem recognize_eq_fault_iff (ctx : Context) (x : NodeId) (s s' : NodeStore) (f : Fault) :
    (ctx.recognize x).runOn s = (.error (.fault f), s') ↔ ctx.Faults s x f s' :=
  ⟨faults_of_runOn_recognize, Faults.runOn_recognize⟩

end Context

end ProgressionIdioms
