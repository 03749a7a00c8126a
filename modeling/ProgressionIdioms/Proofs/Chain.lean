import ProgressionIdioms.Proofs.Frame
/-!
# Recognised progressions in closed form

A recognised progression is a chain: an outermost node `e_n` of step modifiers down to a base
node `e_0`, each modifier the extension receiver of the one above it. Recognition descends the
chain first, appending nothing, and then builds on the way back: the base's description, then
the step checks of the modifiers from the innermost out. The result is the base's description
with the kind of the outermost node, the checks in that order, and a last-element flag set
when any check needs it (`recognize_eq_some_iff`).

The base is the first idiom other than the step modifier that accepts its callee. The step
modifier may accept it too, earlier in the order; it then declines, because its receiver is no
progression (`Declines`), and the call falls to the base idiom.
-/

namespace ProgressionIdioms

open StoreM

/-- A base description with the step checks of a chain folded in after its own, innermost
first, and the kind of the chain's outermost node. -/
def Progression.withSteps (d : Progression) (k : Kind) : List (NodeId × Bool) → Progression
  | [] => { d with kind := k }
  | (check, needsLast) :: rest => (d.withStep check needsLast).withSteps k rest

namespace Progression

variable (d : Progression) (k : Kind) (checks : List (NodeId × Bool))

@[simp]
theorem start_withSteps : (d.withSteps k checks).start = d.start := by
  induction checks generalizing d with
  | nil => rfl
  | cons c rest ih => exact ih _

@[simp]
theorem bound_withSteps : (d.withSteps k checks).bound = d.bound := by
  induction checks generalizing d with
  | nil => rfl
  | cons c rest ih => exact ih _

@[simp]
theorem checks_withSteps : (d.withSteps k checks).checks = d.checks ++ checks.map Prod.fst := by
  induction checks generalizing d with
  | nil => simp [withSteps, Progression.checks]
  | cons c rest ih => simp [withSteps, ih]

/-- Adding one more modifier's check to a chain's description is extending its checks. The
kind a check is folded in under plays no part in the check. -/
theorem withStep_withSteps (k' : Kind) (check : NodeId) (needsLast : Bool) :
    { (d.withSteps k' checks).withStep check needsLast with kind := k } =
      d.withSteps k (checks ++ [(check, needsLast)]) := by
  induction checks generalizing d with
  | nil => rfl
  | cons c rest ih => exact ih _

end Progression

/-- Where a range idiom starts, whether it increases, and whether it includes its bound. Every
range is bounded by the call's first argument. -/
def Idiom.rangeForm : Idiom → Option (CallPart × Bool × Bool)
  | .rangeTo => some (.dispatchReceiver, true, true)
  | .downTo => some (.extensionReceiver, false, true)
  | .upUntil => some (.extensionReceiver, true, false)
  | .indices | .step => none

namespace Context

variable {ctx : Context} {s s' : NodeStore} {x : NodeId}

/-! ## Declining -/

/-- `ctx.Declines s x`: node `x` is no progression. Either a first look says so, or the step
modifier accepts it first, its receiver is no progression, and no other idiom accepts. -/
inductive Declines (ctx : Context) (s : NodeStore) : NodeId → Prop
  /-- The type has no kind, the node is no call, or no idiom accepts the callee. -/
  | plain {x : NodeId} : ctx.classify s x = .plain → Declines ctx s x
  /-- A step modifier over a receiver that is no progression, with nothing to fall back to. -/
  | step {x : NodeId} {e : Node} {c : Call} {k : Kind} {r a : NodeId} :
      ctx.classify s x = .step e c k r a none → Declines ctx s r → Declines ctx s x

theorem Declines.runOn_recognize (h : ctx.Declines s x) :
    (ctx.recognize x).runOn s = (.ok none, s) := by
  induction h with
  | plain hv =>
    rw [Context.runOn_recognize, hv]
    rfl
  | step hv _ ih =>
    rw [Context.runOn_recognize, hv]
    exact runOn_bind_of_ok ih

theorem declines_of_runOn_recognize (h : (ctx.recognize x).runOn s = (.ok none, s')) :
    ctx.Declines s x := by
  obtain ⟨path, hd⟩ := exists_descent_of_runOn_recognize h (by simp)
  induction hd generalizing s' with
  | @stop x hx =>
    rw [runOn_recognize] at h
    rcases hv : ctx.classify s x with st | _ | ⟨e, c, k, i⟩ | f | ⟨e, c, k, r, a, fb⟩ <;>
      rw [hv] at h
    · cases h
    · exact .plain hv
    · exact absurd h (runOn_build_ne_none (classify_base_ne_step hv) s s')
    · cases h
    · simp [descent?, hv] at hx
  | @step x r path hx _ ih =>
    obtain ⟨e, c, k, a, fb, hv⟩ := descent?_eq_some_iff.mp hx
    rw [runOn_recognize, hv] at h
    rcases runOn_bind_eq h with ⟨o, s₁, h₁, h₂⟩ | ⟨_, _, he⟩
    · rcases o with _ | p
      · rcases fb with _ | i
        · exact .step hv (ih h₁)
        · exact absurd h₂ (runOn_build_ne_none (classify_fallback_ne_step hv) s₁ s')
      · rcases runOn_bind_eq h₂ with ⟨_, _, _, h₃⟩ | ⟨_, _, h₃⟩ <;> cases h₃
    · cases he

/-- A node is no progression, and recognising it appends nothing, exactly when it declines. -/
theorem runOn_recognize_eq_none_iff :
    (ctx.recognize x).runOn s = (.ok none, s') ↔ s' = s ∧ ctx.Declines s x := by
  constructor
  · intro h
    exact ⟨(keepsFrame_recognize ctx x s _ s' h).2 rfl, declines_of_runOn_recognize h⟩
  · rintro ⟨rfl, h⟩
    exact h.runOn_recognize

/-! ## The base -/

/-- A range idiom builds the range of its form. -/
theorem build_of_rangeForm {inner : NodeId → StoreM (Option Progression)} {e : Node} {c : Call}
    {k : Kind} {i : Idiom} {p : CallPart} {increasing closed : Bool}
    (h : i.rangeForm = some (p, increasing, closed)) :
    ctx.build inner e c k i = some <$> rangeOf c k p increasing closed := by
  cases i <;> cases h <;> rfl

/-- The description a base idiom gives of a call `c` of a node `e` of kind `k` in a store, and
the store it leaves. A range starts at one of the call's receivers and is bounded by its first
argument, and leaves the store alone; the indices of an array run from a new zero constant up
to, not including, a new call of the size accessor of the receiver's class (or of its type,
when it has no class), both with the span of `e`. -/
inductive Describes (ctx : Context) (e : Node) (c : Call) (k : Kind) :
    Idiom → NodeStore → Progression → NodeStore → Prop
  /-- A range, from the receiver of its form to the argument. -/
  | range {i : Idiom} {s : NodeStore} {p : CallPart} {increasing closed : Bool} {a b : NodeId} :
      i.rangeForm = some (p, increasing, closed) → c.part p = some a →
      c.part .argument = some b →
      Describes ctx e c k i s (.basic k a b increasing closed) s
  /-- `xs.indices`: from a new zero up to a new call of the size accessor, exclusive. -/
  | indices {s : NodeStore} {r : NodeId} {n : Node} {f : FnId} {sig : Signature} :
      c.extension = some r → s.get? r = some n →
      ctx.config.sizeAccessor? ((ctx.types.classifier n.ty).getD n.ty) = some f →
      ctx.sigs.get? f = some sig →
      Describes ctx e c k .indices s (.basic k s.size (s.size + 1) true false)
        ((s.push ⟨.lit (.int 0), Ty.int, e.span⟩).1.push
          ⟨.call ⟨f, some r, none, []⟩, sig.returns, e.span⟩).1

/-- A range describes a call exactly when the call has the range's start and its bound; it
leaves the store alone. -/
theorem runOn_rangeOf_eq_some_iff {c : Call} {k : Kind} {p : CallPart}
    {increasing closed : Bool} {d : Progression} :
    (some <$> rangeOf c k p increasing closed).runOn s = (.ok (some d), s') ↔
      ∃ a b, c.part p = some a ∧ c.part .argument = some b ∧
        d = .basic k a b increasing closed ∧ s' = s := by
  rw [runOn_map, runOn_rangeOf]
  rcases c.part p with _ | a <;> rcases c.part .argument with _ | b <;> simp [eq_comm]

theorem runOn_indicesOf_eq_some_iff {e : Node} {c : Call} {k : Kind} {d : Progression} :
    (some <$> ctx.indicesOf e c k).runOn s = (.ok (some d), s') ↔
      ctx.Describes e c k .indices s d s' := by
  rw [runOn_map, runOn_indicesOf]
  constructor
  · intro h
    rcases hr : c.part .extensionReceiver with _ | r <;> simp only [hr] at h
    · cases h
    rcases hn : s.get? r with _ | n <;> simp only [hn] at h
    · cases h
    rcases hf : ctx.config.sizeAccessor? ((ctx.types.classifier n.ty).getD n.ty) with _ | f <;>
      simp only [hf] at h
    · cases h
    rcases hsig : ctx.sigs.get? f with _ | sig <;> simp only [hsig] at h
    · cases h
    · cases h
      exact .indices hr hn hf hsig
  · intro h
    cases h with
    | range hform => cases hform
    | indices hr hn hf hsig => simp only [Call.part, hr, hn, hf, hsig]

/-- An idiom other than the step modifier describes a call exactly as `Describes` says. -/
theorem runOn_build_eq_some_iff {inner : NodeId → StoreM (Option Progression)} {e : Node}
    {c : Call} {k : Kind} {i : Idiom} {d : Progression} (hi : i ≠ .step) :
    (ctx.build inner e c k i).runOn s = (.ok (some d), s') ↔ ctx.Describes e c k i s d s' := by
  rcases hform : i.rangeForm with _ | ⟨p, increasing, closed⟩
  · -- no range form: the indices of an array
    obtain rfl : i = .indices := by cases i <;> simp_all [Idiom.rangeForm]
    exact runOn_indicesOf_eq_some_iff
  · rw [build_of_rangeForm hform, runOn_rangeOf_eq_some_iff]
    constructor
    · rintro ⟨a, b, ha, hb, rfl, rfl⟩
      exact .range hform ha hb
    · intro h
      cases h with
      | range hform' ha hb =>
        rw [hform] at hform'
        cases hform'
        exact ⟨_, _, ha, hb, rfl, rfl⟩
      | indices => cases hform

/-- A base description is the basic one of its kind: no step checks, no last element. -/
theorem Describes.withSteps_nil {e : Node} {c : Call} {k : Kind} {i : Idiom} {d : Progression}
    (h : ctx.Describes e c k i s d s') : d.withSteps k [] = d := by
  cases h <;> rfl

/-! ## Chains -/

/-- `ctx.BaseAt s x e c k i`: idiom `i` describes node `x`, a call `c` of kind `k`. It is the
first idiom to accept the callee, or the step modifier accepts first and declines, and `i` is
the first other idiom that accepts. -/
def BaseAt (ctx : Context) (s : NodeStore) (x : NodeId) (e : Node) (c : Call) (k : Kind)
    (i : Idiom) : Prop :=
  ctx.classify s x = .base e c k i ∨
    ∃ r a, ctx.classify s x = .step e c k r a (some i) ∧ ctx.Declines s r

/-- `ctx.Heads s x k levels d s₁`: node `x`, of kind `k`, heads a chain of step modifiers
whose kinds and steps are `levels`, innermost first, over a base whose description is `d`,
leaving the store `s₁`. Every level's callee is accepted first by the step modifier, and each
level is the extension receiver of the one above it. -/
inductive Heads (ctx : Context) (s : NodeStore) :
    NodeId → Kind → List (Kind × NodeId) → Progression → NodeStore → Prop
  /-- The base of a chain. -/
  | base {x : NodeId} {e : Node} {c : Call} {k : Kind} {i : Idiom} {d : Progression}
      {s₁ : NodeStore} :
      ctx.BaseAt s x e c k i → ctx.Describes e c k i s d s₁ → Heads ctx s x k [] d s₁
  /-- A step modifier over a chain. -/
  | step {x : NodeId} {e : Node} {c : Call} {k k' : Kind} {r a : NodeId} {fb : Option Idiom}
      {levels : List (Kind × NodeId)} {d : Progression} {s₁ : NodeStore} :
      ctx.classify s x = .step e c k r a fb → Heads ctx s r k' levels d s₁ →
      Heads ctx s x k (levels ++ [(k, a)]) d s₁

variable (ctx) in
/-- The step checks of a chain's levels, innermost first, each on the store the one before
left. -/
def checkSteps (levels : List (Kind × NodeId)) : StoreM (List (NodeId × Bool)) :=
  levels.mapM fun l => ctx.stepCheck l.1 l.2

theorem BaseAt.ne_step {e : Node} {c : Call} {k : Kind} {i : Idiom}
    (h : ctx.BaseAt s x e c k i) : i ≠ .step := by
  rcases h with hv | ⟨_, _, hv, _⟩
  · exact classify_base_ne_step hv
  · exact classify_fallback_ne_step hv

theorem runOn_recognize_of_baseAt {e : Node} {c : Call} {k : Kind} {i : Idiom}
    (h : ctx.BaseAt s x e c k i) :
    (ctx.recognize x).runOn s = (ctx.build ctx.recognize e c k i).runOn s := by
  rcases h with hv | ⟨r, a, hv, hd⟩
  · rw [runOn_recognize, hv]
    rfl
  · rw [runOn_recognize_of_receiver hv hd.runOn_recognize]
    rfl

/-- Completeness: a chain whose step checks all succeed is recognised as its description. -/
theorem Heads.runOn_recognize {k : Kind} {levels : List (Kind × NodeId)} {d : Progression}
    {s₁ : NodeStore} (h : ctx.Heads s x k levels d s₁) {checks : List (NodeId × Bool)}
    (hc : (ctx.checkSteps levels).runOn s₁ = (.ok checks, s')) :
    (ctx.recognize x).runOn s = (.ok (some (d.withSteps k checks)), s') := by
  induction h generalizing checks s' with
  | base hb hd =>
    simp only [checkSteps, runOn_mapM_nil, Prod.mk.injEq, Except.ok.injEq] at hc
    obtain ⟨rfl, rfl⟩ := hc
    rw [runOn_recognize_of_baseAt hb, hd.withSteps_nil]
    exact (runOn_build_eq_some_iff hb.ne_step).mpr hd
  | @step x e c k k' r a fb levels d s₁ hv _ ih =>
    obtain ⟨cs, s₀, last, hcs, hlast, rfl⟩ := runOn_mapM_append_eq_ok _ hc
    rw [runOn_mapM_cons] at hlast
    rcases hck : ctx.stepCheck k a |>.runOn s₀ with ⟨_ | ⟨check, needsLast⟩, s₂⟩ <;>
      simp only [hck, runOn_mapM_nil] at hlast
    · cases hlast
    cases hlast
    rw [runOn_recognize_of_receiver hv (ih hcs)]
    simp only [afterReceiver]
    rw [runOn_bind_of_ok hck, ← Progression.withStep_withSteps]
    rfl

/-- Soundness: every recognised progression is the description of a chain whose step checks
all succeed. -/
theorem heads_of_runOn_recognize {p : Progression}
    (h : (ctx.recognize x).runOn s = (.ok (some p), s')) :
    ∃ k levels d s₁ checks, ctx.Heads s x k levels d s₁ ∧
      (ctx.checkSteps levels).runOn s₁ = (.ok checks, s') ∧ p = d.withSteps k checks := by
  obtain ⟨path, hd⟩ := exists_descent_of_runOn_recognize h (by simp)
  induction hd generalizing p s' with
  | @stop x hx =>
    rw [runOn_recognize] at h
    rcases hv : ctx.classify s x with st | _ | ⟨e, c, k, i⟩ | f | ⟨e, c, k, r, a, fb⟩ <;>
      rw [hv] at h
    · cases h
    · cases h
    · have hdesc := (runOn_build_eq_some_iff (classify_base_ne_step hv)).mp h
      exact ⟨k, [], p, s', [], .base (.inl hv) hdesc, rfl, hdesc.withSteps_nil.symm⟩
    · cases h
    · simp [descent?, hv] at hx
  | @step x r path hx _ ih =>
    obtain ⟨e, c, k, a, fb, hv⟩ := descent?_eq_some_iff.mp hx
    rw [runOn_recognize, hv] at h
    rcases runOn_bind_eq h with ⟨o, s₀, h₁, h₂⟩ | ⟨_, _, he⟩
    · rcases o with _ | q
      · -- the receiver declined: the fallback idiom is the base, at `x` itself
        obtain ⟨rfl, hdecl⟩ := runOn_recognize_eq_none_iff.mp h₁
        rcases fb with _ | i
        · cases h₂
        have hdesc := (runOn_build_eq_some_iff (classify_fallback_ne_step hv)).mp h₂
        exact ⟨k, [], p, s', [], .base (.inr ⟨r, a, hv, hdecl⟩) hdesc, rfl,
          hdesc.withSteps_nil.symm⟩
      · -- the receiver heads a chain, and `x` is one more level over it
        obtain ⟨k', levels, d, s₁, cs, hheads, hcs, rfl⟩ := ih h₁
        rcases runOn_bind_eq h₂ with ⟨⟨check, needsLast⟩, s₂, h₃, h₄⟩ | ⟨_, _, he⟩
        · cases h₄
          refine ⟨k, levels ++ [(k, a)], d, s₁, cs ++ [(check, needsLast)],
            .step hv hheads, ?_, Progression.withStep_withSteps _ _ _ _ _ _⟩
          rw [checkSteps, runOn_mapM_append_of_ok _ _ hcs, runOn_mapM_cons, h₃]
          rfl
        · cases he
    · cases he

/-- Recognition describes a node as a progression exactly when the node heads a chain of step
modifiers over a base whose step checks all succeed; the description is then the base's
(start, bound, direction, closedness), with the kind of the outermost node, the step checks
in order from the innermost modifier out, and the last-element flag of any of them. -/
theorem recognize_eq_some_iff (ctx : Context) (x : NodeId) (s s' : NodeStore)
    (p : Progression) :
    (ctx.recognize x).runOn s = (.ok (some p), s') ↔
      ∃ k levels d s₁ checks, ctx.Heads s x k levels d s₁ ∧
        (ctx.checkSteps levels).runOn s₁ = (.ok checks, s') ∧ p = d.withSteps k checks := by
  constructor
  · exact heads_of_runOn_recognize
  · rintro ⟨k, levels, d, s₁, checks, hheads, hc, rfl⟩
    exact hheads.runOn_recognize hc

end Context

end ProgressionIdioms
