import ProgressionIdioms.Proofs.StoreRun
import Mathlib.Data.List.Find
/-!
# One look at a node

Recognising a node reads the node and, for a call of a progression kind, its callee's
signature, and then acts on the first idiom, in the recogniser's order, that accepts the
callee. All it decides before it recognises a receiver is a function of the store,
`Context.classify`; what it does afterwards is `Context.resume`. The main result here,
`runOn_recognizeBy`, is that the two together are `recognizeBy`, whatever recognises the
receivers.

The step modifier is the only idiom that may decline. When it does, the call falls to the
first other idiom that accepts it, and nothing later is tried: every other idiom describes
whatever it accepts. So a step modifier reads its receiver's recognition once, and
`descent?` names that receiver.
-/

namespace ProgressionIdioms

open StoreM

/-- What recognition finds at a node before it recognises any receiver. -/
inductive Visit where
  /-- The node, or its callee's signature, is missing. -/
  | stop (e : Stop)
  /-- The node is no progression: its type has no kind, it is no call, or no idiom accepts its
  callee. -/
  | plain
  /-- The first idiom to accept the callee is `i`, and it is not the step modifier. -/
  | base (e : Node) (c : Call) (k : Kind) (i : Idiom)
  /-- The step modifier accepts the callee first, and the call lacks a part it needs. -/
  | malformed (f : Fault)
  /-- The step modifier accepts the callee first: recognition descends into `receiver`, and
  falls back to `fallback`, the first other idiom that accepts, when that is no progression. -/
  | step (e : Node) (c : Call) (k : Kind) (receiver arg : NodeId) (fallback : Option Idiom)

namespace Context

variable (ctx : Context)

/-- The first idiom, in the recogniser's order, that accepts a callee. -/
def firstAccepting (sig : Signature) : Option Idiom :=
  ctx.handlers.find? (·.accepts ctx.config ctx.types sig)

/-- The first idiom other than the step modifier, in the recogniser's order, that accepts a
callee. -/
def firstBase (sig : Signature) : Option Idiom :=
  ctx.handlers.find? fun i => i != .step && i.accepts ctx.config ctx.types sig

/-- What recognition finds at a node of a store before it recognises any receiver. A step
modifier needs its receiver first and its step second. -/
def classify (s : NodeStore) (x : NodeId) : Visit :=
  match s.get? x with
  | none => .stop (.outOfRange ⟨s.size, x⟩)
  | some e =>
    match ctx.types.kindOf e.ty, e.kind with
    | some k, .call c =>
      match ctx.sigs.get? c.callee with
      | none => .stop (.outOfRange ⟨ctx.sigs.size, c.callee⟩)
      | some sig =>
        match ctx.firstAccepting sig with
        | none => .plain
        | some i =>
          if i = .step then
            match c.part .extensionReceiver, c.part .argument with
            | none, _ => .malformed (.malformedCall c.callee .extensionReceiver)
            | some _, none => .malformed (.malformedCall c.callee .argument)
            | some r, some a => .step e c k r a (ctx.firstBase sig)
          else .base e c k i
    | _, _ => .plain

/-- The receiver that recognition of a node descends into, if it descends. -/
def descent? (s : NodeStore) (x : NodeId) : Option NodeId :=
  match ctx.classify s x with
  | .step _ _ _ r _ _ => some r
  | _ => none

/-- What a step modifier does once its receiver is recognised: with no progression there it
falls back to the fallback idiom, if any; with one it adds the check of its step `a`. -/
def afterReceiver (inner : NodeId → StoreM (Option Progression)) (e : Node) (c : Call)
    (k : Kind) (a : NodeId) (fallback : Option Idiom) :
    Option Progression → StoreM (Option Progression)
  | none =>
    match fallback with
    | none => pure none
    | some i => ctx.build inner e c k i
  | some p => do
    let (check, needsLast) ← ctx.stepCheck k a
    pure (some { p.withStep check needsLast with kind := k })

/-- What recognition does after its first look at a node, recognising receivers by `inner`. -/
def resume (inner : NodeId → StoreM (Option Progression)) : Visit → StoreM (Option Progression)
  | .stop e => throw e
  | .plain => pure none
  | .base e c k i => ctx.build inner e c k i
  | .malformed f => fail f
  | .step e c k r a fb => do ctx.afterReceiver inner e c k a fb (← inner r)

variable {ctx} {inner : NodeId → StoreM (Option Progression)} {e : Node} {c : Call} {k : Kind}
  {sig : Signature}

/-! ## The recogniser's order -/

theorem handlers_nodup : ctx.handlers.Nodup :=
  ctx.handlers_perm.nodup_iff.mpr (by decide)

theorem handlers_eq_cons : ∃ i rest, ctx.handlers = i :: rest := by
  match ctx.handlers, ctx.handlers_perm.length_eq with
  | i :: rest, _ => exact ⟨i, rest, rfl⟩

theorem firstBase_ne_step {i : Idiom} (h : ctx.firstBase sig = some i) : i ≠ .step := by
  have := (List.find?_eq_some_iff_append.mp h).1
  simp_all

/-! ## Idioms other than the step modifier

They never recognise a receiver, and they describe whatever they accept. -/

theorem build_congr_of_ne_step {i : Idiom} (h : i ≠ .step)
    (inner' : NodeId → StoreM (Option Progression)) :
    ctx.build inner e c k i = ctx.build inner' e c k i := by
  cases i <;> first | rfl | exact absurd rfl h

theorem build_bind_of_ne_step {i : Idiom} (h : i ≠ .step) (m : StoreM (Option Progression)) :
    (do
      match ← ctx.build inner e c k i with
      | some p => pure (some p)
      | none => m) = ctx.build inner e c k i := by
  cases i <;> first | exact absurd rfl h | simp [build]

/-! ## Offering a call

With the callee's signature at hand, the offer goes down the order to the first idiom that
accepts. -/

section Offer

variable (hsig : ctx.sigs.get? c.callee = some sig)
include hsig

theorem offer_cons (i : Idiom) (rest : List Idiom) :
    ctx.offer inner e c k (i :: rest) =
      if i.accepts ctx.config ctx.types sig then do
        match ← ctx.build inner e c k i with
        | some p => pure (some p)
        | none => ctx.offer inner e c k rest
      else ctx.offer inner e c k rest := by
  rewrite [offer, signature_of_get hsig, pure_bind]
  -- the sides may differ in the auxiliary matchers of their match expressions
  rfl

theorem offer_append_of_not_accepting {pre : List Idiom}
    (hpre : ∀ i ∈ pre, i.accepts ctx.config ctx.types sig = false) (rest : List Idiom) :
    ctx.offer inner e c k (pre ++ rest) = ctx.offer inner e c k rest := by
  induction pre with
  | nil => rfl
  | cons i pre ih =>
    rw [List.cons_append, offer_cons hsig, if_neg (by simp [hpre i (by simp)])]
    exact ih fun j hj => hpre j (by simp [hj])

/-- Without the step modifier in the order, the first idiom that accepts describes the call. -/
theorem offer_of_step_not_mem {L : List Idiom} (hL : .step ∉ L) :
    ctx.offer inner e c k L =
      match L.find? (·.accepts ctx.config ctx.types sig) with
      | none => pure none
      | some i => ctx.build inner e c k i := by
  induction L with
  | nil => rfl
  | cons i rest ih =>
    have hi : i ≠ .step := fun h => hL (h ▸ List.mem_cons_self)
    rw [offer_cons hsig, ih (fun h => hL (List.mem_cons_of_mem i h)), List.find?_cons]
    cases i.accepts ctx.config ctx.types sig
    · rfl
    · exact build_bind_of_ne_step hi _

theorem offer_of_firstAccepting_none (h : ctx.firstAccepting sig = none) :
    ctx.offer inner e c k ctx.handlers = pure none := by
  have hnone : ∀ i ∈ ctx.handlers, i.accepts ctx.config ctx.types sig = false := by
    simpa [firstAccepting, List.find?_eq_none] using h
  rw [← List.append_nil ctx.handlers, offer_append_of_not_accepting hsig hnone []]
  rfl

theorem offer_of_firstAccepting_base {i : Idiom} (h : ctx.firstAccepting sig = some i)
    (hi : i ≠ .step) : ctx.offer inner e c k ctx.handlers = ctx.build inner e c k i := by
  obtain ⟨hacc, pre, post, hsplit, hpre⟩ := List.find?_eq_some_iff_append.mp h
  rw [hsplit, offer_append_of_not_accepting hsig (by simpa using hpre), offer_cons hsig,
    if_pos hacc]
  exact build_bind_of_ne_step hi _

/-- When the step modifier accepts first, the idioms after it are only the fallback: they are
tried when the receiver is no progression, and the first of them that accepts wins. -/
theorem offer_of_firstAccepting_step (h : ctx.firstAccepting sig = some .step) :
    ctx.offer inner e c k ctx.handlers = (do
      let r ← require c .extensionReceiver
      let a ← require c .argument
      ctx.afterReceiver inner e c k a (ctx.firstBase sig) (← inner r)) := by
  obtain ⟨hacc, pre, post, hsplit, hpre⟩ := List.find?_eq_some_iff_append.mp h
  have hpost : .step ∉ post := by
    have := ctx.handlers_nodup
    rw [hsplit] at this
    simp [List.nodup_append] at this
    exact this.2.1.1
  -- the idioms before the step modifier do not accept, so the fallback is the first of the
  -- idioms after it that does
  have hbase : ctx.firstBase sig = post.find? (·.accepts ctx.config ctx.types sig) := by
    have hpre' : pre.find? (fun i => i != .step && i.accepts ctx.config ctx.types sig) = none :=
      List.find?_eq_none.mpr fun i hi => by simp [by simpa using hpre i hi]
    rw [firstBase, hsplit, List.find?_append, hpre', Option.none_or,
      List.find?_cons_of_neg (by simp)]
    exact List.find?_congr fun i hi => by
      simp [show i ≠ .step from fun h => hpost (h ▸ hi)]
  rw [hsplit, offer_append_of_not_accepting hsig (by simpa using hpre), offer_cons hsig,
    if_pos hacc, offer_of_step_not_mem hsig hpost, hbase]
  show (do match ← ctx.stepOver inner c k with
            | some p => pure (some p)
            | none => _) = _
  simp only [stepOver, bind_assoc]
  refine bind_congr fun r => bind_congr fun a => bind_congr fun o => ?_
  cases o with
  | none => simp [afterReceiver]
  | some p => simp [afterReceiver]

end Offer

theorem offer_of_get_none (h : ctx.sigs.get? c.callee = none) :
    ctx.offer inner e c k ctx.handlers = throw (.outOfRange ⟨ctx.sigs.size, c.callee⟩) := by
  obtain ⟨i, rest, hl⟩ := ctx.handlers_eq_cons
  rw [hl, offer, signature_of_get_none h]
  rfl

/-! ## Recognition after one look -/

variable (ctx) in
/-- Recognising a node is resuming from what a first look at it finds. -/
theorem runOn_recognizeBy (inner : NodeId → StoreM (Option Progression)) (x : NodeId)
    (s : NodeStore) :
    (ctx.recognizeBy inner x).runOn s = (ctx.resume inner (ctx.classify s x)).runOn s := by
  rw [recognizeBy]
  rcases hx : s.get? x with _ | e
  · simp only [classify, hx]
    exact runOn_bind_of_error (runOn_node_of_get_none hx)
  rw [runOn_bind_of_ok (runOn_node_of_get hx)]
  -- only a call of a progression kind is offered to the idioms
  rcases hk : ctx.types.kindOf e.ty with _ | k
  · simp only [classify, hx, hk]
    rfl
  cases he : e.kind with
  | lit | var | block =>
    simp only [classify, hx, hk, he]
    rfl
  | call c =>
    simp only [classify, hx, hk, he]
    rcases hsig : ctx.sigs.get? c.callee with _ | sig
    · rw [offer_of_get_none hsig]
      rfl
    dsimp only
    rcases hf : ctx.firstAccepting sig with _ | i
    · rw [offer_of_firstAccepting_none hsig hf]
      rfl
    by_cases hi : i = .step
    · subst hi
      rw [offer_of_firstAccepting_step hsig hf]
      dsimp only
      rw [if_pos rfl]
      rcases hr : c.part .extensionReceiver with _ | r
      · rw [require_of_part_none hr]
        rfl
      rcases ha : c.part .argument with _ | a
      · rw [require_of_part hr, require_of_part_none ha]
        rfl
      rw [require_of_part hr, require_of_part ha]
      simp only [pure_bind]
      rfl
    · rw [offer_of_firstAccepting_base hsig hf hi]
      dsimp only
      rw [if_neg hi]
      rfl

variable {s : NodeStore} {x r a : NodeId} {i : Idiom} {fb : Option Idiom}

/-! ## Inversion of a first look -/

theorem classify_eq_base_iff : ctx.classify s x = .base e c k i ↔
    s.get? x = some e ∧ ctx.types.kindOf e.ty = some k ∧ e.kind = .call c ∧
      ∃ sig, ctx.sigs.get? c.callee = some sig ∧ ctx.firstAccepting sig = some i ∧
        i ≠ .step := by
  constructor
  · intro h
    rcases hx : s.get? x with _ | e'
    · simp [classify, hx] at h
    rcases hk : ctx.types.kindOf e'.ty with _ | k' <;> rcases he : e'.kind with _ | _ | c' | _ <;>
      simp [classify, hx, hk, he] at h
    rcases hsig : ctx.sigs.get? c'.callee with _ | sig <;> simp [hsig] at h
    rcases hf : ctx.firstAccepting sig with _ | i' <;> simp [hf] at h
    by_cases hi : i' = .step
    · subst hi
      rcases hr : c'.part .extensionReceiver with _ | r' <;>
        rcases ha : c'.part .argument with _ | a' <;> simp [hr, ha] at h
    · simp only [if_neg hi, Visit.base.injEq] at h
      obtain ⟨rfl, rfl, rfl, rfl⟩ := h
      exact ⟨rfl, hk, he, sig, hsig, hf, hi⟩
  · rintro ⟨hx, hk, he, sig, hsig, hf, hi⟩
    simp [classify, hx, hk, he, hsig, hf, hi]

theorem classify_eq_step_iff {a : NodeId} : ctx.classify s x = .step e c k r a fb ↔
    s.get? x = some e ∧ ctx.types.kindOf e.ty = some k ∧ e.kind = .call c ∧
      ∃ sig, ctx.sigs.get? c.callee = some sig ∧ ctx.firstAccepting sig = some .step ∧
        c.part .extensionReceiver = some r ∧ c.part .argument = some a ∧
          fb = ctx.firstBase sig := by
  constructor
  · intro h
    rcases hx : s.get? x with _ | e'
    · simp [classify, hx] at h
    rcases hk : ctx.types.kindOf e'.ty with _ | k' <;> rcases he : e'.kind with _ | _ | c' | _ <;>
      simp [classify, hx, hk, he] at h
    rcases hsig : ctx.sigs.get? c'.callee with _ | sig <;> simp [hsig] at h
    rcases hf : ctx.firstAccepting sig with _ | i' <;> simp [hf] at h
    by_cases hi : i' = .step
    · subst hi
      rcases hr : c'.part .extensionReceiver with _ | r' <;>
        rcases ha : c'.part .argument with _ | a' <;> simp [hr, ha] at h
      obtain ⟨rfl, rfl, rfl, rfl, rfl, rfl⟩ := h
      exact ⟨rfl, hk, he, sig, hsig, hf, hr, ha, rfl⟩
    · simp [if_neg hi] at h
  · rintro ⟨hx, hk, he, sig, hsig, hf, hr, ha, rfl⟩
    simp [classify, hx, hk, he, hsig, hf, hr, ha]

theorem classify_base_ne_step (h : ctx.classify s x = .base e c k i) : i ≠ .step := by
  obtain ⟨-, -, -, -, -, -, hi⟩ := classify_eq_base_iff.mp h
  exact hi

theorem classify_fallback_ne_step (h : ctx.classify s x = .step e c k r a (some i)) :
    i ≠ .step := by
  obtain ⟨-, -, -, sig, -, -, -, -, hfb⟩ := classify_eq_step_iff.mp h
  exact firstBase_ne_step hfb.symm

theorem descent?_eq_some_iff :
    ctx.descent? s x = some r ↔ ∃ e c k a fb, ctx.classify s x = .step e c k r a fb := by
  unfold descent?
  split <;> simp_all

/-- The receiver a node descends into is the extension receiver of the call at the node. -/
theorem receiver_of_descent? (h : ctx.descent? s x = some r) :
    ∃ e c, s.get? x = some e ∧ e.kind = .call c ∧ c.part .extensionReceiver = some r := by
  obtain ⟨e, c, k, a, fb, hv⟩ := descent?_eq_some_iff.mp h
  obtain ⟨he, -, hc, -, -, -, hr, -⟩ := classify_eq_step_iff.mp hv
  exact ⟨e, c, he, hc, hr⟩

/-- Only a node of the store can be descended from. -/
theorem lt_size_of_descent? (h : ctx.descent? s x = some r) : x < s.size := by
  obtain ⟨e, c, k, a, fb, hv⟩ := descent?_eq_some_iff.mp h
  unfold classify at hv
  split at hv
  · cases hv
  · exact (Array.getElem?_eq_some_iff.mp ‹_›).1

/-- Recognition by two recognisers of receivers agrees where they agree on the receiver it
descends into. -/
theorem recognizeBy_congr {inner₁ inner₂ : NodeId → StoreM (Option Progression)}
    (h : ∀ r, ctx.descent? s x = some r → (inner₁ r).runOn s = (inner₂ r).runOn s) :
    (ctx.recognizeBy inner₁ x).runOn s = (ctx.recognizeBy inner₂ x).runOn s := by
  rw [runOn_recognizeBy, runOn_recognizeBy]
  rcases hv : ctx.classify s x with st | _ | ⟨e, c, k, i⟩ | f | ⟨e, c, k, r, a, fb⟩
  · rfl
  · rfl
  · exact congrArg (·.runOn s) (build_congr_of_ne_step (classify_base_ne_step hv) _)
  · rfl
  · have hr := h r (descent?_eq_some_iff.mpr ⟨e, c, k, a, fb, hv⟩)
    simp only [resume]
    rw [runOn_bind, runOn_bind, hr]
    rcases (inner₂ r).runOn s with ⟨_ | o, s'⟩
    · rfl
    rcases o with _ | p
    · rcases fb with _ | i
      · rfl
      · exact congrArg (·.runOn s') (build_congr_of_ne_step (classify_fallback_ne_step hv) _)
    · rfl

end Context

end ProgressionIdioms
