import ProgressionIdioms.Proofs.Frame
/-!
# The idioms accept disjoint callees

Each idiom's pattern tests the callee's name and its number of parameters. The indices take no
parameter and the other idioms one; the three extensions are named in full and the range
operator by its innermost segment. So when the extensions' names differ and none ends in the
range operator's segment (`Spelling.Separates`), a callee's name and arity point to at most one
idiom (`Spelling.idiomOf`), whatever the class sets and the types.

At most one idiom then accepts any callee, so the first that accepts it, and the first other
than the step modifier, are the same in every order, and recognition does not depend on the
order the idioms are offered in (`idioms_exclusive`).
-/

namespace ProgressionIdioms

open StoreM

/-- The names of a spelling that keep the idioms apart: the three extensions are named
differently, and none of them ends in the range operator's segment. -/
structure Spelling.Separates (sp : Spelling) : Prop where
  downTo_ne_upUntil : sp.downTo ≠ sp.upUntil
  downTo_ne_step : sp.downTo ≠ sp.step
  upUntil_ne_step : sp.upUntil ≠ sp.step
  downTo_last : sp.downTo.last? ≠ some sp.rangeTo
  upUntil_last : sp.upUntil.last? ≠ some sp.rangeTo
  step_last : sp.step.last? ≠ some sp.rangeTo

/-- The idiom a callee's name and number of parameters point to: the indices take no
parameter; of the one-parameter idioms, the extensions are named in full and the range
operator by its innermost segment. -/
def Spelling.idiomOf (sp : Spelling) (sig : Signature) : Option Idiom :=
  if sig.params.length = 0 then
    if sig.name = sp.indices then some .indices else none
  else if sig.params.length = 1 then
    if sig.name = sp.downTo then some .downTo
    else if sig.name = sp.upUntil then some .upUntil
    else if sig.name = sp.step then some .step
    else if sig.name.last? = some sp.rangeTo then some .rangeTo
    else none
  else none

namespace Idiom

/-- The name test of an idiom's pattern. -/
def nameTest (sp : Spelling) : Idiom → NameTest
  | .indices => .exact sp.indices
  | .upUntil => .exact sp.upUntil
  | .downTo => .exact sp.downTo
  | .step => .exact sp.step
  | .rangeTo => .lastSegment sp.rangeTo

/-- The number of parameters of an idiom's callees. -/
def arity : Idiom → Nat
  | .indices => 0
  | _ => 1

variable {c : Config} {t : TypeTable} {sig : Signature} {i j : Idiom}

theorem accepts_iff : i.accepts c t sig = true ↔ ∀ r ∈ i.requirements c, r.holds t sig = true := by
  simp [accepts, pattern, Pattern.accepts]

theorem nameTest_mem_requirements (c : Config) (i : Idiom) :
    .name (i.nameTest c.spelling) ∈ i.requirements c := by
  cases i <;> simp [requirements, nameTest, Pattern.extensionOfOne]

theorem paramCount_mem_requirements (c : Config) (i : Idiom) :
    .paramCount i.arity ∈ i.requirements c := by
  cases i <;> simp [requirements, arity, Pattern.extensionOfOne]

/-- An accepted callee passes the idiom's name test and has its arity. -/
theorem name_and_arity_of_accepts (h : i.accepts c t sig) :
    (i.nameTest c.spelling).holds sig.name ∧ sig.params.length = i.arity := by
  have hreq := accepts_iff.mp h
  have hname := hreq _ (nameTest_mem_requirements c i)
  have hcount := hreq _ (paramCount_mem_requirements c i)
  simp only [Requirement.holds, beq_iff_eq] at hname hcount
  exact ⟨hname, hcount⟩

/-- Under a separating spelling, an accepted callee's name and arity point to the idiom that
accepts it. -/
theorem idiomOf_of_accepts (hsp : c.spelling.Separates) (h : i.accepts c t sig) :
    c.spelling.idiomOf sig = some i := by
  obtain ⟨hname, harity⟩ := name_and_arity_of_accepts h
  cases i <;> simp only [nameTest, NameTest.holds, beq_iff_eq] at hname
  case indices => simp_all [Spelling.idiomOf, arity]
  case upUntil => simp_all [Spelling.idiomOf, arity, hsp.downTo_ne_upUntil.symm]
  case downTo => simp_all [Spelling.idiomOf, arity]
  case step =>
    simp_all [Spelling.idiomOf, arity, hsp.downTo_ne_step.symm, hsp.upUntil_ne_step.symm]
  case rangeTo =>
    -- a name ending in the range operator's segment is none of the extensions' names
    have hd : sig.name ≠ c.spelling.downTo := fun h => hsp.downTo_last (h ▸ hname)
    have hu : sig.name ≠ c.spelling.upUntil := fun h => hsp.upUntil_last (h ▸ hname)
    have hs : sig.name ≠ c.spelling.step := fun h => hsp.step_last (h ▸ hname)
    simp_all [Spelling.idiomOf, arity]

/-- Under a separating spelling, at most one idiom accepts any callee. -/
theorem eq_of_accepts (hsp : c.spelling.Separates) (hi : i.accepts c t sig)
    (hj : j.accepts c t sig) : i = j :=
  Option.some.inj ((idiomOf_of_accepts hsp hi).symm.trans (idiomOf_of_accepts hsp hj))

end Idiom

namespace Context

variable (ctx : Context)

/-- The context that offers a call to the idioms in another order. -/
def withHandlers (order : List Idiom) (h : order.Perm Idiom.priority) : Context :=
  { ctx with handlers := order, handlers_perm := h }

variable {ctx} {order : List Idiom} {horder : order.Perm Idiom.priority}
  {sig : Signature}

/-- With at most one idiom accepting a callee, every order finds the same one. -/
theorem firstAccepting_withHandlers (hsp : ctx.config.spelling.Separates) :
    (ctx.withHandlers order horder).firstAccepting sig = ctx.firstAccepting sig :=
  List.find?_eq_find?_of_perm (horder.trans ctx.handlers_perm.symm)
    fun _ hi _ hj => Idiom.eq_of_accepts hsp hi.2 hj.2

theorem firstBase_withHandlers (hsp : ctx.config.spelling.Separates) :
    (ctx.withHandlers order horder).firstBase sig = ctx.firstBase sig := by
  refine List.find?_eq_find?_of_perm (horder.trans ctx.handlers_perm.symm) fun i hi j hj => ?_
  have hi' := (Bool.and_eq_true _ _).mp hi.2
  have hj' := (Bool.and_eq_true _ _).mp hj.2
  exact Idiom.eq_of_accepts hsp hi'.2 hj'.2

/-- The first look at a node does not depend on the order of the idioms. -/
theorem classify_withHandlers (hsp : ctx.config.spelling.Separates) :
    (ctx.withHandlers order horder).classify = ctx.classify := by
  funext s x
  unfold classify
  simp only [firstAccepting_withHandlers hsp, firstBase_withHandlers hsp]
  rfl

theorem recognizeBy_withHandlers (hsp : ctx.config.spelling.Separates)
    (inner : NodeId → StoreM (Option Progression)) :
    (ctx.withHandlers order horder).recognizeBy inner = ctx.recognizeBy inner := by
  funext x
  refine StoreM.ext fun s => ?_
  -- what follows the first look reads the tables and the configuration, never the order
  rw [runOn_recognizeBy, runOn_recognizeBy, classify_withHandlers hsp]
  rfl

theorem recognizeWithin_withHandlers (hsp : ctx.config.spelling.Separates) (fuel : Nat) :
    (ctx.withHandlers order horder).recognizeWithin fuel = ctx.recognizeWithin fuel := by
  induction fuel with
  | zero => rfl
  | succ fuel ih =>
    funext x
    simp only [recognizeWithin]
    rw [ih, recognizeBy_withHandlers hsp]

/-- Under a spelling whose extension names are distinct and none ends in the range operator's
segment, a callee is accepted by at most one idiom, whatever the class sets and the types; so
recognition gives the same answer and appends the same nodes in whatever order the idioms are
offered a call, a step modifier that declines and passes the call on included. -/
theorem idioms_exclusive (ctx : Context) (hsp : ctx.config.spelling.Separates) :
    (∀ (sig : Signature) (i j : Idiom), i.accepts ctx.config ctx.types sig →
      j.accepts ctx.config ctx.types sig → i = j) ∧
    ∀ order (horder : order.Perm Idiom.priority) x s,
      ((ctx.withHandlers order horder).recognize x).runOn s = (ctx.recognize x).runOn s := by
  refine ⟨fun _ _ _ hi hj => Idiom.eq_of_accepts hsp hi hj, fun order horder x s => ?_⟩
  simp only [recognize, recognizeWithin_withHandlers hsp]

end Context

theorem segmented_separates : Spelling.segmented.Separates :=
  ⟨by decide, by decide, by decide, by decide, by decide, by decide⟩

theorem idioms_exclusive_segmented :
    exampleContext.config.spelling.Separates ∧
      ((∀ (sig : Signature) (i j : Idiom), i.accepts exampleContext.config exampleContext.types sig →
          j.accepts exampleContext.config exampleContext.types sig → i = j) ∧
        ∀ order (horder : order.Perm Idiom.priority) x s,
          ((exampleContext.withHandlers order horder).recognize x).runOn s =
            (exampleContext.recognize x).runOn s) :=
  ⟨segmented_separates, Context.idioms_exclusive exampleContext segmented_separates⟩

end ProgressionIdioms
