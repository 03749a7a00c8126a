import ProgressionIdioms.Proofs.Chain
import ProgressionIdioms.Proofs.ArenaRun
/-!
# The step as one node

A recognised progression keeps its step checks as a single check or a sequence of them,
innermost modifier first. A sequence is only ever made from a single check and one more, and
after that only grows, so it holds at least two checks (`StepCheck.WellFormed`). The step as
one node is nothing for a unit step, the check itself for a single check, and for a sequence a
new block of the checks, whose type is the last check's and whose span covers all of theirs.

Every check of a recognised progression is a node of the arena recognition leaves: a check is a
positive literal that was read there, or a call that was appended there. So building the step
node in that arena, or in any arena that keeps its nodes, reads no node past the end. It
appends nothing for a unit step or a single check. For a sequence it stores the checks as one
list and appends the block over the list's range, unless a count does not fit its width: a
sequence of `2 ^ 16` checks or more stops with an overflow (`Context.recognize_stepNode`).
-/

namespace ProgressionIdioms

open StoreM

/-! ## Covering spans -/

namespace Span

theorem start_coverAll (first : Span) (rest : List Span) :
    (first.coverAll rest).start = (rest.map Span.start).foldl min first.start := by
  induction rest generalizing first with
  | nil => rfl
  | cons r rest ih => exact ih (first.cover r)

theorem stop_coverAll (first : Span) (rest : List Span) :
    (first.coverAll rest).stop = (rest.map Span.stop).foldl max first.stop := by
  induction rest generalizing first with
  | nil => rfl
  | cons r rest ih => exact ih (first.cover r)

theorem some_start_coverAll (first : Span) (rest : List Span) :
    some (first.coverAll rest).start = ((first :: rest).map Span.start).min? := by
  rw [List.map_cons, List.min?_cons', start_coverAll]

theorem some_stop_coverAll (first : Span) (rest : List Span) :
    some (first.coverAll rest).stop = ((first :: rest).map Span.stop).max? := by
  rw [List.map_cons, List.max?_cons', stop_coverAll]

end Span

/-! ## Reading nodes by position -/

/-- Positions that all hold nodes of a store read as those nodes. -/
theorem NodeStore.exists_map_get?_eq {t : NodeStore} {ys : List NodeId}
    (h : ∀ y ∈ ys, ∃ n, t.get? y = some n) : ∃ ns : List Node, ys.map t.get? = ns.map some := by
  induction ys with
  | nil => exact ⟨[], rfl⟩
  | cons y ys ih =>
    obtain ⟨n, hn⟩ := h y List.mem_cons_self
    obtain ⟨ns, hns⟩ := ih fun z hz => h z (List.mem_cons_of_mem y hz)
    exact ⟨n :: ns, by simp [hn, hns]⟩

/-- Positions that read as nodes one by one: the first reads as the first node. -/
theorem NodeStore.map_get?_cons {t : NodeStore} {y : NodeId} {ys : List NodeId} {ns : List Node}
    (h : (y :: ys).map t.get? = ns.map some) :
    ∃ n ns', ns = n :: ns' ∧ t.get? y = some n ∧ ys.map t.get? = ns'.map some := by
  cases ns with
  | nil => simp at h
  | cons n ns' =>
    simp only [List.map_cons, List.cons.injEq] at h
    exact ⟨n, ns', rfl, h.1, h.2⟩

/-- Positions that read as nodes one by one: the last reads as the last node. -/
theorem NodeStore.get?_getLast {t : NodeStore} {y : NodeId} {ys : List NodeId} {n : Node}
    {ns : List Node} (h : (y :: ys).map t.get? = (n :: ns).map some) :
    t.get? ((y :: ys).getLast (List.cons_ne_nil y ys)) =
      some ((n :: ns).getLast (List.cons_ne_nil n ns)) := by
  have h' := congrArg List.getLast? h
  rw [List.getLast?_map, List.getLast?_map, List.getLast?_eq_some_getLast (List.cons_ne_nil y ys),
    List.getLast?_eq_some_getLast (List.cons_ne_nil n ns)] at h'
  simpa using h'

/-! ## Step checks as modifiers build them -/

/-- Step checks as step modifiers build them: a sequence holds at least two checks. -/
def StepCheck.WellFormed : StepCheck → Prop
  | .single _ => True
  | .sequence checks => 2 ≤ checks.size

theorem StepCheck.wellFormed_andThen {c : StepCheck} (h : c.WellFormed) (next : NodeId) :
    (c.andThen next).WellFormed := by
  cases c with
  | single first => simp [andThen, WellFormed]
  | sequence checks =>
    simp only [andThen, WellFormed, Array.size_push] at h ⊢
    omega

namespace Progression

/-- The step checks of a progression, if it has any, are as step modifiers build them. -/
def StepWellFormed (p : Progression) : Prop := ∀ c, p.step = some c → c.WellFormed

theorem stepWellFormed_withStep {p : Progression} (h : p.StepWellFormed) (check : NodeId)
    (needsLast : Bool) : (p.withStep check needsLast).StepWellFormed := by
  intro c hc
  simp only [withStep, Option.some.injEq] at hc
  subst hc
  rcases hp : p.step with _ | c'
  · trivial
  · exact StepCheck.wellFormed_andThen (h c' hp) check

theorem stepWellFormed_withSteps {d : Progression} (h : d.StepWellFormed) (k : Kind)
    (checks : List (NodeId × Bool)) : (d.withSteps k checks).StepWellFormed := by
  induction checks generalizing d with
  | nil => exact h
  | cons c rest ih =>
    obtain ⟨check, needsLast⟩ := c
    exact ih (stepWellFormed_withStep h check needsLast)

end Progression

/-! ## Building the step node on a store -/

namespace Progression

variable {p : Progression} {t : NodeStore}

theorem runOn_stepNode_none (h : p.step = none) : p.stepNode.runOn t = (.ok none, t) := by
  unfold stepNode
  rw [h]
  rfl

theorem runOn_stepNode_single {f : NodeId} (h : p.step = some (.single f)) :
    p.stepNode.runOn t = (.ok (some f), t) := by
  unfold stepNode
  rw [h]
  rfl

/-- Reading the spans of nodes of the store reads nothing else. -/
theorem runOn_mapM_span {ys : List NodeId} {ns : List Node}
    (h : ys.map t.get? = ns.map some) :
    (ys.mapM fun y => do pure (← StoreM.node y).span).runOn t = (.ok (ns.map (·.span)), t) := by
  induction ys generalizing ns with
  | nil =>
    obtain rfl : ns = [] := List.map_eq_nil_iff.mp (h.symm : ns.map some = [])
    rfl
  | cons y ys ih =>
    obtain ⟨n, ns, rfl, hy, hys⟩ := NodeStore.map_get?_cons h
    rw [runOn_mapM_cons, runOn_bind_of_ok (runOn_node_of_get hy)]
    simp only [runOn_pure, ih hys, List.map_cons]

/-- A sequence of checks, all nodes of the store, becomes one new block of the checks, with the
type of the last and a span covering all of theirs. -/
theorem runOn_stepNode_sequence {cs : Array NodeId} {f : NodeId} {rest : List NodeId} {nf : Node}
    {nrest : List Node} (h : p.step = some (.sequence cs)) (hcs : cs.toList = f :: rest)
    (hn : (f :: rest).map t.get? = (nf :: nrest).map some) :
    p.stepNode.runOn t =
      (.ok (some t.size), (t.push ⟨.block (f :: rest),
        ((nf :: nrest).getLast (List.cons_ne_nil nf nrest)).ty,
        nf.span.coverAll (nrest.map (·.span))⟩).1) := by
  have hf : t.get? f = some nf := by simpa using (List.cons.inj hn).1
  have hrest : rest.map t.get? = nrest.map some := (List.cons.inj hn).2
  unfold stepNode
  rw [h]
  simp only [hcs]
  rw [runOn_bind_of_ok (runOn_node_of_get (NodeStore.get?_getLast hn)),
    runOn_bind_of_ok (runOn_node_of_get hf),
    runOn_bind_of_ok (runOn_mapM_span hrest), runOn_map, runOn_append]

end Progression

/-! ## Building the step node on an arena -/

namespace NodeArena

variable {a : NodeArena}

/-- Reading the spans of nodes of an arena's view from the arena gives their spans. -/
theorem mapM_span_of_view {ys : List NodeId} {ns : List Node}
    (h : ys.map a.view.get? = ns.map some) : ys.mapM a.span = .ok (ns.map (·.span)) := by
  induction ys generalizing ns with
  | nil =>
    obtain rfl : ns = [] := List.map_eq_nil_iff.mp (h.symm : ns.map some = [])
    rfl
  | cons y ys ih =>
    obtain ⟨n, ns, rfl, hy, hys⟩ := NodeStore.map_get?_cons h
    rw [List.mapM_cons, (reads_of_view_get? hy).2, ih hys]
    rfl

/-- Storing a block's parts and appending the block, when the counts fit: the parts go at the
end of the flat array, the block after the last node, over the parts' range. -/
theorem pushComposite_of_lt {parts : List NodeId} {ty : Ty} {span : Span} (hne : parts ≠ [])
    (hs : a.lists.size < UInt32.size) (hl : parts.length < UInt16.size) (hn : a.size < UInt32.size) :
    ∃ r, a.pushComposite parts ty span =
        .ok ((a.appendList parts).appendNode ⟨.block r, ty, span⟩, a.size) ∧
      ((a.appendList parts).appendNode ⟨.block r, ty, span⟩).getList r = .ok parts := by
  obtain ⟨⟨b, r⟩, hlist⟩ := pushList_ok_iff.mpr (.inr ⟨hs, hl⟩)
  obtain ⟨hext, hsize, -, hget, -⟩ := pushList_reads hlist
  rcases pushList_eq_ok hlist with ⟨hnil, -⟩ | ⟨-, -, -, rfl, -, -⟩
  · exact absurd hnil hne
  refine ⟨r, ?_, (extends_appendNode _ _).getList hget⟩
  rw [pushComposite_eq_ok_iff]
  exact ⟨_, r, hlist, hsize ▸ push_of_lt (hsize ▸ hn)⟩

/-- A block stored: the counts fit, the parts went at the end of the flat array and the block
after the last node, over the parts' range. -/
theorem pushComposite_eq_ok_of_ne_nil {parts : List NodeId} {ty : Ty} {span : Span} {b : NodeArena}
    {id : NodeId} (hne : parts ≠ []) (h : a.pushComposite parts ty span = .ok (b, id)) :
    a.lists.size < UInt32.size ∧ parts.length < UInt16.size ∧ a.size < UInt32.size ∧
      ∃ r, b = (a.appendList parts).appendNode ⟨.block r, ty, span⟩ ∧ id = a.size ∧
        b.getList r = .ok parts := by
  obtain ⟨hfit, hsize⟩ := pushComposite_ok_iff.mp ⟨_, h⟩
  obtain ⟨hs, hl⟩ := hfit.resolve_left hne
  obtain ⟨r, hpc, hget⟩ := pushComposite_of_lt hne hs hl hsize
  rw [hpc] at h
  cases h
  exact ⟨hs, hl, hsize, r, rfl, rfl, hget⟩

/-- Storing a list longer than a 16-bit length allows stops, below `2 ^ 32` list entries. -/
theorem pushComposite_of_le_length {parts : List NodeId} {ty : Ty} {span : Span}
    (hs : a.lists.size < UInt32.size) (hl : UInt16.size ≤ parts.length) :
    a.pushComposite parts ty span = .error (.tooLong "expression list" parts.length) := by
  have hne : parts ≠ [] := fun h => by simp [h] at hl
  simp only [pushComposite, pushList_of_le_length hne hs hl, bind, Except.bind]

end NodeArena

namespace Progression

variable {p : Progression} {a : NodeArena}

/-- A sequence of checks, all nodes of the arena, becomes a block stored in the arena: the
checks as one list, then the block over its range, with the type of the last check and a span
from the least start of the checks' spans to the greatest stop. -/
theorem runArena_stepNode_sequence {cs : Array NodeId} (h : p.step = some (.sequence cs))
    (hlen : 2 ≤ cs.size) (hin : ∀ y ∈ cs.toList, y < a.size) :
    ∃ ty span spans last, cs.back? = some last ∧ a.ty last = .ok ty ∧
      cs.toList.mapM a.span = .ok spans ∧ some span.start = (spans.map (·.start)).min? ∧
      some span.stop = (spans.map (·.stop)).max? ∧
      p.stepNode.runArena a =
        match a.pushComposite cs.toList ty span with
        | .ok (a', _) => (.ok (some a.size), a')
        | .error e => (.error (.overflow e), a) := by
  obtain ⟨f, rest, hcs⟩ : ∃ f rest, cs.toList = f :: rest := by
    match hc : cs.toList, hlen with
    | f :: rest, _ => exact ⟨f, rest, rfl⟩
    | [], hlen => simp [← Array.length_toList, hc] at hlen
  -- every check is a node of the view
  obtain ⟨ns, hns⟩ := NodeStore.exists_map_get?_eq fun y hy =>
    (NodeArena.view_get?_of_lt (hin y (hcs ▸ hy))).imp fun _ hn => hn.1
  obtain ⟨nf, nrest, rfl, -, -⟩ := NodeStore.map_get?_cons hns
  have hlast : cs.back? = some ((f :: rest).getLast (List.cons_ne_nil f rest)) := by
    rw [← Array.getLast?_toList, hcs, List.getLast?_eq_some_getLast (List.cons_ne_nil f rest)]
  refine ⟨_, nf.span.coverAll (nrest.map (·.span)), (nf :: nrest).map (·.span), _, hlast,
    (NodeArena.reads_of_view_get? (NodeStore.get?_getLast hns)).1, hcs ▸ NodeArena.mapM_span_of_view hns, ?_, ?_, ?_⟩
  · rw [Span.some_start_coverAll]
    simp only [List.map_cons, List.map_map]
  · rw [Span.some_stop_coverAll]
    simp only [List.map_cons, List.map_map]
  · rw [StoreM.runArena_of_runOn_push (runOn_stepNode_sequence h hcs hns), NodeArena.size_view, hcs]
    rfl

end Progression

/-! ## The checks of a recognised progression -/

namespace Context

variable {ctx : Context} {s s' : NodeStore} {x : NodeId}

theorem Describes.step_eq_none {e : Node} {c : Call} {k : Kind} {i : Idiom} {d : Progression}
    (h : ctx.Describes e c k i s d s') : d.step = none := by
  cases h <;> rfl

/-- A chain's base description has no checks: they all come from the chain's modifiers. -/
theorem Heads.step_eq_none {k : Kind} {levels : List (Kind × NodeId)} {d : Progression}
    (h : ctx.Heads s x k levels d s') : d.step = none := by
  induction h with
  | base _ hd => exact hd.step_eq_none
  | step _ _ ih => exact ih

/-- A step check is a node of the store it leaves: the step itself, read there, or the check
call appended there. -/
theorem stepCheck_node {k : Kind} {a check : NodeId} {needsLast : Bool}
    (h : (ctx.stepCheck k a).runOn s = (.ok (check, needsLast), s')) :
    ∃ n, s'.get? check = some n := by
  rw [runOn_stepCheck] at h
  rcases hn : s.get? a with _ | n <;> simp only [hn] at h
  · cases h
  rcases hv : n.positiveLiteral? with _ | v <;> simp only [hv] at h
  · split at h
    · split at h
      · cases h
      · split at h
        · cases h
        · cases h
          exact ⟨_, NodeStore.get?_push_size _ _⟩
    · cases h
  · cases h
    exact ⟨n, hn⟩

theorem appends_mapM {α β : Type} {g : α → StoreM β} (hg : ∀ a, Appends (g a)) (as : List α) :
    Appends (as.mapM g) := by
  induction as with
  | nil => exact (reads_pure _).appends
  | cons a as ih =>
    rw [List.mapM_cons]
    exact (hg a).bind fun _ => ih.bind fun _ => (reads_pure _).appends

/-- Every check a chain's modifiers produce is a node of the store they leave. -/
theorem checkSteps_nodes {levels : List (Kind × NodeId)} {cs : List (NodeId × Bool)}
    (h : (ctx.checkSteps levels).runOn s = (.ok cs, s')) : ∀ c ∈ cs, ∃ n, s'.get? c.1 = some n := by
  induction levels generalizing s cs with
  | nil =>
    cases h
    simp
  | cons l levels ih =>
    rw [checkSteps] at h
    obtain ⟨c₀, s₁, cs', hc, hrest, rfl⟩ := runOn_mapM_cons_eq_ok _ h
    -- the first check stays a node while the later modifiers append theirs
    have happ : Appends (ctx.checkSteps levels) :=
      appends_mapM (fun l : Kind × NodeId => appends_stepCheck ctx l.1 l.2) levels
    have hext : s₁.Extends s' := happ s₁ _ s' hrest
    intro c hc'
    rcases List.mem_cons.mp hc' with rfl | hc'
    · obtain ⟨n, hn⟩ := stepCheck_node hc
      exact ⟨n, hext _ _ hn⟩
    · exact ih hrest c hc'

/-- Every check of a recognised progression is a node of the store recognition leaves. -/
theorem nodes_checks_of_recognize {p : Progression}
    (h : (ctx.recognize x).runOn s = (.ok (some p), s')) :
    ∀ f ∈ p.checks, ∃ n, s'.get? f = some n := by
  obtain ⟨k, levels, d, s₁, cs, hheads, hcs, rfl⟩ := heads_of_runOn_recognize h
  intro f hf
  rw [Progression.checks_withSteps, Progression.checks, hheads.step_eq_none, List.nil_append] at hf
  obtain ⟨c, hc, rfl⟩ := List.mem_map.mp hf
  exact checkSteps_nodes hcs c hc

/-- The step checks of a recognised progression are as step modifiers build them. -/
theorem stepWellFormed_of_recognize {p : Progression}
    (h : (ctx.recognize x).runOn s = (.ok (some p), s')) : p.StepWellFormed := by
  obtain ⟨k, levels, d, s₁, cs, hheads, -, rfl⟩ := heads_of_runOn_recognize h
  exact Progression.stepWellFormed_withSteps (fun c hc => by rw [hheads.step_eq_none] at hc; cases hc) k cs

theorem appends_recognize (ctx : Context) (x : NodeId) : Appends (ctx.recognize x) :=
  fun s r s' h => (keepsFrame_recognize ctx x s r s' h).1

/-- Every check of a progression recognised on an arena is a node of the arena recognition
leaves, and so of every arena that keeps its nodes. -/
theorem checks_lt_of_runArena {a a' a'' : NodeArena} {p : Progression}
    (h : (ctx.recognize x).runArena a = (.ok (some p), a')) (hext : a'.Extends a'') :
    p.StepWellFormed ∧ ∀ f ∈ p.checks, f < a''.size := by
  obtain ⟨s', hrun, -, hsize⟩ := StoreM.runArena_eq_ok (appends_recognize ctx x) h
  refine ⟨stepWellFormed_of_recognize hrun, fun f hf => ?_⟩
  obtain ⟨n, hn⟩ := nodes_checks_of_recognize hrun f hf
  have hlt : f < s'.size := (Array.getElem?_eq_some_iff.mp hn).1
  -- node ids are not arithmetic to `omega`, so the bound is chained by hand
  have hle : a'.size ≤ a''.size := hext.kinds.size_le
  exact Nat.lt_of_lt_of_le hlt (hsize ▸ hle)

/-- Building the step node of a progression recognised on an arena, in the arena recognition
left or any arena that keeps its nodes, reads no node past the end. A unit step is no node and
a single check is its own, and nothing is appended for either. The checks are never a sequence
of fewer than two. A sequence is stored exactly when the flat list array holds fewer than
`2 ^ 32` entries, the sequence has fewer than `2 ^ 16` checks and the arena fewer than
`2 ^ 32` nodes; then the checks are stored in order as one list and one block node is appended
over the list's range, with the type of the last check and a span from the least start of the
checks' spans to the greatest stop. A sequence of `2 ^ 16` checks or more stops with the
overflow of its length and leaves the arena as it was. -/
theorem recognize_stepNode (ctx : Context) (x : NodeId) (a a' a'' : NodeArena) (p : Progression)
    (h : (ctx.recognize x).runArena a = (.ok (some p), a')) (hext : a'.Extends a'') :
    (p.step = none → p.stepNode.runArena a'' = (.ok none, a'')) ∧
    (∀ f, p.step = some (.single f) → p.stepNode.runArena a'' = (.ok (some f), a'')) ∧
    ∀ cs, p.step = some (.sequence cs) →
      2 ≤ cs.size ∧
      ((∃ o b, p.stepNode.runArena a'' = (.ok o, b)) ↔
        a''.lists.size < UInt32.size ∧ cs.size < UInt16.size ∧ a''.size < UInt32.size) ∧
      (a''.lists.size < UInt32.size → UInt16.size ≤ cs.size →
        p.stepNode.runArena a'' = (.error (.overflow (.tooLong "expression list" cs.size)), a'')) ∧
      ∀ o b, p.stepNode.runArena a'' = (.ok o, b) →
        o = some a''.size ∧
        ∃ r ty span spans last, b = (a''.appendList cs.toList).appendNode ⟨.block r, ty, span⟩ ∧
          b.getList r = .ok cs.toList ∧ cs.back? = some last ∧ a''.ty last = .ok ty ∧
          cs.toList.mapM a''.span = .ok spans ∧ some span.start = (spans.map (·.start)).min? ∧
          some span.stop = (spans.map (·.stop)).max? := by
  obtain ⟨hwf, hlt⟩ := checks_lt_of_runArena h hext
  -- with nothing appended to the view, nothing is laid out
  refine ⟨fun hp => StoreM.runArena_of_runOn_same (Progression.runOn_stepNode_none hp),
    fun f hp => StoreM.runArena_of_runOn_same (Progression.runOn_stepNode_single hp),
    fun cs hp => ?_⟩
  have hlen : 2 ≤ cs.size := hwf _ hp
  have hin : ∀ y ∈ cs.toList, y < a''.size := fun y hy =>
    hlt y (by simp only [Progression.checks, hp, StepCheck.fragments]; exact hy)
  have hne : cs.toList ≠ [] := fun h' => by simp [← Array.length_toList, h'] at hlen
  obtain ⟨ty, span, spans, last, hlast, hty, hspans, hstart, hstop, hrun⟩ :=
    Progression.runArena_stepNode_sequence hp hlen hin
  refine ⟨hlen, ?_, fun hs hl => ?_, fun o b hob => ?_⟩
  · -- the block is stored exactly when its list and its node fit
    rw [hrun, ← Array.length_toList]
    constructor
    · rintro ⟨o, b, hob⟩
      rcases hpc : a''.pushComposite cs.toList ty span with e | ⟨b', id⟩
      · rw [hpc] at hob
        cases hob
      · obtain ⟨hs, hl, hn, -⟩ := NodeArena.pushComposite_eq_ok_of_ne_nil hne hpc
        exact ⟨hs, hl, hn⟩
    · rintro ⟨hs, hl, hn⟩
      obtain ⟨r, hpc, -⟩ := NodeArena.pushComposite_of_lt hne hs hl hn
      rw [hpc]
      exact ⟨_, _, rfl⟩
  · rw [hrun, NodeArena.pushComposite_of_le_length hs (by rwa [Array.length_toList]),
      Array.length_toList]
  · -- a block stored is the checks' list and the block node after the arena's nodes
    rcases hpc : a''.pushComposite cs.toList ty span with e | ⟨b', id⟩ <;> rw [hrun, hpc] at hob
    · cases hob
    obtain ⟨-, -, -, r, rfl, -, hget⟩ := NodeArena.pushComposite_eq_ok_of_ne_nil hne hpc
    cases hob
    exact ⟨rfl, r, ty, span, spans, last, rfl, hget, hlast, hty, hspans, hstart, hstop⟩

end Context

/-! ## An example

`xs.indices step 2 step 3` over an integer array `xs`, laid out in an arena: both steps are
positive literals, so they are their own checks, and the step node is a new block of the two. -/

/-- `xs.indices step 2 step 3`, its outermost call last. -/
def twoStepStore : NodeStore := ⟨#[
  ⟨.var "xs", intArrayClass, ⟨0, 2⟩⟩,
  ⟨.call ⟨0, none, some 0, []⟩, Ty.intRange, ⟨0, 10⟩⟩,
  ⟨.lit (.int 2), Ty.int, ⟨16, 17⟩⟩,
  ⟨.call ⟨1, none, some 1, [2]⟩, Ty.intProgression, ⟨0, 17⟩⟩,
  ⟨.lit (.int 3), Ty.int, ⟨23, 24⟩⟩,
  ⟨.call ⟨1, none, some 3, [4]⟩, Ty.intProgression, ⟨0, 24⟩⟩]⟩

/-- The example laid out in an arena. -/
def twoStepArena : NodeArena := (NodeArena.empty.layOutAll twoStepStore.nodes.toList).1

/-- The example's arena once the indices have appended their bounds. -/
def twoStepArenaAfter : NodeArena :=
  (twoStepArena.layOutAll [⟨.lit (.int 0), Ty.int, ⟨0, 10⟩⟩,
    ⟨.call ⟨2, some 0, none, []⟩, Ty.int, ⟨0, 10⟩⟩]).1

/-- The example's description: from the new zero to the new size call, stepping by 2 and then
by 3. -/
def twoStepProgression : Progression :=
  { kind := .int, start := 6, bound := 7, step := some (.sequence #[2, 4]), increasing := true,
    needsLast := true, closed := false }

theorem recognize_stepNode_two_steps :
    (exampleContext.recognize 5).runArena twoStepArena =
        (.ok (some twoStepProgression), twoStepArenaAfter) ∧
      twoStepArenaAfter.Extends twoStepArenaAfter ∧
      ∃ r ty span, twoStepProgression.stepNode.runArena twoStepArenaAfter =
        (.ok (some 8), (twoStepArenaAfter.appendList [2, 4]).appendNode ⟨.block r, ty, span⟩) ∧
        ((twoStepArenaAfter.appendList [2, 4]).appendNode ⟨.block r, ty, span⟩).getList r =
          .ok [2, 4] := by
  have h : (exampleContext.recognize 5).runArena twoStepArena =
      (.ok (some twoStepProgression), twoStepArenaAfter) := rfl
  obtain ⟨-, -, hseq⟩ := Context.recognize_stepNode exampleContext 5 twoStepArena twoStepArenaAfter
    twoStepArenaAfter twoStepProgression h (.refl _)
  obtain ⟨-, hfits, -, hblock⟩ := hseq #[2, 4] rfl
  obtain ⟨o, b, hob⟩ := hfits.mpr ⟨by decide, by decide, by decide⟩
  obtain ⟨ho, r, ty, span, -, -, rfl, hget, -⟩ := hblock o b hob
  refine ⟨h, .refl _, r, ty, span, ?_, hget⟩
  rw [hob, ho]
  rfl

/-- The example's description with the checks of 65536 step modifiers of step 2, as a chain of
that many modifiers over the example's receiver gives. -/
def longStepProgression : Progression :=
  { twoStepProgression with step := some (.sequence (Array.replicate 65536 2)) }

theorem longStepNode_overflows :
    longStepProgression.stepNode.runArena twoStepArenaAfter =
      (.error (.overflow (.tooLong "expression list" 65536)), twoStepArenaAfter) := by
  have hin : ∀ y ∈ (Array.replicate 65536 2).toList, y < twoStepArenaAfter.size := by
    intro y hy
    rw [Array.toList_replicate, List.mem_replicate] at hy
    rw [hy.2]
    decide
  obtain ⟨ty, span, -, -, -, -, -, -, -, hrun⟩ :=
    Progression.runArena_stepNode_sequence (p := longStepProgression) rfl
      (by rw [Array.size_replicate]; decide) hin
  rw [hrun, NodeArena.pushComposite_of_le_length (by decide)
    (by rw [Array.toList_replicate, List.length_replicate])]
  simp only [Array.toList_replicate, List.length_replicate]

end ProgressionIdioms
