import ProgressionIdioms.Proofs.Frame
/-!
# Recognition in a grown store

Recognition reads the node it is given, the receivers and steps of the step modifiers under it,
and the receiver of an array's indices; it appends zero constants, size calls and step-check
calls, and answers with ids. When every call of a store refers only to nodes of that store
(`NodeStore.Closed`), everything recognition of one of its nodes reads is a node of the store.
Recognising the node again after more nodes `M` were appended then reads the same nodes,
appends the same nodes, each `M.size` further on, and answers the same with every fresh id
moved up by `M.size` (`recognize_stable_under_growth`). Recognising a node twice is the case
where `M` is what the first recognition appended.

The proof runs both recognitions side by side. The store of the second is always the store of
the first with `M` put in at the old end (`NodeStore.graft`); a computation that runs alike on
the two (`StoreM.Grafts`) does so through every builder, and recognition does so by induction
on the descent through its step modifiers.

Ids are not checked, so a step may name a node that is not there yet. A step is read after
the receiver's nodes are appended, so such a step reads one of them, and after growth it reads
another node (`recognize_forward_step_unstable`).
-/

namespace ProgressionIdioms

open StoreM

/-! ## Stores whose calls stay inside -/

/-- The ids a call refers to: its receivers and its arguments. -/
def Call.refs (c : Call) : List NodeId := c.dispatch.toList ++ c.extension.toList ++ c.args

/-- The ids a node refers to as a call; other nodes refer to none. -/
def Node.callRefs (e : Node) : List NodeId :=
  match e.kind with
  | .call c => c.refs
  | _ => []

theorem Call.mem_refs_of_part {c : Call} {p : CallPart} {y : NodeId} (h : c.part p = some y) :
    y ∈ c.refs := by
  cases p with
  | dispatchReceiver | extensionReceiver => simp_all [Call.part, Call.refs]
  | argument => simp [Call.refs, List.mem_of_head? h]

namespace NodeStore

variable {s t : NodeStore} {n : Nat} {M : Array Node}

/-- Every call of the store refers only to nodes of the store. -/
def Closed (s : NodeStore) : Prop :=
  ∀ e ∈ s.nodes.toList, ∀ y ∈ e.callRefs, y < s.size

instance : DecidablePred Closed := fun s =>
  inferInstanceAs (Decidable (∀ e ∈ s.nodes.toList, ∀ y ∈ e.callRefs, y < s.size))

/-- A call read from a closed store refers only to nodes of the store. -/
theorem Closed.refs_lt (hs : s.Closed) {x : NodeId} {e : Node} {c : Call}
    (he : s.get? x = some e) (hc : e.kind = .call c) : ∀ y ∈ c.refs, y < s.size := by
  intro y hy
  refine hs e (Array.mem_toList_iff.mpr (Array.mem_of_getElem? he)) y ?_
  simpa [Node.callRefs, hc] using hy

/-! ## Putting nodes in -/

/-- The store with the nodes `M` put in at position `n`; the nodes from `n` on come after
them. -/
def graft (s : NodeStore) (n : Nat) (M : Array Node) : NodeStore :=
  ⟨s.nodes.extract 0 n ++ M ++ s.nodes.extract n s.size⟩

theorem size_graft : (s.graft n M).size = s.size + M.size := by
  simp only [graft, size, Array.size_append, Array.size_extract]
  omega

theorem get?_of_lt {y : NodeId} (h : y < s.size) : ∃ e, s.get? y = some e :=
  ⟨_, Array.getElem?_eq_getElem h⟩

theorem get?_graft_of_lt {y : Nat} (hy : y < n) (h : n ≤ s.size) :
    (s.graft n M).get? y = s.get? y := by
  simp only [size] at h
  have h₁ : y < (s.nodes.extract 0 n).size := by simp; omega
  have h₂ : y < (s.nodes.extract 0 n ++ M).size := by simp; omega
  simp only [graft, get?]
  rw [Array.getElem?_append_left h₂, Array.getElem?_append_left h₁, Array.getElem?_extract,
    Nat.zero_add, if_pos (by simpa using h₁)]

/-- Appending after the grafted nodes is appending before grafting them. -/
theorem push_graft (h : n ≤ s.size) (x : Node) :
    ((s.graft n M).push x).1 = ((s.push x).1).graft n M := by
  simp only [size] at h
  simp only [graft, push, size, Array.size_push, Array.extract_push, if_pos h,
    if_neg (Nat.not_succ_le_self _), Array.push_append]

/-- Grafting at the end appends. -/
theorem graft_size (s : NodeStore) (M : Array Node) : s.graft s.size M = ⟨s.nodes ++ M⟩ := by
  simp [graft, size, Array.extract_eq_self_of_le]

theorem Extends.graft_eq (h : s.Extends t) (M : Array Node) :
    t.graft s.size M = ⟨s.nodes ++ M ++ t.nodes.extract s.size⟩ := by
  rw [graft, h.extract_eq]
  rfl

end NodeStore

/-! ## Moving fresh ids -/

/-- Moves the ids from `n` on up by `m`, as putting `m` nodes in at `n` moves the nodes. -/
def shiftId (n m : Nat) (y : NodeId) : NodeId := if y < n then y else y + m

theorem shiftId_of_lt {n m y : Nat} (h : y < n) : shiftId n m y = y := if_pos h

theorem shiftId_of_le {n m y : Nat} (h : n ≤ y) : shiftId n m y = y + m :=
  if_neg (Nat.not_lt.mpr h)

/-- Step checks with every id moved by `f`. -/
def StepCheck.map (f : NodeId → NodeId) : StepCheck → StepCheck
  | .single check => .single (f check)
  | .sequence checks => .sequence (checks.map f)

/-- A progression with every id from `n` on moved up by `m`. -/
def Progression.shift (n m : Nat) (p : Progression) : Progression :=
  { p with start := shiftId n m p.start, bound := shiftId n m p.bound,
           step := p.step.map (StepCheck.map (shiftId n m)) }

namespace Progression

variable {n m : Nat}

@[simp]
theorem shift_basic (k : Kind) (a b : NodeId) (increasing closed : Bool) :
    (basic k a b increasing closed).shift n m =
      basic k (shiftId n m a) (shiftId n m b) increasing closed := rfl

theorem shift_withStep (p : Progression) (check : NodeId) (needsLast : Bool) (k : Kind) :
    ({ p.withStep check needsLast with kind := k } : Progression).shift n m =
      { (p.shift n m).withStep (shiftId n m check) needsLast with kind := k } := by
  obtain ⟨kind, start, bound, step, increasing, needsLast', closed⟩ := p
  rcases step with _ | ⟨first⟩ | ⟨checks⟩ <;>
    simp [shift, withStep, StepCheck.andThen, StepCheck.map]

end Progression

/-! ## Running alike on a grown store -/

/-- `m` run on `s` with `M` put in at `n` ends as it does on `s`, its outcome mapped by `f`, and
leaves the store it leaves on `s` with `M` put in at `n`. -/
def StoreM.Grafts {α : Type} (m : StoreM α) (n : Nat) (M : Array Node) (f : α → α)
    (s : NodeStore) : Prop :=
  m.runOn (s.graft n M) = ((m.runOn s).1.map f, (m.runOn s).2.graft n M)

theorem StoreM.Grafts.map {α β : Type} {m : StoreM α} {n : Nat} {M : Array Node} {f : α → α}
    {s : NodeStore} (g : α → β) {f' : β → β} (hg : ∀ a, f' (g a) = g (f a))
    (hm : m.Grafts n M f s) : (g <$> m).Grafts n M f' s := by
  unfold StoreM.Grafts at hm ⊢
  rw [runOn_map, runOn_map, hm]
  rcases m.runOn s with ⟨_ | a, s'⟩
  · rfl
  · simp only [Except.map, hg]

namespace Context

variable {ctx : Context} {S : NodeStore} {n : Nat} {M : Array Node} {x : NodeId} {e : Node}
  {c : Call} {k : Kind} {inner : NodeId → StoreM (Option Progression)}

theorem classify_graft (hx : x < n) (h : n ≤ S.size) :
    ctx.classify (S.graft n M) x = ctx.classify S x := by
  obtain ⟨e, he⟩ := NodeStore.get?_of_lt (Nat.lt_of_lt_of_le hx h)
  rw [classify, classify, NodeStore.get?_graft_of_lt hx h, he]

theorem descent?_graft (hx : x < n) (h : n ≤ S.size) :
    ctx.descent? (S.graft n M) x = ctx.descent? S x := by
  simp only [descent?, classify_graft hx h]

/-! ### The builders -/

theorem grafts_rangeOf {p : CallPart} {increasing closed : Bool} (hc : ∀ y ∈ c.refs, y < n) :
    (rangeOf c k p increasing closed).Grafts n M (Progression.shift n M.size) S := by
  unfold StoreM.Grafts
  rw [runOn_rangeOf, runOn_rangeOf]
  rcases hp : c.part p with _ | a
  · rfl
  rcases hb : c.part .argument with _ | b
  · rfl
  · simp only [Except.map, Progression.shift_basic,
      shiftId_of_lt (hc a (Call.mem_refs_of_part hp)), shiftId_of_lt (hc b (Call.mem_refs_of_part hb))]

/-- The indices of an array append their two nodes at the grown store's end. -/
theorem grafts_indicesOf (hc : ∀ y ∈ c.refs, y < n) (h : n ≤ S.size) :
    (ctx.indicesOf e c k).Grafts n M (Progression.shift n M.size) S := by
  unfold StoreM.Grafts
  rw [runOn_indicesOf, runOn_indicesOf]
  rcases hr : c.part .extensionReceiver with _ | r
  · rfl
  have hrn : r < n := hc r (Call.mem_refs_of_part hr)
  obtain ⟨nd, hnd⟩ := NodeStore.get?_of_lt (Nat.lt_of_lt_of_le hrn h)
  dsimp only
  rw [NodeStore.get?_graft_of_lt hrn h, hnd]
  dsimp only
  rcases ctx.config.sizeAccessor? ((ctx.types.classifier nd.ty).getD nd.ty) with _ | f
  · rfl
  have h₁ : n ≤ (S.push ⟨.lit (.int 0), Ty.int, e.span⟩).1.size := by simp; omega
  have h₂ : n ≤ S.size + 1 := Nat.le_succ_of_le h
  rcases hsig : ctx.sigs.get? f with _ | sig
  · simp only [hsig, Except.map, NodeStore.push_graft h]
  · simp only [hsig, Except.map, NodeStore.push_graft h, NodeStore.push_graft h₁,
      NodeStore.size_graft, Progression.shift_basic, shiftId_of_le h,
      shiftId_of_le h₂, Nat.add_right_comm]

theorem grafts_build {i : Idiom} (hi : i ≠ .step) (hc : ∀ y ∈ c.refs, y < n) (h : n ≤ S.size) :
    (ctx.build inner e c k i).Grafts n M (Option.map (Progression.shift n M.size)) S := by
  cases i with
  | rangeTo | downTo | upUntil => exact (grafts_rangeOf hc).map some fun _ => rfl
  | indices => exact (grafts_indicesOf hc h).map some fun _ => rfl
  | step => exact absurd rfl hi

/-- A step check appends its call, if any, at the grown store's end. -/
theorem grafts_stepCheck {a : NodeId} (ha : a < n) (h : n ≤ S.size) :
    (ctx.stepCheck k a).Grafts n M (Prod.map (shiftId n M.size) id) S := by
  unfold StoreM.Grafts
  obtain ⟨nd, hnd⟩ := NodeStore.get?_of_lt (Nat.lt_of_lt_of_le ha h)
  rw [runOn_stepCheck, runOn_stepCheck, NodeStore.get?_graft_of_lt ha h, hnd]
  dsimp only
  rcases nd.positiveLiteral? with _ | v
  · dsimp only
    by_cases hst : ctx.types.stripNullable nd.ty = k.stepType
    · rw [if_pos hst, if_pos hst]
      rcases ctx.config.stepCheck? (ctx.types.stripNullable nd.ty) with _ | f
      · rfl
      rcases hsig : ctx.sigs.get? f with _ | sig
      · simp only [hsig]
        rfl
      · simp only [hsig, Except.map, Prod.map, id, NodeStore.push_graft h, NodeStore.size_graft,
          shiftId_of_le h]
    · rw [if_neg hst, if_neg hst]
      rfl
  · simp only [Except.map, Prod.map, id, shiftId_of_lt ha]

/-- A step modifier continues alike from its receiver's description with its fresh ids moved. -/
theorem runOn_afterReceiver_graft {a : NodeId} {fb : Option Idiom} (ha : a < n)
    (hc : ∀ y ∈ c.refs, y < n) (hfb : ∀ i, fb = some i → i ≠ .step) (h : n ≤ S.size)
    (o : Option Progression) :
    (ctx.afterReceiver inner e c k a fb (o.map (Progression.shift n M.size))).runOn
        (S.graft n M) =
      (((ctx.afterReceiver inner e c k a fb o).runOn S).1.map
          (Option.map (Progression.shift n M.size)),
        ((ctx.afterReceiver inner e c k a fb o).runOn S).2.graft n M) := by
  rcases o with _ | p
  · rcases fb with _ | i
    · rfl
    · exact grafts_build (hfb i rfl) hc h
  have hcheck : (ctx.stepCheck k a).Grafts n M (Prod.map (shiftId n M.size) id) S :=
    grafts_stepCheck ha h
  unfold StoreM.Grafts at hcheck
  simp only [Option.map, afterReceiver]
  rcases hrun : (ctx.stepCheck k a).runOn S with ⟨_ | ⟨check, needsLast⟩, S₁⟩ <;>
    rw [hrun] at hcheck
  · rw [runOn_bind_of_error hrun, runOn_bind_of_error hcheck]
    rfl
  · rw [runOn_bind_of_ok hrun, runOn_bind_of_ok hcheck]
    simp only [runOn_pure, Except.map, Option.map, Prod.map, id, Progression.shift_withStep]

/-! ### Recognition -/

/-- One level of recognition in a closed store runs alike on the grown store, given that the
recognition of the receiver it descends into does. -/
theorem grafts_recognize_of_receiver (hS : S.Closed) (hx : x < S.size)
    (ih : ∀ r, ctx.descent? S x = some r →
      (ctx.recognize r).Grafts S.size M (Option.map (Progression.shift S.size M.size)) S) :
    (ctx.recognize x).Grafts S.size M (Option.map (Progression.shift S.size M.size)) S := by
  unfold StoreM.Grafts
  rw [runOn_recognize, runOn_recognize, classify_graft hx le_rfl]
  rcases hv : ctx.classify S x with st | _ | ⟨e, c, k, i⟩ | f | ⟨e, c, k, r, a, fb⟩
  case stop | plain | malformed => rfl
  case base =>
    obtain ⟨he, -, hc, -⟩ := classify_eq_base_iff.mp hv
    exact grafts_build (classify_base_ne_step hv) (hS.refs_lt he hc) le_rfl
  case step =>
    obtain ⟨he, -, hc, -, -, -, hr, ha, -⟩ := classify_eq_step_iff.mp hv
    have hrefs := hS.refs_lt he hc
    have hfb : ∀ i, fb = some i → i ≠ .step := fun i hi => classify_fallback_ne_step (hi ▸ hv)
    have hrec := ih r (descent?_eq_some_iff.mpr ⟨e, c, k, a, fb, hv⟩)
    unfold StoreM.Grafts at hrec
    simp only [resume]
    rcases hrun : (ctx.recognize r).runOn S with ⟨_ | o, S₁⟩ <;> rw [hrun] at hrec
    · rw [runOn_bind_of_error hrun, runOn_bind_of_error hrec]
      rfl
    · have hS₁ : S.size ≤ S₁.size := (keepsFrame_recognize ctx r S _ S₁ hrun).1.size_le
      rw [runOn_bind_of_ok hrun, runOn_bind_of_ok hrec]
      exact runOn_afterReceiver_graft (hrefs a (Call.mem_refs_of_part ha)) hrefs hfb hS₁ o

/-- In a closed store, recognition descends only into nodes of the store. -/
theorem lt_size_of_descent?_of_closed (hS : S.Closed) {r : NodeId}
    (h : ctx.descent? S x = some r) : r < S.size := by
  obtain ⟨e, c, he, hc, hr⟩ := receiver_of_descent? h
  exact hS.refs_lt he hc r (Call.mem_refs_of_part hr)

/-- A descent in the grown store from a node of a closed store is a descent in the store. -/
theorem Descent.of_graft (hS : S.Closed) {path : List NodeId}
    (hd : ctx.Descent (S.graft S.size M) x path) (hx : x < S.size) : ctx.Descent S x path := by
  induction hd with
  | stop h => exact .stop (by rwa [descent?_graft hx le_rfl] at h)
  | step h _ ih =>
    rw [descent?_graft hx le_rfl] at h
    exact .step h (ih (lt_size_of_descent?_of_closed hS h))

/-- Recognition of a node of a closed store runs alike on the store with any nodes appended. -/
theorem grafts_recognize (hS : S.Closed) (hx : x < S.size) :
    (ctx.recognize x).Grafts S.size M (Option.map (Progression.shift S.size M.size)) S := by
  by_cases hd : ∃ path, ctx.Descent S x path
  · obtain ⟨path, hd⟩ := hd
    -- the receivers along the descent are nodes of the store, by closedness
    induction hd with
    | stop h =>
      exact grafts_recognize_of_receiver hS hx fun r hr => by simp [h] at hr
    | step h _ ih =>
      refine grafts_recognize_of_receiver hS hx fun r' hr' => ?_
      rw [h] at hr'
      cases hr'
      exact ih (lt_size_of_descent?_of_closed hS h)
  · -- without a descent that ends in the store there is none in the grown store: both loop
    have hd' : ¬∃ path, ctx.Descent (S.graft S.size M) x path :=
      fun ⟨path, h⟩ => hd ⟨path, h.of_graft hS hx⟩
    unfold StoreM.Grafts
    rw [runOn_recognize_of_not_descent hd, runOn_recognize_of_not_descent hd']
    rfl

end Context

/-- Recognition of a node of a store whose calls refer only to its nodes is stable under
growth. With nodes `M` appended, it answers the same with every fresh id moved up by `M.size`
and appends the same nodes after `M`; recognising the node a second time, in the store the
first recognition left, is the case where `M` is what that recognition appended. -/
theorem recognize_stable_under_growth (ctx : Context) (A : NodeStore) (M : Array Node)
    (x : NodeId) (hA : A.Closed) (hx : x < A.size) :
    (ctx.recognize x).runOn ⟨A.nodes ++ M⟩ =
        (((ctx.recognize x).runOn A).1.map (Option.map (Progression.shift A.size M.size)),
          ⟨A.nodes ++ M ++ ((ctx.recognize x).runOn A).2.nodes.extract A.size⟩) ∧
      (ctx.recognize x).runOn ((ctx.recognize x).runOn A).2 =
        (((ctx.recognize x).runOn A).1.map (Option.map (Progression.shift A.size
            (((ctx.recognize x).runOn A).2.size - A.size))),
          ⟨((ctx.recognize x).runOn A).2.nodes ++
            ((ctx.recognize x).runOn A).2.nodes.extract A.size⟩) := by
  obtain ⟨r, ⟨nodes'⟩, hrun⟩ : ∃ r S', (ctx.recognize x).runOn A = (r, S') := ⟨_, _, rfl⟩
  have hext : A.Extends ⟨nodes'⟩ := (Context.keepsFrame_recognize ctx x A r _ hrun).1
  have hgrow : ∀ M : Array Node, (ctx.recognize x).runOn ⟨A.nodes ++ M⟩ =
      (r.map (Option.map (Progression.shift A.size M.size)),
        ⟨A.nodes ++ M ++ nodes'.extract A.size⟩) := by
    intro M
    have h : (ctx.recognize x).Grafts A.size M (Option.map (Progression.shift A.size M.size)) A :=
      Context.grafts_recognize hA hx
    rw [StoreM.Grafts, NodeStore.graft_size, hrun, hext.graft_eq] at h
    exact h
  refine ⟨by rw [hrun]; exact hgrow M, ?_⟩
  -- the store the first recognition left is `A` with its fresh nodes appended
  have h := hgrow (nodes'.extract A.size)
  rw [← hext.nodes_eq, Array.size_extract, Nat.min_self] at h
  rw [hrun]
  exact h

/-! ## Examples

With a step check for `Int` steps, recognition of `xs.indices step n` over an integer array
appends a zero, a size call and a check call; the store is closed, so recognition in a grown
store moves the three fresh ids. When the step names the node just past the store's end instead,
recognition reads as the step the zero it has just appended; once a literal `2` has been
appended there, it reads the literal, which is its own check. -/

/-- The callees of `exampleSigs` and a step check for `Int` steps. -/
def checkedSigs : SignatureTable :=
  ⟨exampleSigs.sigs.push
    ⟨⟨["core", "internal", "checkProgressionStep"]⟩, [Ty.int], none, none, Ty.int⟩⟩

/-- The recogniser of `exampleContext` with the step check of `checkedSigs` registered. -/
def checkedContext : Context :=
  ⟨TypeTable.builtin, checkedSigs,
    Config.make Spelling.segmented (HelperTable.ofList [(intArrayClass, 2)])
      (HelperTable.ofList [(Ty.int, 3)]),
    Idiom.priority, .refl _⟩

/-- An `Int` literal `2`. -/
def literalTwo : Node := ⟨.lit (.int 2), Ty.int, ⟨16, 17⟩⟩

theorem recognize_stable_under_growth_checked :
    exampleStore.Closed ∧ 3 < exampleStore.size ∧
      ((checkedContext.recognize 3).runOn ⟨exampleStore.nodes ++ #[literalTwo]⟩ =
          (((checkedContext.recognize 3).runOn exampleStore).1.map
              (Option.map (Progression.shift exampleStore.size #[literalTwo].size)),
            ⟨exampleStore.nodes ++ #[literalTwo] ++
              ((checkedContext.recognize 3).runOn exampleStore).2.nodes.extract
                exampleStore.size⟩) ∧
        (checkedContext.recognize 3).runOn ((checkedContext.recognize 3).runOn exampleStore).2 =
          (((checkedContext.recognize 3).runOn exampleStore).1.map
              (Option.map (Progression.shift exampleStore.size
                (((checkedContext.recognize 3).runOn exampleStore).2.size - exampleStore.size))),
            ⟨((checkedContext.recognize 3).runOn exampleStore).2.nodes ++
              ((checkedContext.recognize 3).runOn exampleStore).2.nodes.extract
                exampleStore.size⟩)) :=
  ⟨by decide, by decide,
    recognize_stable_under_growth checkedContext exampleStore #[literalTwo] 3 (by decide)
      (by decide)⟩

/-- `xs.indices step s` where the step `s` names the node just past the store's end. -/
def forwardStepStore : NodeStore := ⟨#[
  ⟨.var "xs", intArrayClass, ⟨0, 2⟩⟩,
  ⟨.call ⟨0, none, some 0, []⟩, Ty.intRange, ⟨0, 10⟩⟩,
  ⟨.call ⟨1, none, some 1, [3]⟩, Ty.intProgression, ⟨0, 17⟩⟩]⟩

theorem recognize_forward_step_unstable :
    ¬forwardStepStore.Closed ∧
      ((checkedContext.recognize 2).runOn forwardStepStore).1 =
        .ok (some { kind := .int, start := 3, bound := 4, step := some (.single 5), increasing := true,
                    needsLast := true, closed := false }) ∧
      ((checkedContext.recognize 2).runOn ⟨forwardStepStore.nodes ++ #[literalTwo]⟩).1 =
        .ok (some { kind := .int, start := 4, bound := 5, step := some (.single 3), increasing := true,
                    needsLast := true, closed := false }) ∧
      ({ kind := .int, start := 4, bound := 5, step := some (.single 3), increasing := true,
          needsLast := true, closed := false } : Progression) ≠
        Progression.shift forwardStepStore.size #[literalTwo].size
          { kind := .int, start := 3, bound := 4, step := some (.single 5), increasing := true,
            needsLast := true, closed := false } :=
  ⟨by decide, rfl, rfl, by decide⟩

end ProgressionIdioms
