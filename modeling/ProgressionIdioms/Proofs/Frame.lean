import ProgressionIdioms.Proofs.Descent
import ProgressionIdioms.Proofs.Builders
/-!
# What recognition does to the store

Recognition only ever appends: every node that was in the store is still there, at the same
id, whatever the recognition returns. When it answers that a node is no progression it
appends nothing at all, at any depth of step modifiers, because a step modifier declines only
when its receiver declined and before it checks its step. When it stops part way, it keeps the
nodes it appended before the stop.

The frame is proved compositionally: every primitive either only reads the store or appends
to it, `bind` keeps both, and one step of recognition keeps the frame of the recognition of
its receiver.
-/

namespace ProgressionIdioms

namespace NodeStore

variable {s t : NodeStore}

theorem Extends.size_le (h : s.Extends t) : s.size ≤ t.size := by
  by_contra hlt
  have hlt' : t.nodes.size < s.nodes.size := by simp only [size] at hlt; omega
  have hget : s.get? t.nodes.size = some s.nodes[t.nodes.size] := Array.getElem?_eq_getElem hlt'
  simpa [get?] using h _ _ hget

/-- A store that keeps the nodes of `s` starts with them. -/
theorem Extends.extract_eq (h : s.Extends t) : t.nodes.extract 0 s.size = s.nodes := by
  have hle := h.size_le
  simp only [size] at hle
  refine Array.ext_getElem? fun i => ?_
  rw [Array.getElem?_extract, Nat.zero_add]
  by_cases hi : i < s.nodes.size
  · rw [if_pos (by simp only [size]; omega)]
    have hs : s.get? i = some s.nodes[i] := Array.getElem?_eq_getElem hi
    exact (h i _ hs).trans hs.symm
  · rw [if_neg (by simp only [size]; omega), Array.getElem?_eq_none (by omega)]

/-- A store that keeps the nodes of `s` is `s` with more nodes appended. -/
theorem Extends.nodes_eq (h : s.Extends t) : t.nodes = s.nodes ++ t.nodes.extract s.size := by
  have hle : s.size ≤ t.nodes.size := h.size_le
  rw [← h.extract_eq, Array.extract_append_extract, Nat.min_eq_left (Nat.zero_le _),
    Nat.max_eq_right hle, Array.extract_eq_self_of_le le_rfl]

end NodeStore

namespace StoreM

variable {α β : Type}

/-- A computation that only reads the store: it leaves the store as it found it. -/
def Reads (m : StoreM α) : Prop :=
  ∀ s r s', m.runOn s = (r, s') → s' = s

/-- A computation that only appends to the store: the store it leaves keeps every node of the
store it found. -/
def Appends (m : StoreM α) : Prop :=
  ∀ s r s', m.runOn s = (r, s') → s.Extends s'

theorem Reads.appends {m : StoreM α} (h : Reads m) : Appends m := by
  intro s r s' hm
  rw [h s r s' hm]
  exact NodeStore.Extends.refl s

theorem reads_pure (a : α) : Reads (pure a : StoreM α) := by
  intro s r s' h
  cases h
  rfl

theorem reads_throw (e : Stop) : Reads (throw e : StoreM α) := by
  intro s r s' h
  cases h
  rfl

theorem reads_fail (f : Fault) : Reads (fail f : StoreM α) := reads_throw _

theorem reads_node (id : NodeId) : Reads (node id) := by
  intro s r s' h
  rcases hs : s.get? id with _ | n
  · rw [runOn_node_of_get_none hs] at h
    cases h
    rfl
  · rw [runOn_node_of_get hs] at h
    cases h
    rfl

theorem reads_signature (sigs : SignatureTable) (f : FnId) : Reads (signature sigs f) := by
  rcases hs : sigs.get? f with _ | sig
  · rw [signature_of_get_none hs]
    exact reads_throw _
  · rw [signature_of_get hs]
    exact reads_pure _

theorem reads_require (c : Call) (p : CallPart) : Reads (require c p) := by
  rcases hp : c.part p with _ | id
  · rw [require_of_part_none hp]
    exact reads_throw _
  · rw [require_of_part hp]
    exact reads_pure _

theorem appends_append (n : Node) : Appends (append n) := by
  intro s r s' h
  rw [runOn_append] at h
  cases h
  exact NodeStore.extends_push s n

theorem Reads.bind {m : StoreM α} {f : α → StoreM β} (hm : Reads m) (hf : ∀ a, Reads (f a)) :
    Reads (m >>= f) := by
  intro s r s' h
  rcases runOn_bind_eq h with ⟨a, s₁, h₁, h₂⟩ | ⟨e, h₁, -⟩
  · rw [hf a s₁ r s' h₂, hm s _ s₁ h₁]
  · exact hm s _ s' h₁

theorem Appends.bind {m : StoreM α} {f : α → StoreM β} (hm : Appends m)
    (hf : ∀ a, Appends (f a)) : Appends (m >>= f) := by
  intro s r s' h
  rcases runOn_bind_eq h with ⟨a, s₁, h₁, h₂⟩ | ⟨e, h₁, -⟩
  · exact (hm s _ s₁ h₁).trans (hf a s₁ r s' h₂)
  · exact hm s _ s' h₁

theorem Appends.map {m : StoreM α} (g : α → β) (hm : Appends m) : Appends (g <$> m) := by
  rw [map_eq_pure_bind]
  exact hm.bind fun a => (reads_pure _).appends

/-- A computation whose value is wrapped in `some` never answers `none`. -/
theorem runOn_some_map_ne_none (m : StoreM α) (s s' : NodeStore) :
    (some <$> m).runOn s ≠ (.ok none, s') := by
  rw [runOn_map]
  rcases m.runOn s with ⟨_ | _, _⟩ <;> simp

end StoreM

open StoreM

namespace Context

variable {ctx : Context} {inner : NodeId → StoreM (Option Progression)} {e : Node} {c : Call}
  {k : Kind} {i : Idiom}

/-! ## The builders -/

theorem reads_rangeOf (c : Call) (k : Kind) (start : CallPart) (increasing closed : Bool) :
    Reads (rangeOf c k start increasing closed) :=
  (reads_require c start).bind fun _ => (reads_require c .argument).bind fun _ => reads_pure _

theorem appends_indicesOf (ctx : Context) (e : Node) (c : Call) (k : Kind) :
    Appends (ctx.indicesOf e c k) := by
  unfold indicesOf
  refine (reads_require c _).appends.bind fun r => (reads_node r).appends.bind fun n => ?_
  dsimp only
  split
  · exact (reads_fail _).appends
  · exact (appends_append _).bind fun _ => (reads_signature _ _).appends.bind fun _ =>
      (appends_append _).bind fun _ => (reads_pure _).appends

theorem appends_stepCheck (ctx : Context) (k : Kind) (a : NodeId) :
    Appends (ctx.stepCheck k a) := by
  unfold stepCheck
  refine (reads_node a).appends.bind fun n => ?_
  split
  · exact (reads_pure _).appends
  · dsimp only
    split
    · exact (reads_fail _).appends
    · split
      · exact (reads_fail _).appends
      · exact (reads_signature _ _).appends.bind fun _ => (appends_append _).bind fun _ =>
          (reads_pure _).appends

/-- A step check that stops has appended nothing: its only append is its last step. -/
theorem stepCheck_reads_of_error {k : Kind} {a : NodeId} {s s' : NodeStore} {f : Stop}
    (h : (ctx.stepCheck k a).runOn s = (.error f, s')) : s' = s := by
  rw [runOn_stepCheck] at h
  rcases hn : s.get? a with _ | n <;> simp only [hn] at h
  · cases h
    rfl
  rcases hp : n.positiveLiteral? with _ | v <;> simp only [hp] at h
  · split at h
    · split at h
      · cases h
        rfl
      · split at h
        · cases h
          rfl
        · cases h
    · cases h
      rfl
  · cases h

theorem appends_build (hi : i ≠ .step) : Appends (ctx.build inner e c k i) := by
  cases i with
  | rangeTo => exact (reads_rangeOf c k _ _ _).appends.map some
  | downTo => exact (reads_rangeOf c k _ _ _).appends.map some
  | upUntil => exact (reads_rangeOf c k _ _ _).appends.map some
  | indices => exact (appends_indicesOf ctx e c k).map some
  | step => exact absurd rfl hi

theorem runOn_build_ne_none (hi : i ≠ .step) (s s' : NodeStore) :
    (ctx.build inner e c k i).runOn s ≠ (.ok none, s') := by
  cases i with
  | step => exact absurd rfl hi
  | _ => exact runOn_some_map_ne_none _ s s'

/-! ## One step of recognition, and every recognition -/

/-- What recognition of any node does to the store: it only appends, and it appends nothing
when it answers that the node is no progression. -/
def KeepsFrame (inner : NodeId → StoreM (Option Progression)) : Prop :=
  ∀ x s r s', (inner x).runOn s = (r, s') → s.Extends s' ∧ (r = .ok none → s' = s)

theorem keepsFrame_recognizeBy (h : KeepsFrame inner) : KeepsFrame (ctx.recognizeBy inner) := by
  intro x s r s' hrun
  rw [runOn_recognizeBy] at hrun
  rcases hv : ctx.classify s x with st | _ | ⟨e, c, k, i⟩ | f | ⟨e, c, k, r₀, a, fb⟩ <;>
    rw [hv] at hrun
  case stop | plain | malformed =>
    cases hrun
    exact ⟨NodeStore.Extends.refl s, fun _ => rfl⟩
  case base =>
    have hi := classify_base_ne_step hv
    refine ⟨appends_build hi s r s' hrun, fun hr => ?_⟩
    subst hr
    exact absurd hrun (runOn_build_ne_none hi s s')
  case step =>
    rcases runOn_bind_eq hrun with ⟨o, s₁, h₁, h₂⟩ | ⟨e', h₁, rfl⟩
    · obtain ⟨hext, hnone⟩ := h r₀ s _ s₁ h₁
      rcases o with _ | p
      · -- the receiver declined and appended nothing; the fallback may describe the call
        rw [hnone rfl] at h₂
        rcases fb with _ | i
        · cases h₂
          exact ⟨NodeStore.Extends.refl s, fun _ => rfl⟩
        · have hi := classify_fallback_ne_step hv
          refine ⟨appends_build hi s r s' h₂, fun hr => ?_⟩
          subst hr
          exact absurd h₂ (runOn_build_ne_none hi s s')
      · -- the receiver is a progression: its step check appends, and the answer is `some`
        have happ : Appends (ctx.afterReceiver inner e c k a fb (some p)) :=
          (appends_stepCheck ctx k a).bind fun _ => (reads_pure _).appends
        refine ⟨hext.trans (happ s₁ r s' h₂), fun hr => ?_⟩
        subst hr
        rcases runOn_bind_eq h₂ with ⟨_, _, _, h₃⟩ | ⟨_, _, h₃⟩ <;> cases h₃
    · exact ⟨(h r₀ s _ s' h₁).1, fun hr => by cases hr⟩

theorem keepsFrame_recognizeWithin (fuel : Nat) : KeepsFrame (ctx.recognizeWithin fuel) := by
  induction fuel with
  | zero =>
    intro x s r s' h
    cases h
    exact ⟨NodeStore.Extends.refl s, fun hr => by cases hr⟩
  | succ fuel ih => exact keepsFrame_recognizeBy ih

theorem keepsFrame_recognize (ctx : Context) : KeepsFrame ctx.recognize := by
  intro x s r s' h
  exact keepsFrame_recognizeWithin (s.size + 1) x s r s' h

/-- Recognition keeps every node of the store at its id, whatever it answers; when it answers
that the node is no progression the store is exactly as it was; and when a step modifier's
check stops after its receiver was recognised, the nodes appended for the receiver stay. -/
theorem recognize_frame (ctx : Context) (x : NodeId) (s s' : NodeStore)
    (r : Except Stop (Option Progression)) (h : (ctx.recognize x).runOn s = (r, s')) :
    s.Extends s' ∧ (r = .ok none → s' = s) ∧
      ∀ e c k r₀ a fb p s₁ f, ctx.classify s x = .step e c k r₀ a fb →
        (ctx.recognize r₀).runOn s = (.ok (some p), s₁) →
        (ctx.stepCheck k a).runOn s₁ = (.error f, s') →
        r = .error f ∧ s' = s₁ ∧ s.Extends s₁ := by
  obtain ⟨hext, hnone⟩ := keepsFrame_recognize ctx x s r s' h
  refine ⟨hext, hnone, fun e c k r₀ a fb p s₁ f hv hr hc => ?_⟩
  rw [runOn_recognize_of_receiver hv hr] at h
  simp only [afterReceiver] at h
  rw [runOn_bind_of_error hc] at h
  cases h
  exact ⟨rfl, stepCheck_reads_of_error hc, (keepsFrame_recognize ctx r₀ s _ s₁ hr).1⟩

end Context

/-! ## An example

`xs.indices step n` over an integer array `xs`, with a size accessor for integer arrays and
no registered step check. The indices of `xs` append a zero and a call of the size accessor;
the step check of `n` then fails, and the two nodes stay. -/

/-- Idiom names of the standard shape, given segment by segment. -/
def Spelling.segmented : Spelling where
  rangeTo := "rangeTo"
  downTo := ⟨["core", "ranges", "downTo"]⟩
  upUntil := ⟨["core", "ranges", "until"]⟩
  step := ⟨["core", "ranges", "step"]⟩
  indices := ⟨["core", "collections", "<get-indices>"]⟩

/-- The integer array class. -/
def intArrayClass : Ty := ⟨18⟩

/-- The callees of the example: the indices getter, the step modifier, and the size accessor
of integer arrays. -/
def exampleSigs : SignatureTable := ⟨#[
  ⟨Spelling.segmented.indices, [], none, some intArrayClass, Ty.intRange⟩,
  ⟨Spelling.segmented.step, [Ty.int], none, some Ty.intProgression, Ty.intProgression⟩,
  ⟨⟨["IntArray", "size"]⟩, [], some intArrayClass, none, Ty.int⟩]⟩

/-- The recogniser of the example: the builtin types, a size accessor for integer arrays, and
no step checks. -/
def exampleContext : Context :=
  ⟨TypeTable.builtin, exampleSigs,
    Config.make Spelling.segmented (HelperTable.ofList [(intArrayClass, 2)]) .empty,
    Idiom.priority, .refl _⟩

/-- `xs.indices step n`, its outermost call last. -/
def exampleStore : NodeStore := ⟨#[
  ⟨.var "xs", intArrayClass, ⟨0, 2⟩⟩,
  ⟨.call ⟨0, none, some 0, []⟩, Ty.intRange, ⟨0, 10⟩⟩,
  ⟨.var "n", Ty.int, ⟨16, 17⟩⟩,
  ⟨.call ⟨1, none, some 1, [2]⟩, Ty.intProgression, ⟨0, 17⟩⟩]⟩

/-- The example's store once the indices have appended their bounds. -/
def exampleStoreAfter : NodeStore := ⟨exampleStore.nodes ++ #[
  ⟨.lit (.int 0), Ty.int, ⟨0, 10⟩⟩,
  ⟨.call ⟨2, some 0, none, []⟩, Ty.int, ⟨0, 10⟩⟩]⟩

theorem recognize_frame_of_failed_step :
    (exampleContext.recognize 3).runOn exampleStore =
        (.error (.fault (.missingStepCheck Ty.int)), exampleStoreAfter) ∧
      (exampleStore.Extends exampleStoreAfter ∧
        ((.error (.fault (.missingStepCheck Ty.int)) : Except Stop (Option Progression)) =
            .ok none → exampleStoreAfter = exampleStore) ∧
        ∀ e c k r₀ a fb p s₁ f, exampleContext.classify exampleStore 3 = .step e c k r₀ a fb →
          (exampleContext.recognize r₀).runOn exampleStore = (.ok (some p), s₁) →
          (exampleContext.stepCheck k a).runOn s₁ = (.error f, exampleStoreAfter) →
          (.error (.fault (.missingStepCheck Ty.int)) : Except Stop (Option Progression)) =
              .error f ∧ exampleStoreAfter = s₁ ∧ exampleStore.Extends s₁) :=
  have h : (exampleContext.recognize 3).runOn exampleStore =
      (.error (.fault (.missingStepCheck Ty.int)), exampleStoreAfter) := rfl
  ⟨h, Context.recognize_frame _ _ _ _ _ h⟩

end ProgressionIdioms
