import ProgressionIdioms.Proofs.Frame
import Mathlib.Logic.Relation
/-!
# When recognition ends

Recognition of a node descends through its chain of step modifiers, one receiver at a time,
before it builds anything: the chain is the node, then the receiver of each step modifier in
turn, up to the first node that is not one (`Context.Descent` lists the modifiers). Every level
of the chain is one nested recognition, and nothing but the descent recurses. So recognition
ends, with an answer, a fault, or a read past the end of a table, exactly when the chain ends,
which is exactly when the chain never comes back to a node it has passed; and a bound on the
nesting gives the full answer exactly when it covers the whole chain (`recognize_ends_iff`).

Node ids are not checked, so a step modifier may be its own receiver, directly or through other
modifiers; its recognition never ends. In a store where every call's receiver comes before the
call, every chain ends.
-/

namespace ProgressionIdioms

open StoreM

namespace Context

variable {ctx : Context} {s : NodeStore} {x r : NodeId}

/-- `ctx.StepsInto s x r`: recognition of `x` in `s` descends into the receiver `r`. -/
def StepsInto (ctx : Context) (s : NodeStore) (x r : NodeId) : Prop :=
  ctx.descent? s x = some r

/-- The chain of step modifiers from `x` comes back to a node it has passed. -/
def Revisits (ctx : Context) (s : NodeStore) (x : NodeId) : Prop :=
  ∃ y, Relation.ReflTransGen (ctx.StepsInto s) x y ∧ Relation.TransGen (ctx.StepsInto s) y y

/-! ## Everything but the descent ends -/

/-- A first look at a node stops only on a missing node or signature, never for lack of depth. -/
theorem classify_ne_stop_loops : ctx.classify s x ≠ .stop .loops := by
  intro h
  unfold classify at h
  split at h
  · cases h
  · split at h
    · split at h
      · cases h
      · split at h
        · cases h
        · split at h
          · split at h <;> cases h
          · cases h
    · cases h

theorem runOn_rangeOf_ne_loops (c : Call) (k : Kind) (p : CallPart) (increasing closed : Bool)
    (s : NodeStore) : ((rangeOf c k p increasing closed).runOn s).1 ≠ .error .loops := by
  rw [runOn_rangeOf]
  rcases c.part p with _ | a <;> rcases c.part .argument with _ | b <;> simp

theorem runOn_indicesOf_ne_loops (e : Node) (c : Call) (k : Kind) (s : NodeStore) :
    ((ctx.indicesOf e c k).runOn s).1 ≠ .error .loops := by
  rw [runOn_indicesOf]
  split
  · simp
  · split
    · simp
    · split
      · simp
      · split <;> simp

theorem runOn_stepCheck_ne_loops (k : Kind) (a : NodeId) (s : NodeStore) :
    ((ctx.stepCheck k a).runOn s).1 ≠ .error .loops := by
  rw [runOn_stepCheck]
  split
  · simp
  · split
    · simp
    · split
      · split
        · simp
        · split <;> simp
      · simp

/-- An idiom other than the step modifier recognises no receiver, so it never runs out of
depth. -/
theorem runOn_build_ne_loops {inner : NodeId → StoreM (Option Progression)} {e : Node}
    {c : Call} {k : Kind} {i : Idiom} (hi : i ≠ .step) (s : NodeStore) :
    ((ctx.build inner e c k i).runOn s).1 ≠ .error .loops := by
  have hmap : ∀ {m : StoreM Progression}, (m.runOn s).1 ≠ .error .loops →
      ((some <$> m).runOn s).1 ≠ .error .loops := by
    intro m hm
    rw [runOn_map]
    rcases hrun : m.runOn s with ⟨_ | _, _⟩ <;> simp_all
  cases i with
  | rangeTo | downTo | upUntil => exact hmap (runOn_rangeOf_ne_loops _ _ _ _ _ s)
  | indices => exact hmap (runOn_indicesOf_ne_loops e c k s)
  | step => exact absurd rfl hi

/-! ## A chain that ends -/

/-- Along a chain that ends, recognition ends. -/
theorem Descent.recognize_ne_loops {path : List NodeId} (h : ctx.Descent s x path) :
    ((ctx.recognize x).runOn s).1 ≠ .error .loops := by
  induction h with
  | @stop x hx =>
    rw [Context.runOn_recognize]
    rcases hv : ctx.classify s x with st | _ | ⟨e, c, k, i⟩ | f | ⟨e, c, k, r, a, fb⟩
    · rintro ⟨⟩
      exact classify_ne_stop_loops hv
    · simp [resume]
    · exact runOn_build_ne_loops (classify_base_ne_step hv) s
    · simp [resume]
    · simp [descent?, hv] at hx
  | @step x r path hx _ ih =>
    obtain ⟨e, c, k, a, fb, hv⟩ := descent?_eq_some_iff.mp hx
    rw [Context.runOn_recognize, hv]
    simp only [resume]
    rw [runOn_bind]
    -- the receiver's recognition ends; what follows it is a base idiom or a step check
    rcases hr : (ctx.recognize r).runOn s with ⟨_ | o, s₁⟩
    · rw [hr] at ih
      exact ih
    rcases o with _ | p
    · rcases fb with _ | i
      · simp [afterReceiver]
      · exact runOn_build_ne_loops (classify_fallback_ne_step hv) s₁
    · simp only [afterReceiver]
      rcases hc : (ctx.stepCheck k a).runOn s₁ with ⟨_ | ⟨check, needsLast⟩, s₂⟩
      · have hne : ((ctx.stepCheck k a).runOn s₁).1 ≠ .error .loops :=
          runOn_stepCheck_ne_loops k a s₁
        rw [runOn_bind_of_error hc]
        rw [hc] at hne
        simpa using hne
      · rw [runOn_bind_of_ok hc]
        simp

/-- Along a chain that ends, a bound on the nesting that does not cover the chain runs out,
having appended nothing. -/
theorem Descent.runOn_recognizeWithin_of_le {path : List NodeId} (h : ctx.Descent s x path)
    {fuel : Nat} (hf : fuel ≤ path.length) :
    (ctx.recognizeWithin fuel x).runOn s = (.error .loops, s) := by
  induction h generalizing fuel with
  | stop =>
    obtain rfl : fuel = 0 := by simpa using hf
    rfl
  | @step x r path hx _ ih =>
    rcases fuel with _ | fuel
    · rfl
    obtain ⟨e, c, k, a, fb, hv⟩ := descent?_eq_some_iff.mp hx
    rw [recognizeWithin_succ, runOn_recognizeBy, hv]
    exact runOn_bind_of_error (ih (by simpa using hf))

/-- Along a chain that ends, a bound on the nesting gives the full answer exactly when it
covers the chain, that is, when it is at least the chain's length, one more than the number of
its step modifiers; a smaller bound runs out. -/
theorem Descent.runOn_recognizeWithin_eq {path : List NodeId} (h : ctx.Descent s x path)
    (fuel : Nat) :
    (ctx.recognizeWithin fuel x).runOn s =
      if path.length < fuel then (ctx.recognize x).runOn s else (.error .loops, s) := by
  split
  · rw [h.runOn_recognizeWithin fuel ‹_›, h.runOn_recognize]
  · exact h.runOn_recognizeWithin_of_le (by omega)

/-! ## Chains that end are chains that never come back -/

/-- A chain that ends passes only nodes whose own chains end. -/
theorem Descent.of_reflTransGen {y : NodeId} {path : List NodeId} (h : ctx.Descent s x path)
    (hxy : Relation.ReflTransGen (ctx.StepsInto s) x y) : ∃ path', ctx.Descent s y path' := by
  induction hxy with
  | refl => exact ⟨path, h⟩
  | tail _ hyz ih =>
    obtain ⟨path', hy⟩ := ih
    cases hy with
    | stop hy => simp [StepsInto, hy] at hyz
    | step hy hz =>
      rw [StepsInto, hy] at hyz
      cases hyz
      exact ⟨_, hz⟩

/-- A node from which the chain descends again, and that a chain that ends reaches, is one of
that chain's step modifiers. -/
theorem Descent.mem_of_reflTransGen {y w : NodeId} {path : List NodeId}
    (h : ctx.Descent s x path) (hxy : Relation.ReflTransGen (ctx.StepsInto s) x y)
    (hy : ctx.StepsInto s y w) : y ∈ path := by
  induction hxy using Relation.ReflTransGen.head_induction_on generalizing path with
  | refl =>
    cases h with
    | stop hy' => simp [StepsInto, hy'] at hy
    | step => exact List.mem_cons_self
  | head hxz _ ih =>
    cases h with
    | stop hx => simp [StepsInto, hx] at hxz
    | step hx hz =>
      rw [StepsInto, hx] at hxz
      cases hxz
      exact List.mem_cons_of_mem _ (ih hz)

theorem Descent.not_revisits {path : List NodeId} (h : ctx.Descent s x path) :
    ¬ctx.Revisits s x := by
  rintro ⟨y, hxy, hyy⟩
  obtain ⟨path', hy⟩ := h.of_reflTransGen hxy
  obtain ⟨w, hyw, hwy⟩ := Relation.TransGen.head'_iff.mp hyy
  cases hy with
  | stop hy' => simp [StepsInto, hy'] at hyw
  | @step _ w' rest hy' hw =>
    rw [StepsInto, hy'] at hyw
    cases hyw
    -- coming back to `y` puts it among the modifiers after it, which a chain never repeats
    have hmem := hw.mem_of_reflTransGen hwy hy'
    exact (List.nodup_cons.mp (Descent.step hy' hw).nodup).1 hmem

/-- A node the chain descends from, and that it has not passed before, still fits in the
store beside the nodes it has passed. -/
theorem length_lt_size_of_descent? {seen : List NodeId} (hx : ctx.descent? s x = some r)
    (hmem : x ∉ seen) (hnd : seen.Nodup) (hlt : ∀ y ∈ seen, y < s.size) :
    seen.length < s.size := by
  have hsub : x :: seen ⊆ List.range s.size := fun y hy => by
    rcases List.mem_cons.mp hy with rfl | hy
    · exact List.mem_range.mpr (lt_size_of_descent? hx)
    · exact List.mem_range.mpr (hlt y hy)
  have hlen := (List.nodup_cons.mpr ⟨hmem, hnd⟩).length_le_of_subset hsub
  simp only [List.length_cons, List.length_range] at hlen
  omega

/-- Following the chain from `x` with the nodes `seen` passed on the way to it, it either ends
or comes back to a node: it cannot pass more distinct nodes than the store holds. -/
theorem descent_or_revisits_of_seen (x : NodeId) (seen : List NodeId) (hnd : seen.Nodup)
    (hlt : ∀ y ∈ seen, y < s.size)
    (hlead : ∀ y ∈ seen, Relation.TransGen (ctx.StepsInto s) y x) :
    (∃ path, ctx.Descent s x path) ∨ ctx.Revisits s x := by
  rcases hx : ctx.descent? s x with _ | r
  · exact .inl ⟨[], .stop hx⟩
  by_cases hmem : x ∈ seen
  · exact .inr ⟨x, .refl, hlead x hmem⟩
  have hroom := length_lt_size_of_descent? hx hmem hnd hlt
  have hlead' : ∀ y ∈ x :: seen, Relation.TransGen (ctx.StepsInto s) y r := by
    intro y hy
    rcases List.mem_cons.mp hy with rfl | hy
    · exact .single hx
    · exact (hlead y hy).tail hx
  have hlt' : ∀ y ∈ x :: seen, y < s.size := by
    intro y hy
    rcases List.mem_cons.mp hy with rfl | hy
    · exact lt_size_of_descent? hx
    · exact hlt y hy
  rcases descent_or_revisits_of_seen r (x :: seen) (List.nodup_cons.mpr ⟨hmem, hnd⟩) hlt'
      hlead' with ⟨path, hr⟩ | ⟨y, hry, hyy⟩
  · exact .inl ⟨_, .step hx hr⟩
  · exact .inr ⟨y, .head hx hry, hyy⟩
termination_by s.size - seen.length
decreasing_by
  simp only [List.length_cons]
  omega

theorem exists_descent_iff_not_revisits :
    (∃ path, ctx.Descent s x path) ↔ ¬ctx.Revisits s x := by
  constructor
  · rintro ⟨path, h⟩
    exact h.not_revisits
  · intro h
    exact (descent_or_revisits_of_seen x [] List.nodup_nil (by simp) (by simp)).resolve_right h

/-- In a store where every call's extension receiver comes before the call, every chain ends. -/
theorem exists_descent_of_receiver_lt
    (hlt : ∀ y n c r, s.get? y = some n → n.kind = .call c → c.extension = some r → r < y)
    (x : NodeId) : ∃ path, ctx.Descent s x path := by
  induction x using Nat.strong_induction_on with
  | _ x ih =>
    rcases hx : ctx.descent? s x with _ | r
    · exact ⟨[], .stop hx⟩
    obtain ⟨e, c, he, hc, hr⟩ := receiver_of_descent? hx
    obtain ⟨path, hpath⟩ := ih r (hlt x e c r he hc hr)
    exact ⟨_, .step hx hpath⟩

/-! ## Recognition ends exactly when its chain does -/

theorem recognize_ne_loops_iff :
    ((ctx.recognize x).runOn s).1 ≠ .error .loops ↔ ∃ path, ctx.Descent s x path := by
  constructor
  · intro h
    have hrun : (ctx.recognize x).runOn s =
        (((ctx.recognize x).runOn s).1, ((ctx.recognize x).runOn s).2) := rfl
    exact exists_descent_of_runOn_recognize hrun h
  · rintro ⟨path, h⟩
    exact h.recognize_ne_loops

/-- Recognition of a node ends (with an answer, a fault, or a read past the end of a table)
exactly when the chain of step modifiers from the node ends, which is exactly when the chain
never comes back to a node it has passed. Recognition nests one call per node of the chain: a
bound on the nesting gives the full answer when it is at least the chain's length (one more than
the number of modifiers) and runs out otherwise. Every chain ends in a store whose calls come
after their extension receivers, and recognition of a step modifier that is its own receiver,
directly or through other modifiers, never ends. -/
theorem recognize_ends_iff (ctx : Context) (s : NodeStore) (x : NodeId) :
    (((ctx.recognize x).runOn s).1 ≠ .error .loops ↔ ∃ path, ctx.Descent s x path) ∧
      ((∃ path, ctx.Descent s x path) ↔ ¬ctx.Revisits s x) ∧
      (∀ path, ctx.Descent s x path → ∀ fuel,
        (ctx.recognizeWithin fuel x).runOn s =
          if path.length < fuel then (ctx.recognize x).runOn s else (.error .loops, s)) ∧
      ((∀ y n c r, s.get? y = some n → n.kind = .call c → c.extension = some r → r < y) →
        ((ctx.recognize x).runOn s).1 ≠ .error .loops) ∧
      (Relation.TransGen (ctx.StepsInto s) x x →
        (ctx.recognize x).runOn s = (.error .loops, s)) := by
  refine ⟨recognize_ne_loops_iff, exists_descent_iff_not_revisits,
    fun path h fuel => h.runOn_recognizeWithin_eq fuel,
    fun hlt => recognize_ne_loops_iff.mpr (exists_descent_of_receiver_lt hlt x), fun hxx => ?_⟩
  have hno : ¬∃ path, ctx.Descent s x path :=
    exists_descent_iff_not_revisits.not_left.mpr ⟨x, .refl, hxx⟩
  exact runOn_recognize_of_not_descent hno

end Context

/-- `p step n` where the receiver `p` is the call itself, over the callees of the example
recogniser: node ids are not checked, so the store can hold it. -/
def selfStepStore : NodeStore := ⟨#[
  ⟨.call ⟨1, none, some 0, [1]⟩, Ty.intProgression, ⟨0, 8⟩⟩,
  ⟨.var "n", Ty.int, ⟨7, 8⟩⟩]⟩

theorem recognize_self_receiver_loops :
    Relation.TransGen (exampleContext.StepsInto selfStepStore) 0 0 ∧
      (exampleContext.recognize 0).runOn selfStepStore = (.error .loops, selfStepStore) :=
  have h : Relation.TransGen (exampleContext.StepsInto selfStepStore) 0 0 := .single rfl
  ⟨h, (Context.recognize_ends_iff exampleContext selfStepStore 0).2.2.2.2 h⟩

end ProgressionIdioms
