import ProgressionIdioms.Proofs.Visit
/-!
# Recognition without a bound

`recognize` bounds the depth of step modifiers by one more than the size of the store. This
module shows that the bound is never what ends a recognition that ends: recognition satisfies
the unbounded recursive equation

  `recognize x = recognizeBy recognize x`,

so every later proof unfolds `recognize` one level at a time and never sees the bound.

Recognition of a node descends into at most one receiver, and it descends before it appends
anything, so the nodes it descends through are all read from the store it started on. Their
sequence is the *descent* of the node (`Context.Descent`). A descent that ends never passes a
node twice, since a second pass would repeat the first for ever; so it is no longer than the
store, and the bound is enough. A descent that does not end makes every bounded recognition
stop with `Stop.loops`.
-/

namespace ProgressionIdioms

open StoreM

namespace Context

variable {ctx : Context} {s : NodeStore}

/-- `ctx.Descent s x path`: recognition of `x` in `s` descends from each node of `path` in
turn, starting at `x`, and then stops descending. -/
inductive Descent (ctx : Context) (s : NodeStore) : NodeId → List NodeId → Prop
  /-- Recognition of `x` does not descend. -/
  | stop {x : NodeId} : ctx.descent? s x = none → Descent ctx s x []
  /-- Recognition of `x` descends into `r`. -/
  | step {x r : NodeId} {path : List NodeId} :
      ctx.descent? s x = some r → Descent ctx s r path → Descent ctx s x (x :: path)

/-! ## Descents are unique and pass each node once -/

theorem Descent.unique {x : NodeId} {p₁ p₂ : List NodeId} (h₁ : ctx.Descent s x p₁)
    (h₂ : ctx.Descent s x p₂) : p₁ = p₂ := by
  induction h₁ generalizing p₂ with
  | stop hx =>
    cases h₂ with
    | stop => rfl
    | step hx' => simp [hx] at hx'
  | step hx _ ih =>
    cases h₂ with
    | stop hx' => simp [hx] at hx'
    | step hx' h' =>
      rw [hx] at hx'
      cases hx'
      rw [ih h']

/-- Every node of a descent starts a descent of its own, which is a suffix of it. -/
theorem Descent.of_mem {x y : NodeId} {path : List NodeId} (h : ctx.Descent s x path)
    (hy : y ∈ path) : ∃ rest, ctx.Descent s y (y :: rest) ∧ (y :: rest) <:+ path := by
  induction h with
  | stop => simp at hy
  | @step x r path hx hr ih =>
    rcases List.mem_cons.mp hy with rfl | hy
    · exact ⟨path, .step hx hr, List.suffix_refl _⟩
    · obtain ⟨rest, hrest, hsuf⟩ := ih hy
      exact ⟨rest, hrest, hsuf.trans (List.suffix_cons _ _)⟩

theorem Descent.nodup {x : NodeId} {path : List NodeId} (h : ctx.Descent s x path) :
    path.Nodup := by
  induction h with
  | stop => exact List.nodup_nil
  | @step x r path hx hr ih =>
    refine List.nodup_cons.mpr ⟨fun hmem => ?_, ih⟩
    -- passing `x` again would start the same descent, within a strictly shorter suffix
    obtain ⟨rest, hrest, hsuf⟩ := hr.of_mem hmem
    have heq := (Descent.step hx hr).unique hrest
    have hlen := hsuf.length_le
    rw [← heq, List.length_cons] at hlen
    omega

theorem Descent.lt_size {x y : NodeId} {path : List NodeId} (h : ctx.Descent s x path)
    (hy : y ∈ path) : y < s.size := by
  obtain ⟨rest, hrest, -⟩ := h.of_mem hy
  cases hrest with
  | step hd _ => exact lt_size_of_descent? hd

/-- A descent that ends is no longer than the store. -/
theorem Descent.length_le {x : NodeId} {path : List NodeId} (h : ctx.Descent s x path) :
    path.length ≤ s.size := by
  have hsub : path ⊆ List.range s.size := fun y hy => List.mem_range.mpr (h.lt_size hy)
  simpa using h.nodup.length_le_of_subset hsub

/-! ## The bound -/

theorem recognizeWithin_succ (fuel : Nat) (x : NodeId) :
    ctx.recognizeWithin (fuel + 1) x = ctx.recognizeBy (ctx.recognizeWithin fuel) x := by
  rw [recognizeWithin]

theorem runOn_recognize_eq_within (x : NodeId) (s : NodeStore) :
    (ctx.recognize x).runOn s = (ctx.recognizeWithin (s.size + 1) x).runOn s := by
  unfold recognize
  exact runOn_bind_of_ok (runOn_get s)

/-- Along a descent that ends, any bound above its length gives the same recognition. -/
theorem Descent.runOn_recognizeWithin {x : NodeId} {path : List NodeId}
    (h : ctx.Descent s x path) (fuel : Nat) (hf : path.length < fuel) :
    (ctx.recognizeWithin fuel x).runOn s =
      (ctx.recognizeWithin (path.length + 1) x).runOn s := by
  induction h generalizing fuel with
  | @stop x hx =>
    obtain ⟨fuel, rfl⟩ : ∃ f, fuel = f + 1 := ⟨fuel - 1, by simp at hf; omega⟩
    exact recognizeBy_congr fun r hr => by simp [hx] at hr
  | @step x r path hx hr ih =>
    obtain ⟨fuel, rfl⟩ : ∃ f, fuel = f + 1 := ⟨fuel - 1, by simp at hf; omega⟩
    refine recognizeBy_congr fun r' hr' => ?_
    rw [hx] at hr'
    cases hr'
    simp only [List.length_cons] at hf
    exact ih fuel (by omega)

/-- Without a descent that ends, every bound runs out. -/
theorem runOn_recognizeWithin_of_not_descent {x : NodeId}
    (h : ¬∃ path, ctx.Descent s x path) (fuel : Nat) :
    (ctx.recognizeWithin fuel x).runOn s = (.error .loops, s) := by
  induction fuel generalizing x with
  | zero => rfl
  | succ fuel ih =>
    rcases hx : ctx.descent? s x with _ | r
    · exact absurd ⟨[], .stop hx⟩ h
    have hr : ¬∃ path, ctx.Descent s r path := fun ⟨path, hp⟩ => h ⟨_, .step hx hp⟩
    obtain ⟨e, c, k, a, fb, hv⟩ := descent?_eq_some_iff.mp hx
    rw [recognizeWithin_succ, runOn_recognizeBy, hv]
    exact runOn_bind_of_error (ih hr)

/-! ## The unbounded equation -/

/-- Recognition of a node with a descent that ends is recognition within one more than its
length. -/
theorem Descent.runOn_recognize {x : NodeId} {path : List NodeId}
    (h : ctx.Descent s x path) :
    (ctx.recognize x).runOn s = (ctx.recognizeWithin (path.length + 1) x).runOn s := by
  have hlen := h.length_le
  rw [runOn_recognize_eq_within]
  exact h.runOn_recognizeWithin _ (by omega)

/-- Recognition of a node without a descent that ends does not end. -/
theorem runOn_recognize_of_not_descent {x : NodeId} (h : ¬∃ path, ctx.Descent s x path) :
    (ctx.recognize x).runOn s = (.error .loops, s) := by
  rw [runOn_recognize_eq_within]
  exact runOn_recognizeWithin_of_not_descent h _

variable (ctx) in
/-- Recognition is its own one-level unfolding: the bound never shows. -/
theorem runOn_recognize_fix (x : NodeId) (s : NodeStore) :
    (ctx.recognize x).runOn s = (ctx.recognizeBy ctx.recognize x).runOn s := by
  rw [runOn_recognize_eq_within, recognizeWithin_succ]
  refine recognizeBy_congr fun r hr => ?_
  rw [runOn_recognize_eq_within]
  by_cases hd : ∃ path, ctx.Descent s r path
  · obtain ⟨path, hp⟩ := hd
    -- the descent of `x` passes `x` and then that of `r`, and fits in the store
    have hlen := (Descent.step hr hp).length_le
    simp only [List.length_cons] at hlen
    rw [hp.runOn_recognizeWithin s.size (by omega),
      hp.runOn_recognizeWithin (s.size + 1) (by omega)]
  · rw [runOn_recognizeWithin_of_not_descent hd, runOn_recognizeWithin_of_not_descent hd]

variable (ctx) in
/-- Recognition after one look at a node, recognising receivers by recognition itself. -/
theorem runOn_recognize (x : NodeId) (s : NodeStore) :
    (ctx.recognize x).runOn s = (ctx.resume ctx.recognize (ctx.classify s x)).runOn s := by
  rw [runOn_recognize_fix, runOn_recognizeBy]

/-- A step modifier continues from what recognition of its receiver gave. -/
theorem runOn_recognize_of_receiver {x r a : NodeId} {e : Node} {c : Call} {k : Kind}
    {fb : Option Idiom} {o : Option Progression} {s₁ : NodeStore}
    (hv : ctx.classify s x = .step e c k r a fb) (hr : (ctx.recognize r).runOn s = (.ok o, s₁)) :
    (ctx.recognize x).runOn s = (ctx.afterReceiver ctx.recognize e c k a fb o).runOn s₁ := by
  rw [runOn_recognize, hv]
  exact runOn_bind_of_ok hr

/-- A recognition that does not run out has a descent that ends. -/
theorem exists_descent_of_runOn_recognize {x : NodeId} {r : Except Stop (Option Progression)}
    {s' : NodeStore} (h : (ctx.recognize x).runOn s = (r, s')) (hr : r ≠ .error .loops) :
    ∃ path, ctx.Descent s x path := by
  by_contra hd
  rw [runOn_recognize_of_not_descent hd] at h
  cases h
  exact hr rfl

end Context

end ProgressionIdioms
