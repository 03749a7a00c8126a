import ProgressionIdioms.Recognize.Recognizer
/-!
# Running store computations

A store computation run on a store gives an outcome and the store it leaves. This module
gives the run equation of each primitive (`node`, `append`, `signature`, `require`), of `bind`
and of `mapM`, so that later proofs never unfold the monad. A computation stops at its first
failure and keeps the store as the failure found it.
-/

namespace ProgressionIdioms

namespace StoreM

variable {α β : Type}

/-! ## The monad -/

/-- Two computations that run alike on every store are the same computation. -/
theorem ext {m₁ m₂ : StoreM α} (h : ∀ s, m₁.runOn s = m₂.runOn s) : m₁ = m₂ :=
  funext h

@[simp] theorem runOn_pure (a : α) (s : NodeStore) :
    (pure a : StoreM α).runOn s = (.ok a, s) := rfl

@[simp] theorem runOn_throw (e : Stop) (s : NodeStore) :
    (throw e : StoreM α).runOn s = (.error e, s) := rfl

@[simp] theorem runOn_get (s : NodeStore) :
    (get : StoreM NodeStore).runOn s = (.ok s, s) := rfl

theorem runOn_bind (m : StoreM α) (f : α → StoreM β) (s : NodeStore) :
    (m >>= f).runOn s =
      match m.runOn s with
      | (.ok a, s') => (f a).runOn s'
      | (.error e, s') => (.error e, s') := by
  -- the bind runs `m`, then hands its outcome and store on; read through projections
  have hrun : (m >>= f).runOn s = (ExceptT.bindCont f (m.runOn s).1).run (m.runOn s).2 := rfl
  rw [hrun]
  rcases m.runOn s with ⟨_ | _, s'⟩ <;> rfl

/-- A first step that succeeds hands its value and store to the rest. -/
theorem runOn_bind_of_ok {m : StoreM α} {f : α → StoreM β} {s s₁ : NodeStore} {a : α}
    (h : m.runOn s = (.ok a, s₁)) : (m >>= f).runOn s = (f a).runOn s₁ := by
  rw [runOn_bind, h]

/-- A first step that stops stops the whole computation, with the store it left. -/
theorem runOn_bind_of_error {m : StoreM α} {f : α → StoreM β} {s s₁ : NodeStore} {e : Stop}
    (h : m.runOn s = (.error e, s₁)) : (m >>= f).runOn s = (.error e, s₁) := by
  rw [runOn_bind, h]

/-- What a run of `m >>= f` can be: `m` succeeded and `f` ran on its store, or `m` stopped. -/
theorem runOn_bind_eq {m : StoreM α} {f : α → StoreM β} {s s' : NodeStore}
    {r : Except Stop β} (h : (m >>= f).runOn s = (r, s')) :
    (∃ a s₁, m.runOn s = (.ok a, s₁) ∧ (f a).runOn s₁ = (r, s')) ∨
      (∃ e, m.runOn s = (.error e, s') ∧ r = .error e) := by
  rw [runOn_bind] at h
  rcases hm : m.runOn s with ⟨_ | a, s₁⟩
  case error e =>
    rw [hm] at h
    cases h
    exact .inr ⟨e, rfl, rfl⟩
  case ok =>
    rw [hm] at h
    exact .inl ⟨a, s₁, rfl, h⟩

theorem runOn_map (f : α → β) (m : StoreM α) (s : NodeStore) :
    (f <$> m).runOn s =
      match m.runOn s with
      | (.ok a, s') => (.ok (f a), s')
      | (.error e, s') => (.error e, s') := by
  rw [map_eq_pure_bind, runOn_bind]
  rcases m.runOn s with ⟨_ | _, s'⟩ <;> rfl

/-! ## Primitives -/

@[simp] theorem runOn_node_of_get {id : NodeId} {s : NodeStore} {n : Node}
    (h : s.get? id = some n) : (node id).runOn s = (.ok n, s) := by
  unfold node
  rw [runOn_bind_of_ok (runOn_get s)]
  simp only [h, runOn_pure]

@[simp] theorem runOn_node_of_get_none {id : NodeId} {s : NodeStore}
    (h : s.get? id = none) : (node id).runOn s = (.error (.outOfRange ⟨s.size, id⟩), s) := by
  unfold node
  rw [runOn_bind_of_ok (runOn_get s)]
  simp only [h, runOn_throw]

@[simp] theorem runOn_append (n : Node) (s : NodeStore) :
    (append n).runOn s = (.ok s.size, (s.push n).1) := rfl

theorem signature_of_get {sigs : SignatureTable} {f : FnId} {sig : Signature}
    (h : sigs.get? f = some sig) : signature sigs f = pure sig := by
  simp [signature, h]

theorem signature_of_get_none {sigs : SignatureTable} {f : FnId} (h : sigs.get? f = none) :
    signature sigs f = throw (.outOfRange ⟨sigs.size, f⟩) := by
  simp [signature, h]

theorem require_of_part {c : Call} {p : CallPart} {id : NodeId} (h : c.part p = some id) :
    require c p = pure id := by
  simp [require, h]

theorem require_of_part_none {c : Call} {p : CallPart} (h : c.part p = none) :
    require c p = throw (.fault (.malformedCall c.callee p)) := by
  simp [require, h]

@[simp] theorem runOn_fail (f : Fault) (s : NodeStore) :
    (fail f : StoreM α).runOn s = (.error (.fault f), s) := rfl

/-! ## Running a computation over a list -/

@[simp] theorem runOn_mapM_nil (g : α → StoreM β) (s : NodeStore) :
    ([].mapM g).runOn s = (.ok [], s) := rfl

/-- `mapM` runs the head, then the tail on the store the head left. -/
theorem runOn_mapM_cons (g : α → StoreM β) (a : α) (as : List α) (s : NodeStore) :
    ((a :: as).mapM g).runOn s =
      match (g a).runOn s with
      | (.ok b, s₁) =>
        match (as.mapM g).runOn s₁ with
        | (.ok bs, s₂) => (.ok (b :: bs), s₂)
        | (.error e, s₂) => (.error e, s₂)
      | (.error e, s₁) => (.error e, s₁) := by
  rw [List.mapM_cons, runOn_bind]
  rcases (g a).runOn s with ⟨_ | b, s₁⟩
  · rfl
  · simp only [runOn_bind]
    rcases (as.mapM g).runOn s₁ with ⟨_ | bs, s₂⟩ <;> rfl

/-- A list run after another runs on the store the first left. -/
theorem runOn_mapM_append_of_ok (g : α → StoreM β) {as : List α} (as' : List α)
    {s s₁ : NodeStore} {bs : List β} (h : (as.mapM g).runOn s = (.ok bs, s₁)) :
    ((as ++ as').mapM g).runOn s =
      match (as'.mapM g).runOn s₁ with
      | (.ok bs', s₂) => (.ok (bs ++ bs'), s₂)
      | (.error e, s₂) => (.error e, s₂) := by
  rw [List.mapM_append, runOn_bind_of_ok h, runOn_bind]
  rcases (as'.mapM g).runOn s₁ with ⟨_ | bs', s₂⟩ <;> rfl

/-- A run of two lists that succeeds is a run of the first, then of the second on the store
the first left. -/
theorem runOn_mapM_append_eq_ok (g : α → StoreM β) {as as' : List α} {s s' : NodeStore}
    {bs : List β} (h : ((as ++ as').mapM g).runOn s = (.ok bs, s')) :
    ∃ bs₁ s₁ bs₂, (as.mapM g).runOn s = (.ok bs₁, s₁) ∧ (as'.mapM g).runOn s₁ = (.ok bs₂, s') ∧
      bs = bs₁ ++ bs₂ := by
  rw [List.mapM_append] at h
  rcases runOn_bind_eq h with ⟨bs₁, s₁, h₁, h₂⟩ | ⟨e, -, he⟩
  · rcases runOn_bind_eq h₂ with ⟨bs₂, s₂, h₃, h₄⟩ | ⟨e, -, he⟩
    · cases h₄
      exact ⟨bs₁, s₁, bs₂, h₁, h₃, rfl⟩
    · cases he
  · cases he

/-- A run over a list that succeeds is a run of the head, then of the tail on the store the
head left. -/
theorem runOn_mapM_cons_eq_ok (g : α → StoreM β) {a : α} {as : List α} {s s' : NodeStore}
    {bs : List β} (h : ((a :: as).mapM g).runOn s = (.ok bs, s')) :
    ∃ b s₁ bs', (g a).runOn s = (.ok b, s₁) ∧ (as.mapM g).runOn s₁ = (.ok bs', s') ∧
      bs = b :: bs' := by
  rw [List.mapM_cons] at h
  rcases runOn_bind_eq h with ⟨b, s₁, h₁, h₂⟩ | ⟨e, -, he⟩
  · rcases runOn_bind_eq h₂ with ⟨bs', s₂, h₃, h₄⟩ | ⟨e, -, he⟩
    · cases h₄
      exact ⟨b, s₁, bs', h₁, h₃, rfl⟩
    · cases he
  · cases he

end StoreM

end ProgressionIdioms
