import ProgressionIdioms.Proofs.StepNode
import ProgressionIdioms.Proofs.Classifier
/-!
# The ends of a progression are plain values

A recognised progression starts and stops at nodes that are themselves no progression, when
the configuration is the one the builtin helpers give and every call of the store passes its
callee the types it declares (`NodeStore.TypedBy`). Recognising either end answers `none` and
appends nothing (`recognize_ends_plain`).

The argument has three parts. A range's ends are a receiver and the first argument of its base
call, and the idiom's pattern asks the element classes to admit the types declared there; a
typed call gives those nodes exactly these types. The ends of array indices are a new zero and
a new call of a size accessor, an `Int` and what the accessor returns, `Int` again. And every
type whose class is a primitive, as the element classes are, is no progression: neither it nor
its nullable view is below a base progression class. Step modifiers pass the base's ends
through and only append their checks, so the depth of the chain does not matter.
-/

namespace ProgressionIdioms

/-! ## Types whose class is a primitive -/

namespace TypeTable

variable {t : TypeTable} {ty x c : Ty}

theorem WellFormed.shape?_int (h : t.WellFormed) : t.shape? Ty.int = some .primitive :=
  (h.builtin_prefix 4 (by decide)).trans rfl

/-- The base progression classes are progression classes that declare no supertype. -/
theorem WellFormed.shape?_base (h : t.WellFormed) (k : Kind) :
    ∃ n, t.shape? k.base = some (.nominal n [] true) := by
  cases k <;> exact ⟨_, (h.builtin_prefix _ (by decide)).trans rfl⟩

/-- Only a primitive is its own class among the types with a primitive class. -/
theorem WellFormed.eq_of_plainClassifier_primitive (h : t.WellFormed)
    (hc : t.plainClassifier x = some c) (hp : t.shape? c = some .primitive) : x = c := by
  rcases hx : t.shape? x with _ | sx
  · simp [plainClassifier, hx] at hc
  cases sx with
  | primitive | nominal => simpa [plainClassifier, hx] using hc
  | arrayOf e =>
    obtain rfl : Ty.array = c := by simpa [plainClassifier, hx] using hc
    rw [h.shape?_array] at hp
    cases hp
  | nullable i => simp [plainClassifier, hx] at hc

/-- A type whose class is a primitive is that primitive or its nullable view. -/
theorem WellFormed.stripNullable_of_classifier_primitive (h : t.WellFormed)
    (hc : t.classifier ty = some c) (hp : t.shape? c = some .primitive) :
    t.stripNullable ty = c := by
  rcases hs : t.shape? ty with _ | s
  · rw [classifier_of_size_le (size_le_of_shape? hs)] at hc
    cases hc
  cases hn : s.isNullable
  · rw [classifier_of_not_isNullable hs hn] at hc
    rw [stripNullable_of_not_isNullable (by simp [isNullable, hs, hn])]
    exact h.eq_of_plainClassifier_primitive hc hp
  · cases s <;> simp only [TypeShape.isNullable, Bool.false_eq_true] at hn
    case nullable i =>
      rw [classifier_of_shape?_nullable hs] at hc
      rw [stripNullable_of_shape? hs]
      exact h.eq_of_plainClassifier_primitive hc hp

/-- A primitive declares no supertype, so it reaches nothing. -/
theorem not_reaches_of_primitive (hp : t.shape? c = some .primitive) {b : Ty} :
    ¬ t.Reaches c b := by
  intro hr
  obtain ⟨m, hm, -⟩ := reaches_iff.mp hr
  rw [supers_of_shape? hp] at hm
  cases hm

/-- A type whose class is a primitive has no progression kind: neither a primitive nor its
nullable view is below a base progression class. -/
theorem WellFormed.kindOf_eq_none (h : t.WellFormed) (hc : t.classifier ty = some c)
    (hp : t.shape? c = some .primitive) : t.kindOf ty = none := by
  have hbase : ∀ k : Kind, t.isSubtype ty k.base = false := by
    intro k
    obtain ⟨n, hb⟩ := h.shape?_base k
    refine Bool.eq_false_iff.mpr fun hsub => ?_
    rcases h.isSubtype_iff.mp hsub with rfl | ⟨-, -, -, hpl⟩
    · -- a base class is its own class, and it is no primitive
      rw [classifier_of_isClass hb rfl] at hc
      cases hc
      rw [hb] at hp
      cases hp
    rw [h.stripNullable_of_classifier_primitive hc hp,
      stripNullable_of_not_isNullable (by simp [isNullable, hb, TypeShape.isNullable])] at hpl
    rcases hpl with rfl | ⟨harr, -⟩ | ⟨-, -, hr⟩
    · rw [hb] at hp
      cases hp
    · simp [isArray, hp] at harr
    · exact not_reaches_of_primitive hp hr
  simp [kindOf, Kind.classificationOrder, hbase]

/-- A type that a class set of primitives admits has no progression kind. -/
theorem WellFormed.kindOf_eq_none_of_admits (h : t.WellFormed) {S : ClassSet}
    (hS : ∀ c, S.contains c = true → t.shape? c = some .primitive) (ha : S.admits t ty = true) :
    t.kindOf ty = none := by
  rcases hc : t.classifier ty with _ | c
  · simp [ClassSet.admits, hc] at ha
  · simp only [ClassSet.admits, hc] at ha
    exact h.kindOf_eq_none hc (hS c ha)

theorem WellFormed.kindOf_int (h : t.WellFormed) : t.kindOf Ty.int = none :=
  h.kindOf_eq_none (classifier_of_isClass h.shape?_int rfl) h.shape?_int

end TypeTable

/-! ## Typed calls -/

/-- The type a signature declares for a part of a call. -/
def Signature.partType (sig : Signature) : CallPart → Option Ty
  | .dispatchReceiver => sig.dispatch
  | .extensionReceiver => sig.extension
  | .argument => sig.params[0]?

/-- A call passes its callee what the signature declares: every receiver and argument it has is
a node of the store whose type is the one the signature declares for that place. -/
structure Call.Typed (s : NodeStore) (sig : Signature) (c : Call) : Prop where
  /-- The dispatch receiver has the declared receiver type. -/
  dispatch : ∀ d, c.dispatch = some d → ∃ n, s.get? d = some n ∧ sig.dispatch = some n.ty
  /-- The extension receiver has the declared receiver type. -/
  extension : ∀ r, c.extension = some r → ∃ n, s.get? r = some n ∧ sig.extension = some n.ty
  /-- Each argument has the type of the parameter at its position. -/
  args : ∀ (i : Nat) a, c.args[i]? = some a → ∃ n, s.get? a = some n ∧ sig.params[i]? = some n.ty

/-- Every call of the store passes its callee what the callee's signature declares. -/
def NodeStore.TypedBy (s : NodeStore) (sigs : SignatureTable) : Prop :=
  ∀ x e c sig, s.get? x = some e → e.kind = .call c → sigs.get? c.callee = some sig →
    c.Typed s sig

theorem Call.Typed.part {s : NodeStore} {sig : Signature} {c : Call} (h : c.Typed s sig)
    {p : CallPart} {a : NodeId} (hp : c.part p = some a) :
    ∃ n, s.get? a = some n ∧ sig.partType p = some n.ty := by
  cases p with
  | dispatchReceiver => exact h.dispatch a hp
  | extensionReceiver => exact h.extension a hp
  | argument =>
    have h0 : c.args[0]? = some a := by simpa [Call.part, List.head?_eq_getElem?] using hp
    exact h.args 0 a h0

/-- The requirement that a part of a call is declared with a type a class set admits. -/
def Requirement.onPart (cs : ClassSet) : CallPart → Requirement
  | .dispatchReceiver => .dispatch cs
  | .extensionReceiver => .extension cs
  | .argument => .param 0 cs

theorem Requirement.holds_onPart (t : TypeTable) (sig : Signature) (cs : ClassSet)
    (p : CallPart) : (Requirement.onPart cs p).holds t sig = cs.admitsSome t (sig.partType p) := by
  cases p <;> rfl

/-- A range idiom asks the element classes to admit the type of its start and of its bound. -/
theorem Idiom.onPart_mem_requirements (cfg : Config) {i : Idiom} {p : CallPart}
    {increasing closed : Bool} (hi : i.rangeForm = some (p, increasing, closed)) :
    Requirement.onPart cfg.elementClasses p ∈ i.requirements cfg ∧
      Requirement.onPart cfg.elementClasses .argument ∈ i.requirements cfg := by
  cases i <;> cases hi <;>
    simp [Idiom.requirements, Requirement.onPart, Pattern.extensionOfOne]

theorem Idiom.holds_of_accepts {cfg : Config} {t : TypeTable} {i : Idiom} {sig : Signature}
    (h : i.accepts cfg t sig = true) {r : Requirement} (hr : r ∈ i.requirements cfg) :
    r.holds t sig = true :=
  List.all_eq_true.mp h r hr

/-! ## The base of a chain -/

namespace Context

open StoreM

variable {ctx : Context} {s s' : NodeStore} {x : NodeId}

/-- A node whose type has no progression kind is no progression, and recognising it appends
nothing. -/
theorem runOn_recognize_of_kindOf_none {n : Node} (hx : s.get? x = some n)
    (hk : ctx.types.kindOf n.ty = none) : (ctx.recognize x).runOn s = (.ok none, s) :=
  Declines.runOn_recognize (.plain (by simp [classify, hx, hk]))

/-- The idiom at the base of a chain accepts the callee of the base node. -/
theorem BaseAt.accepts {e : Node} {c : Call} {k : Kind} {i : Idiom}
    (h : ctx.BaseAt s x e c k i) :
    s.get? x = some e ∧ e.kind = .call c ∧
      ∃ sig, ctx.sigs.get? c.callee = some sig ∧ i.accepts ctx.config ctx.types sig = true := by
  rcases h with hv | ⟨r, a, hv, -⟩
  · obtain ⟨hx, -, hc, sig, hsig, hf, -⟩ := classify_eq_base_iff.mp hv
    unfold firstAccepting at hf
    have hacc := List.find?_some hf
    exact ⟨hx, hc, sig, hsig, hacc⟩
  · obtain ⟨hx, -, hc, sig, hsig, -, -, -, hfb⟩ := classify_eq_step_iff.mp hv
    unfold firstBase at hfb
    have hacc := List.find?_some hfb.symm
    simp only [Bool.and_eq_true] at hacc
    exact ⟨hx, hc, sig, hsig, hacc.2⟩

/-- Every chain stands on a base node that one idiom describes, with the chain's description
and store. -/
theorem Heads.exists_base {k : Kind} {levels : List (Kind × NodeId)} {d : Progression}
    {s₁ : NodeStore} (h : ctx.Heads s x k levels d s₁) :
    ∃ x₀ e c k₀ i, ctx.BaseAt s x₀ e c k₀ i ∧ ctx.Describes e c k₀ i s d s₁ := by
  induction h with
  | base hb hd => exact ⟨_, _, _, _, _, hb, hd⟩
  | step _ _ ih => exact ih

/-! ## The ends -/

/-- What the ends of a progression need of a configuration: its element classes are
primitives, and every size accessor it names returns `Int`. -/
structure PlainEnds (ctx : Context) : Prop where
  /-- Every element class is a primitive. -/
  elements : ∀ c, ctx.config.elementClasses.contains c = true →
    ctx.types.shape? c = some .primitive
  /-- Every size accessor returns `Int`. -/
  sizes : ∀ a f sig, ctx.config.sizeAccessor? a = some f → ctx.sigs.get? f = some sig →
    sig.returns = Ty.int

/-- A node of a store whose type has no progression kind. -/
def PlainAt (ctx : Context) (s : NodeStore) (x : NodeId) : Prop :=
  ∃ n, s.get? x = some n ∧ ctx.types.kindOf n.ty = none

theorem PlainAt.of_extends {s₁ : NodeStore} (h : ctx.PlainAt s x) (he : s.Extends s₁) :
    ctx.PlainAt s₁ x := by
  obtain ⟨n, hn, hk⟩ := h
  exact ⟨n, he x n hn, hk⟩

/-- A range ends at two parts of a typed call whose types its idiom's pattern made the element
classes admit. -/
theorem plainAt_range (ht : ctx.types.WellFormed) (hP : ctx.PlainEnds) {sig : Signature}
    {c : Call} {i : Idiom} {a : NodeId} (hty : c.Typed s sig)
    (hacc : i.accepts ctx.config ctx.types sig = true) {q : CallPart}
    (hq : Requirement.onPart ctx.config.elementClasses q ∈ i.requirements ctx.config)
    (ha : c.part q = some a) : ctx.PlainAt s a := by
  obtain ⟨n, hn, hpart⟩ := hty.part ha
  have hadm := Idiom.holds_of_accepts hacc hq
  rw [Requirement.holds_onPart, hpart] at hadm
  exact ⟨n, hn, ht.kindOf_eq_none_of_admits hP.elements hadm⟩

/-- The ends a base idiom describes are plain, in the store it leaves. -/
theorem Describes.plainAt (ht : ctx.types.WellFormed) (hP : ctx.PlainEnds)
    (hs : s.TypedBy ctx.sigs) {x₀ : NodeId} {e : Node} {c : Call} {k : Kind} {i : Idiom}
    {d : Progression} {s₁ : NodeStore} (hb : ctx.BaseAt s x₀ e c k i)
    (hd : ctx.Describes e c k i s d s₁) : ctx.PlainAt s₁ d.start ∧ ctx.PlainAt s₁ d.bound := by
  obtain ⟨hx, hc, sig, hsig, hacc⟩ := hb.accepts
  cases hd with
  | range hform ha hb' =>
    have hty := hs x₀ e c sig hx hc hsig
    obtain ⟨hstart, hbound⟩ := Idiom.onPart_mem_requirements ctx.config hform
    exact ⟨plainAt_range ht hP hty hacc hstart ha, plainAt_range ht hP hty hacc hbound hb'⟩
  | @indices _ r n f sig' hr hn hf hsig' =>
    -- a new zero of type `Int`, then a new call of the size accessor, which returns `Int`
    have hzero : ((s.push ⟨.lit (.int 0), Ty.int, e.span⟩).1.push
        ⟨.call ⟨f, some r, none, []⟩, sig'.returns, e.span⟩).1.get? s.size =
        some ⟨.lit (.int 0), Ty.int, e.span⟩ := by
      rw [NodeStore.get?_push_of_lt _ _ (by simp), NodeStore.get?_push_size]
    have hsize := NodeStore.get?_push_size (s.push ⟨.lit (.int 0), Ty.int, e.span⟩).1
      ⟨.call ⟨f, some r, none, []⟩, sig'.returns, e.span⟩
    rw [NodeStore.size_push] at hsize
    refine ⟨⟨_, hzero, ht.kindOf_int⟩, ⟨_, hsize, ?_⟩⟩
    rw [hP.sizes _ f sig' hf hsig']
    exact ht.kindOf_int

/-- The ends of every progression recognised in a typed store are plain in the store
recognition leaves. -/
theorem plainAt_ends (ht : ctx.types.WellFormed) (hP : ctx.PlainEnds) (hs : s.TypedBy ctx.sigs)
    {p : Progression} (hrun : (ctx.recognize x).runOn s = (.ok (some p), s')) :
    ctx.PlainAt s' p.start ∧ ctx.PlainAt s' p.bound := by
  obtain ⟨k, levels, d, s₁, checks, hheads, hcs, rfl⟩ := heads_of_runOn_recognize hrun
  -- the step checks of the chain only append, after the base is described
  have hext : s₁.Extends s' :=
    appends_mapM (fun l : Kind × NodeId => appends_stepCheck ctx l.1 l.2) levels s₁ _ s' hcs
  obtain ⟨x₀, e, c, k₀, i, hb, hd⟩ := hheads.exists_base
  obtain ⟨hstart, hbound⟩ := hd.plainAt ht hP hs hb
  rw [Progression.start_withSteps, Progression.bound_withSteps]
  exact ⟨hstart.of_extends hext, hbound.of_extends hext⟩

end Context

/-! ## The builtin configuration -/

namespace SignatureTable

theorem lt_size_of_get? {t : SignatureTable} {f : FnId} {sig : Signature}
    (h : t.get? f = some sig) : f < t.size :=
  (Array.getElem?_eq_some_iff.mp h).1

/-- Declaring keeps every signature that was there. -/
theorem get?_declare_of_get? {t : SignatureTable} {s : Signature} {f : FnId} {sig : Signature}
    (h : t.get? f = some sig) : (t.declare s).1.get? f = some sig :=
  (get?_declare_of_lt t s (lt_size_of_get? h)).trans h

theorem get?_declare_self (t : SignatureTable) (s : Signature) :
    (t.declare s).1.get? (t.declare s).2 = some s := by
  simp [declare, get?, size]

end SignatureTable

namespace HelperTable

theorem mem_insert {h : HelperTable} {ty : Ty} {f : FnId} {e : Ty × FnId}
    (he : e ∈ (h.insert ty f).entries) : e ∈ h.entries ∨ e = (ty, f) := by
  unfold insert at he
  split at he
  · obtain ⟨e', he', rfl⟩ := List.mem_map.mp he
    split
    · exact .inr rfl
    · exact .inl he'
  · simpa using he

theorem exists_mem_of_find? {h : HelperTable} {ty : Ty} {f : FnId} (hf : h.find? ty = some f) :
    ∃ a, (a, f) ∈ h.entries := by
  obtain ⟨e, he, rfl⟩ := Option.map_eq_some_iff.mp hf
  exact ⟨e.1, List.mem_of_find?_eq_some he⟩

end HelperTable

/-- The element classes of the builtin configuration are the five integral and character
primitives. -/
theorem elementClasses_declareBuiltinHelpers (sigs : SignatureTable) (names : Interner) :
    (declareBuiltinHelpers sigs names).2.2.elementClasses =
      ⟨[Ty.byte, Ty.short, Ty.int, Ty.long, Ty.char]⟩ := rfl

/-- Every size accessor of the builtin configuration is a signature, declared with it, that
returns `Int`. -/
theorem sizeAccessor?_declareBuiltinHelpers (sigs : SignatureTable) (names : Interner) {a : Ty}
    {f : FnId} (h : (declareBuiltinHelpers sigs names).2.2.sizeAccessor? a = some f) :
    ∃ sig, (declareBuiltinHelpers sigs names).1.get? f = some sig ∧ sig.returns = Ty.int := by
  unfold declareBuiltinHelpers at h ⊢
  -- every accessor registered while the array classes are declared returns `Int`
  generalize hF : List.foldl _ (sigs, HelperTable.empty) Ty.arrayClasses = F at h ⊢
  have hsizes : ∀ e ∈ F.2.entries, ∃ sig, F.1.get? e.2 = some sig ∧ sig.returns = Ty.int := by
    rw [← hF]
    refine List.foldlRecOn (motive := fun F : SignatureTable × HelperTable =>
      ∀ e ∈ F.2.entries, ∃ sig, F.1.get? e.2 = some sig ∧ sig.returns = Ty.int) _ _ ?_ ?_
    · intro e he
      cases he
    rintro ⟨sigs₁, sizes₁⟩ hacc array - e he
    rcases HelperTable.mem_insert he with he | rfl
    · obtain ⟨sig, hsig, hret⟩ := hacc e he
      exact ⟨sig, SignatureTable.get?_declare_of_get? hsig, hret⟩
    · exact ⟨_, SignatureTable.get?_declare_self _ _, rfl⟩
  obtain ⟨sigs₁, sizes₁⟩ := F
  dsimp only at h ⊢
  -- the step checks declared after them keep every signature
  generalize hG : List.foldl _ (sigs₁, HelperTable.empty) [Ty.int, Ty.long] = G at h ⊢
  have hkeep : ∀ f sig, sigs₁.get? f = some sig → G.1.get? f = some sig := by
    rw [← hG]
    refine List.foldlRecOn (motive := fun G : SignatureTable × HelperTable =>
      ∀ f sig, sigs₁.get? f = some sig → G.1.get? f = some sig) _ _ (fun _ _ hs => hs) ?_
    rintro ⟨sigs₂, checks₂⟩ hacc stepType - f sig hsig
    exact SignatureTable.get?_declare_of_get? (hacc f sig hsig)
  obtain ⟨sigs₂, checks₂⟩ := G
  obtain ⟨a', hmem⟩ := HelperTable.exists_mem_of_find? h
  obtain ⟨sig, hsig, hret⟩ := hsizes _ hmem
  exact ⟨sig, hkeep f sig hsig, hret⟩

/-- The builtin configuration over a well-formed table, read by a recogniser whose signatures
keep the builtin ones, gives progressions plain ends. -/
theorem Context.plainEnds_of_builtin {ctx : Context} {sigs₀ : SignatureTable} {names₀ : Interner}
    (hcfg : ctx.config = (declareBuiltinHelpers sigs₀ names₀).2.2)
    (hsigs : ∀ f sig, (declareBuiltinHelpers sigs₀ names₀).1.get? f = some sig →
      ctx.sigs.get? f = some sig)
    (ht : ctx.types.WellFormed) : ctx.PlainEnds where
  elements c hc := by
    rw [hcfg, elementClasses_declareBuiltinHelpers] at hc
    simp only [ClassSet.contains, List.contains_cons, List.contains_nil, Bool.or_false,
      Bool.or_eq_true, beq_iff_eq] at hc
    rcases hc with rfl | rfl | rfl | rfl | rfl <;>
      exact (ht.builtin_prefix _ (by decide)).trans rfl
  sizes a f sig hf hsig := by
    rw [hcfg] at hf
    obtain ⟨sig₀, hsig₀, hret⟩ := sizeAccessor?_declareBuiltinHelpers sigs₀ names₀ hf
    rw [hsigs f sig₀ hsig₀] at hsig
    cases hsig
    exact hret

/-- Under the configuration the builtin helpers give, over any table a program builds, with
signatures that keep the builtin ones, and in a store whose calls pass their callees the types
they declare: for every node recognised as a progression, whatever the depth of its step
modifiers, recognising its start and recognising its bound, in the store recognition left,
both answer that they are no progression and append nothing. -/
theorem Context.recognize_ends_plain (ctx : Context) (sigs₀ : SignatureTable) (names₀ : Interner)
    (hcfg : ctx.config = (declareBuiltinHelpers sigs₀ names₀).2.2)
    (hsigs : ∀ f sig, (declareBuiltinHelpers sigs₀ names₀).1.get? f = some sig →
      ctx.sigs.get? f = some sig)
    (ht : ctx.types.Reachable) (s : NodeStore) (hs : s.TypedBy ctx.sigs) (x : NodeId)
    (p : Progression) (s' : NodeStore)
    (hrun : (ctx.recognize x).runOn s = (.ok (some p), s')) :
    (ctx.recognize p.start).runOn s' = (.ok none, s') ∧
      (ctx.recognize p.bound).runOn s' = (.ok none, s') := by
  have hw := ht.wellFormed
  obtain ⟨⟨n, hn, hk⟩, ⟨m, hm, hk'⟩⟩ :=
    Context.plainAt_ends hw (Context.plainEnds_of_builtin hcfg hsigs hw) hs hrun
  exact ⟨Context.runOn_recognize_of_kindOf_none hn hk, Context.runOn_recognize_of_kindOf_none hm hk'⟩

/-! ## An example

`1..n` over 32-bit integers, with the builtin helpers declared first and the member operator
after them. -/

/-- The member operator `a..b` on 32-bit integers. -/
def intRangeTo : Signature :=
  ⟨⟨["core", "Int", "rangeTo"]⟩, [Ty.int], some Ty.int, none, Ty.intRange⟩

/-- The builtin helpers, ids 0 to 10, then the member operator at id 11. -/
def rangeSigs : SignatureTable := ((declareBuiltinHelpers .empty Interner.seeded).1.declare intRangeTo).1

/-- The recogniser over the builtin table and the builtin configuration. -/
def rangeContext : Context :=
  ⟨TypeTable.builtin, rangeSigs, (declareBuiltinHelpers .empty Interner.seeded).2.2, Idiom.priority,
    .refl _⟩

/-- `1..n`, its call last. -/
def rangeStore : NodeStore := ⟨#[
  ⟨.lit (.int 1), Ty.int, ⟨0, 1⟩⟩,
  ⟨.var "n", Ty.int, ⟨3, 4⟩⟩,
  ⟨.call ⟨11, some 0, none, [1]⟩, Ty.intRange, ⟨0, 4⟩⟩]⟩

theorem rangeStore_typedBy : rangeStore.TypedBy rangeSigs := by
  intro x e c sig hx hc hsig
  -- only the last node is a call
  match x, hx with
  | 0, hx | 1, hx =>
    cases hx
    cases hc
  | 2, hx =>
    cases hx
    cases hc
    obtain rfl : intRangeTo = sig := Option.some.inj hsig
    refine ⟨?_, ?_, ?_⟩
    · rintro d ⟨⟩
      exact ⟨_, rfl, rfl⟩
    · rintro r ⟨⟩
    · rintro (_ | i) a ha
      · cases ha
        exact ⟨_, rfl, rfl⟩
      · simp at ha
  | x + 3, hx => simp [rangeStore, NodeStore.get?] at hx

theorem rangeStore_ends_plain :
    (rangeContext.recognize 2).runOn rangeStore =
        (.ok (some (.basic .int 0 1 true true)), rangeStore) ∧
      (rangeContext.recognize 0).runOn rangeStore = (.ok none, rangeStore) ∧
      (rangeContext.recognize 1).runOn rangeStore = (.ok none, rangeStore) :=
  have hrun : (rangeContext.recognize 2).runOn rangeStore =
      (.ok (some (.basic .int 0 1 true true)), rangeStore) := rfl
  ⟨hrun, Context.recognize_ends_plain rangeContext .empty Interner.seeded rfl
    (fun _ _ h => SignatureTable.get?_declare_of_get? h) .builtin rangeStore rangeStore_typedBy 2
    (.basic .int 0 1 true true) rangeStore hrun⟩

end ProgressionIdioms
