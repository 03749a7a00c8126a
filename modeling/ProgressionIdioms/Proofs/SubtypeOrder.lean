import ProgressionIdioms.Proofs.SupertypeWalk
/-!
# Subtyping on the tables a program builds

On a well-formed table subtyping reads as a rule on two layers. Below the nullable layer
(`WellFormed.plainSubtype_iff`): a type is below itself, an array instance is below the
generic array class, and otherwise neither side is an array instance and the lower type
reaches the upper one through declared supertypes. Above it (`WellFormed.isSubtype_iff`): a
nullable view is only below nullable views, and the types with their views stripped must be
in the plain rule.

Two facts follow. The test that a progression class is only above progression classes never
changes an answer, because a type that reaches a progression class is one
(`progression_shortcut`). And subtyping is a partial order (`subtype_partialOrder`): the
plain rule is transitive because paths compose, and antisymmetric because declared
supertypes come earlier and a table holds one nullable view of each type.
-/

namespace ProgressionIdioms

namespace TypeTable

/-- Subtyping below the nullable layer without the progression shortcut: the rule of
`plainSubtype`, with the walk through the supertypes deciding every case it reaches. -/
def plainWalk (t : TypeTable) (sub sup : Ty) : Bool :=
  sub == sup ||
    match t.shape? sub, t.shape? sup with
    | some (.arrayOf _), some _ => sup == Ty.array
    | some _, some (.arrayOf _) => false
    | some _, some _ => t.derives sub sup
    | _, _ => false

/-- Subtyping as `isSubtype` decides it, over `plainWalk`. -/
def isSubtypeWalk (t : TypeTable) (sub sup : Ty) : Bool :=
  sub == sup ||
    match t.shape? sub, t.shape? sup with
    | some (.nullable a), some (.nullable b) => t.plainWalk a b
    | some (.nullable _), some _ => false
    | some _, some (.nullable b) => t.plainWalk sub b
    | some _, some _ => t.plainWalk sub sup
    | _, _ => false

/-- Whether a handle names an array instance. -/
def isArray (t : TypeTable) (ty : Ty) : Bool :=
  match t.shape? ty with
  | some (.arrayOf _) => true
  | _ => false

/-- The rule below the nullable layer, said without the tests: a type is below itself, an
array instance below the generic array class, and a type that is no array instance below what
it reaches through declared supertypes, if that is no array instance either. -/
def PlainBelow (t : TypeTable) (a b : Ty) : Prop :=
  a = b ∨ t.isArray a = true ∧ b = Ty.array ∨
    t.isArray a = false ∧ t.isArray b = false ∧ t.Reaches a b

section Plain

variable {t : TypeTable} {a b c : Ty}

theorem WellFormed.shape?_array (h : t.WellFormed) :
    t.shape? Ty.array = some (.nominal "Array" [] false) :=
  (h.builtin_prefix 24 (by decide)).trans rfl

theorem WellFormed.isArray_array (h : t.WellFormed) : t.isArray Ty.array = false := by
  simp [isArray, h.shape?_array]

theorem WellFormed.not_reaches_from_array (h : t.WellFormed) : ¬ t.Reaches Ty.array c := by
  intro hr
  rcases reaches_iff.mp hr with ⟨m, hm, -⟩
  rw [supers_of_shape? h.shape?_array] at hm
  cases hm

/-- The generic array class is below nothing but itself. -/
theorem WellFormed.eq_of_plainBelow_array (h : t.WellFormed) (hc : t.PlainBelow Ty.array c) :
    c = Ty.array := by
  rcases hc with rfl | ⟨ha, -⟩ | ⟨-, -, hr⟩
  · rfl
  · rw [h.isArray_array] at ha
    cases ha
  · exact absurd hr h.not_reaches_from_array

theorem WellFormed.lt_size_of_reaches (h : t.WellFormed) (hr : t.Reaches a b) : b.id < t.size :=
  Nat.lt_trans (hr.lt h.supers_lt) hr.lt_size

/-- What reaches a progression class is one. -/
theorem WellFormed.isProgression_of_reaches (h : t.WellFormed) (hr : t.Reaches a b)
    (hb : t.isProgression b = true) : t.isProgression a = true := by
  obtain ⟨k, hk⟩ := (h.isProgression_iff b).mp hb
  refine (h.isProgression_iff a).mpr ⟨k, .inr ?_⟩
  rcases hk with rfl | hk
  · exact hr
  · exact hr.trans hk

theorem WellFormed.plainWalk_iff (h : t.WellFormed) : t.plainWalk a b = true ↔ t.PlainBelow a b := by
  unfold plainWalk PlainBelow
  by_cases hab : a = b
  · simp [hab]
  simp only [hab, Bool.or_eq_true, beq_iff_eq, false_or]
  rcases hs : t.shape? a with _ | s
  · -- a handle past the end is no array instance and reaches nothing
    have hr : ¬ t.Reaches a b := fun hr => Nat.not_le.mpr hr.lt_size (size_le_of_shape? hs)
    simp [isArray, hs, hr]
  rcases hu : t.shape? b with _ | u
  · have hr : ¬ t.Reaches a b := fun hr =>
      Nat.not_le.mpr (h.lt_size_of_reaches hr) (size_le_of_shape? hu)
    have hb : b ≠ Ty.array := fun hb => by
      rw [hb, h.shape?_array] at hu
      cases hu
    cases s <;> simp [isArray, hs, hu, hr, hb]
  cases s <;> cases u <;> simp [isArray, hs, hu, derives_iff_reaches]

/-- The progression shortcut only ever answers where the walk answers the same: a type that
reaches a progression class is one. -/
theorem WellFormed.plainSubtype_eq_plainWalk (h : t.WellFormed) (a b : Ty) :
    t.plainSubtype a b = t.plainWalk a b := by
  unfold plainSubtype plainWalk
  rcases hs : t.shape? a with _ | s
  · rfl
  rcases hu : t.shape? b with _ | u
  · cases s <;> rfl
  have hgate : t.derives a b = true → (!u.isProgression || s.isProgression) = true := by
    intro hd
    have hprog := h.isProgression_of_reaches (derives_iff_reaches.mp hd)
    rw [isProgression_of_shape? hs, isProgression_of_shape? hu] at hprog
    cases hp : u.isProgression <;> simp_all
  cases s <;> cases u <;> cases hd : t.derives a b <;> simp_all

theorem WellFormed.plainSubtype_iff (h : t.WellFormed) :
    t.plainSubtype a b = true ↔ t.PlainBelow a b := by
  rw [h.plainSubtype_eq_plainWalk]
  exact h.plainWalk_iff

theorem WellFormed.plainBelow_trans (h : t.WellFormed) (hab : t.PlainBelow a b)
    (hbc : t.PlainBelow b c) : t.PlainBelow a c := by
  rcases hab with rfl | ⟨ha, rfl⟩ | ⟨ha, hb, hr₁⟩
  · exact hbc
  · -- above an array instance is only the generic array class
    obtain rfl := h.eq_of_plainBelow_array hbc
    exact .inr (.inl ⟨ha, rfl⟩)
  · rcases hbc with rfl | ⟨hb', -⟩ | ⟨-, hc, hr₂⟩
    · exact .inr (.inr ⟨ha, hb, hr₁⟩)
    · rw [hb] at hb'
      cases hb'
    · exact .inr (.inr ⟨ha, hc, hr₁.trans hr₂⟩)

theorem WellFormed.plainBelow_antisymm (h : t.WellFormed) (hab : t.PlainBelow a b)
    (hba : t.PlainBelow b a) : a = b := by
  rcases hab with rfl | ⟨-, rfl⟩ | ⟨-, hb, hr₁⟩
  · rfl
  · exact h.eq_of_plainBelow_array hba
  · -- declared supertypes come earlier, so no two types reach each other
    rcases hba with rfl | ⟨hb', -⟩ | ⟨-, -, hr₂⟩
    · rfl
    · rw [hb] at hb'
      cases hb'
    · exact absurd (Nat.lt_trans (hr₁.lt h.supers_lt) (hr₂.lt h.supers_lt)) (Nat.lt_irrefl _)

end Plain

section Nullable

variable {t : TypeTable} {a b c : Ty}

/-- The nullable layer over the plain rule: both handles name entries, a view is only below
views, and the types with their views stripped decide. -/
theorem isSubtype_eq (t : TypeTable) (a b : Ty) :
    t.isSubtype a b = (a == b || t.contains a && t.contains b &&
      (!t.isNullable a || t.isNullable b) &&
        t.plainSubtype (t.stripNullable a) (t.stripNullable b)) := by
  unfold isSubtype
  congr 1
  rcases hs : t.shape? a with _ | s
  · simp [contains_eq_isSome, hs]
  rcases hu : t.shape? b with _ | u
  · cases s <;> simp [contains_eq_isSome, hs, hu]
  cases s <;> cases u <;>
    simp [contains_eq_isSome, isNullable, stripNullable, TypeShape.isNullable, hs, hu]

theorem isSubtype_refl (t : TypeTable) (a : Ty) : t.isSubtype a a = true := by
  simp [isSubtype]

theorem WellFormed.isSubtype_iff (h : t.WellFormed) : t.isSubtype a b = true ↔ a = b ∨
    t.contains a = true ∧ t.contains b = true ∧ (t.isNullable a = true → t.isNullable b = true) ∧
      t.PlainBelow (t.stripNullable a) (t.stripNullable b) := by
  rw [isSubtype_eq, ← h.plainSubtype_iff]
  cases t.isNullable a <;> cases t.isNullable b <;> simp [and_assoc]

theorem WellFormed.isSubtype_trans (h : t.WellFormed) (hab : t.isSubtype a b = true)
    (hbc : t.isSubtype b c = true) : t.isSubtype a c = true := by
  rcases h.isSubtype_iff.mp hab with rfl | ⟨ha, -, hn₁, hp₁⟩
  · exact hbc
  rcases h.isSubtype_iff.mp hbc with rfl | ⟨-, hc, hn₂, hp₂⟩
  · exact hab
  exact h.isSubtype_iff.mpr (.inr ⟨ha, hc, hn₂ ∘ hn₁, h.plainBelow_trans hp₁ hp₂⟩)

theorem WellFormed.isSubtype_antisymm (h : t.WellFormed) (hab : t.isSubtype a b = true)
    (hba : t.isSubtype b a = true) : a = b := by
  rcases h.isSubtype_iff.mp hab with rfl | ⟨-, -, hn₁, hp₁⟩
  · rfl
  rcases h.isSubtype_iff.mp hba with rfl | ⟨-, -, hn₂, hp₂⟩
  · rfl
  have hstrip := h.plainBelow_antisymm hp₁ hp₂
  cases hna : t.isNullable a
  · -- neither is a view, so stripping changes neither
    have hnb : t.isNullable b = false := by
      cases hnb : t.isNullable b
      · rfl
      · rw [hn₂ hnb] at hna
        cases hna
    rwa [stripNullable_of_not_isNullable hna, stripNullable_of_not_isNullable hnb] at hstrip
  · -- both are views of one type, and a table holds one view of each type
    obtain ⟨x, hx⟩ := shape?_of_isNullable hna
    obtain ⟨y, hy⟩ := shape?_of_isNullable (hn₁ hna)
    rw [stripNullable_of_shape? hx, stripNullable_of_shape? hy] at hstrip
    subst hstrip
    exact h.shared_unique a b _ hx hy rfl

/-- Subtyping decides the same with or without the progression shortcut. -/
theorem WellFormed.isSubtype_eq_isSubtypeWalk (h : t.WellFormed) (a b : Ty) :
    t.isSubtype a b = t.isSubtypeWalk a b := by
  have hplain : t.plainSubtype = t.plainWalk :=
    funext fun a => funext fun b => h.plainSubtype_eq_plainWalk a b
  unfold isSubtype isSubtypeWalk
  rewrite [hplain]
  rfl

end Nullable

/-! ## Subtyping on the tables a program builds -/

/-- On every table a program builds, the test that a progression class is only above
progression classes never changes an answer of subtyping: a type is a progression class
exactly when it is a base progression class or reaches one through declared supertypes, so
whatever reaches a progression class is one. -/
theorem Reachable.progression_shortcut {t : TypeTable} (h : t.Reachable) :
    (∀ sub sup, t.isSubtype sub sup = t.isSubtypeWalk sub sup) ∧
      ∀ ty, t.isProgression ty = true ↔ ∃ k : Kind, ty = k.base ∨ t.Reaches ty k.base :=
  ⟨h.wellFormed.isSubtype_eq_isSubtypeWalk, h.wellFormed.isProgression_iff⟩

theorem sample_progression_shortcut : sample.Reachable ∧
    ((∀ sub sup, sample.isSubtype sub sup = sample.isSubtypeWalk sub sup) ∧
      ∀ ty, sample.isProgression ty = true ↔
        ∃ k : Kind, ty = k.base ∨ sample.Reaches ty k.base) :=
  ⟨sample_reachable, Reachable.progression_shortcut sample_reachable⟩

/-- On every table a program builds, subtyping is a partial order on all handles, those that
name no entry and the reserved one included. -/
theorem Reachable.subtype_partialOrder {t : TypeTable} (h : t.Reachable) :
    (∀ a, t.isSubtype a a = true) ∧
    (∀ a b c, t.isSubtype a b = true → t.isSubtype b c = true → t.isSubtype a c = true) ∧
    (∀ a b, t.isSubtype a b = true → t.isSubtype b a = true → a = b) :=
  ⟨t.isSubtype_refl, fun _ _ _ => h.wellFormed.isSubtype_trans,
    fun _ _ => h.wellFormed.isSubtype_antisymm⟩

theorem sample_subtype_partialOrder : sample.Reachable ∧
    ((∀ a, sample.isSubtype a a = true) ∧
    (∀ a b c, sample.isSubtype a b = true → sample.isSubtype b c = true →
      sample.isSubtype a c = true) ∧
    (∀ a b, sample.isSubtype a b = true → sample.isSubtype b a = true → a = b)) :=
  ⟨sample_reachable, Reachable.subtype_partialOrder sample_reachable⟩

end TypeTable

end ProgressionIdioms
