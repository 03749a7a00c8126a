import ProgressionIdioms.Recognize.Kind
/-!
# Well-formed type tables

A program builds its type table from the builtin table by three operations: nullable views,
array instances and class declarations (`TypeTable.Reachable`). Each returns an entry the
table already has or appends exactly one, so a table only grows.

The invariant they keep is `TypeTable.WellFormed`: the builtins stay at their handles; no
two shared entries are equal, so sharing finds each at its own handle; a nullable view is of
an earlier type that is not a view itself; declared supertypes come earlier; and a type is a
progression class exactly when it is a base progression class or reaches one.

The invariant is shown once for the builtin table and once for appending an entry that fits
the table (`TypeTable.Appendable`); each operation then only shows that what it appends fits.
-/

namespace ProgressionIdioms

attribute [ext] Ty

theorem Kind.exists_iff {P : Kind → Prop} : (∃ k, P k) ↔ P .int ∨ P .long ∨ P .char := by
  constructor
  · rintro ⟨k, hk⟩
    cases k
    case int => exact .inl hk
    case long => exact .inr (.inl hk)
    case char => exact .inr (.inr hk)
  · rintro (h | h | h) <;> exact ⟨_, h⟩

/-- The base progression classes are builtins. -/
theorem Kind.base_id_lt (k : Kind) : k.base.id < Ty.builtinCount := by
  cases k <;> decide

namespace TypeShape

/-- The entries a table shares instead of appending an equal one: array instances and
nullable views. -/
def shared : TypeShape → Bool
  | arrayOf _ | nullable _ => true
  | _ => false

/-- Whether the entry is a nullable view. -/
def isNullable : TypeShape → Bool
  | nullable _ => true
  | _ => false

end TypeShape

namespace TypeTable

/-- Whether a handle names a progression class. -/
def isProgression (t : TypeTable) (ty : Ty) : Bool :=
  ((t.shape? ty).map TypeShape.isProgression).getD false

/-- Whether a handle names a nullable view. -/
def isNullable (t : TypeTable) (ty : Ty) : Bool :=
  ((t.shape? ty).map TypeShape.isNullable).getD false

/-- `sub` reaches `sup` by following one or more declared-supertype edges. -/
inductive Reaches (t : TypeTable) : Ty → Ty → Prop
  | super {sub sup : Ty} : sup ∈ t.supers sub → Reaches t sub sup
  | step {sub mid sup : Ty} : mid ∈ t.supers sub → Reaches t mid sup → Reaches t sub sup

/-- The tables a program can build: the builtin table, grown by nullable views, array
instances and class declarations that succeed. -/
inductive Reachable : TypeTable → Prop
  | builtin : Reachable builtin
  | nullable {t t' : TypeTable} {inner r : Ty} :
      Reachable t → t.nullable inner = .ok (t', r) → Reachable t'
  | arrayOf {t : TypeTable} (elem : Ty) : Reachable t → Reachable (t.arrayOf elem).1
  | declareClass {t t' : TypeTable} {name : String} {supers : List Ty} {r : Ty} :
      Reachable t → t.declareClass name supers = .ok (t', r) → Reachable t'

/-! ## Reading entries -/

section Lookup

variable {t : TypeTable} {ty : Ty} {s : TypeShape}

theorem lt_size_of_shape? (h : t.shape? ty = some s) : ty.id < t.size :=
  (Array.getElem?_eq_some_iff.mp h).1

theorem shape?_of_size_le (h : t.size ≤ ty.id) : t.shape? ty = none :=
  Array.getElem?_eq_none h

theorem size_le_of_shape? (h : t.shape? ty = none) : t.size ≤ ty.id :=
  Array.getElem?_eq_none_iff.mp h

theorem contains_eq_isSome : t.contains ty = (t.shape? ty).isSome := by
  by_cases h : ty.id < t.size
  · simp [contains, h, shape?, Array.getElem?_eq_getElem h]
  · simp [contains, h, shape?_of_size_le (Nat.le_of_not_lt h)]

theorem supers_of_shape? (h : t.shape? ty = some s) : t.supers ty = s.supers := by
  simp [supers, h]

theorem isProgression_of_shape? (h : t.shape? ty = some s) :
    t.isProgression ty = s.isProgression := by
  simp [isProgression, h]

theorem isNullable_of_shape? (h : t.shape? ty = some s) : t.isNullable ty = s.isNullable := by
  simp [isNullable, h]

theorem supers_of_size_le (h : t.size ≤ ty.id) : t.supers ty = [] := by
  simp [supers, shape?_of_size_le h]

theorem isProgression_of_size_le (h : t.size ≤ ty.id) : t.isProgression ty = false := by
  simp [isProgression, shape?_of_size_le h]

theorem lt_size_of_mem_supers {m : Ty} (h : m ∈ t.supers ty) : ty.id < t.size := by
  refine Nat.lt_of_not_le fun hge => ?_
  rw [supers_of_size_le hge] at h
  cases h

theorem shape?_of_isNullable (h : t.isNullable ty = true) : ∃ x, t.shape? ty = some (.nullable x) := by
  rcases hs : t.shape? ty with _ | s
  · simp [isNullable, hs] at h
  · cases s <;> simp_all [isNullable, TypeShape.isNullable]

theorem lt_size_of_isNullable (h : t.isNullable ty = true) : ty.id < t.size := by
  refine Nat.lt_of_not_le fun hge => ?_
  simp [isNullable, shape?_of_size_le hge] at h

theorem isNullable_of_shape?_nullable {x : Ty} (h : t.shape? ty = some (.nullable x)) :
    t.isNullable ty = true := by
  simp [isNullable, h, TypeShape.isNullable]

end Lookup

/-! ## Appending an entry -/

section Push

variable (t : TypeTable) (s : TypeShape) {ty : Ty}

@[simp]
theorem size_push : (⟨t.entries.push s⟩ : TypeTable).size = t.size + 1 := by
  simp [size]

/-- An appended entry sits at the old size, and every other handle reads as before. -/
theorem shape?_push :
    (⟨t.entries.push s⟩ : TypeTable).shape? ty = if ty.id = t.size then some s else t.shape? ty :=
  Array.getElem?_push

theorem shape?_push_size : (⟨t.entries.push s⟩ : TypeTable).shape? ⟨t.size⟩ = some s := by
  simp [shape?_push]

variable {t}

theorem shape?_push_of_ne (h : ty.id ≠ t.size) :
    (⟨t.entries.push s⟩ : TypeTable).shape? ty = t.shape? ty := by
  simp [shape?_push, h]

theorem supers_push_of_ne (h : ty.id ≠ t.size) :
    (⟨t.entries.push s⟩ : TypeTable).supers ty = t.supers ty := by
  simp [supers, shape?_push_of_ne s h]

theorem isProgression_push_of_ne (h : ty.id ≠ t.size) :
    (⟨t.entries.push s⟩ : TypeTable).isProgression ty = t.isProgression ty := by
  simp [isProgression, shape?_push_of_ne s h]

theorem isNullable_push_of_ne (h : ty.id ≠ t.size) :
    (⟨t.entries.push s⟩ : TypeTable).isNullable ty = t.isNullable ty := by
  simp [isNullable, shape?_push_of_ne s h]

end Push

/-! ## Reaching through declared supertypes -/

section Reaches

variable {t : TypeTable} {a b c : Ty}

/-- One declared supertype, then the rest of the way. -/
theorem reaches_iff : t.Reaches a b ↔ ∃ m ∈ t.supers a, m = b ∨ t.Reaches m b := by
  constructor
  · rintro (hb | ⟨hm, hr⟩)
    · exact ⟨b, hb, .inl rfl⟩
    · exact ⟨_, hm, .inr hr⟩
  · rintro ⟨m, hm, rfl | hr⟩
    · exact .super hm
    · exact .step hm hr

theorem Reaches.trans (hab : t.Reaches a b) (hbc : t.Reaches b c) : t.Reaches a c := by
  induction hab with
  | super hm => exact .step hm hbc
  | step hm _ ih => exact .step hm (ih hbc)

theorem Reaches.lt_size (h : t.Reaches a b) : a.id < t.size := by
  rcases reaches_iff.mp h with ⟨m, hm, -⟩
  exact lt_size_of_mem_supers hm

/-- Where declared supertypes come earlier, so does everything a type reaches. -/
theorem Reaches.lt (hlt : ∀ ty m, m ∈ t.supers ty → m.id < ty.id) (h : t.Reaches a b) :
    b.id < a.id := by
  induction h with
  | super hm => exact hlt _ _ hm
  | step hm _ ih => exact Nat.lt_trans ih (hlt _ _ hm)

/-- Appending an entry adds no path between the entries already there, as long as
declared supertypes come earlier. -/
theorem reaches_push_iff (s : TypeShape) (hlt : ∀ ty m, m ∈ t.supers ty → m.id < ty.id)
    (ha : a.id < t.size) : (⟨t.entries.push s⟩ : TypeTable).Reaches a b ↔ t.Reaches a b := by
  constructor
  · intro h
    induction h with
    | super hm =>
      rw [supers_push_of_ne s (Nat.ne_of_lt ha)] at hm
      exact .super hm
    | step hm _ ih =>
      rw [supers_push_of_ne s (Nat.ne_of_lt ha)] at hm
      exact .step hm (ih (Nat.lt_trans (hlt _ _ hm) ha))
  · intro h
    induction h with
    | super hm =>
      refine .super ?_
      rwa [supers_push_of_ne s (Nat.ne_of_lt ha)]
    | step hm _ ih =>
      refine .step ?_ (ih (Nat.lt_trans (hlt _ _ hm) ha))
      rwa [supers_push_of_ne s (Nat.ne_of_lt ha)]

theorem reaches_push_iff_of_ne (s : TypeShape) (hlt : ∀ ty m, m ∈ t.supers ty → m.id < ty.id)
    (ha : a.id ≠ t.size) : (⟨t.entries.push s⟩ : TypeTable).Reaches a b ↔ t.Reaches a b := by
  by_cases hlt' : a.id < t.size
  · exact reaches_push_iff s hlt hlt'
  · -- past the new entry nothing is reached, before or after the append
    constructor
    · intro h
      have := h.lt_size
      simp only [size_push] at this
      omega
    · intro h
      exact absurd h.lt_size hlt'

/-- From the appended entry, a path goes through one of its declared supertypes, and from
there only through entries that were already in the table. -/
theorem reaches_push_size_iff (s : TypeShape) (hlt : ∀ ty m, m ∈ t.supers ty → m.id < ty.id)
    (hs : ∀ m ∈ s.supers, m.id < t.size) :
    (⟨t.entries.push s⟩ : TypeTable).Reaches ⟨t.size⟩ b ↔ ∃ m ∈ s.supers, m = b ∨ t.Reaches m b := by
  rw [reaches_iff, supers_of_shape? (shape?_push_size t s)]
  constructor
  · rintro ⟨m, hm, hb⟩
    exact ⟨m, hm, hb.imp_right (reaches_push_iff s hlt (hs m hm)).mp⟩
  · rintro ⟨m, hm, hb⟩
    exact ⟨m, hm, hb.imp_right (reaches_push_iff s hlt (hs m hm)).mpr⟩

end Reaches

/-! ## The invariant -/

/-- What every table a program builds satisfies. -/
structure WellFormed (t : TypeTable) : Prop where
  /-- The builtin entries stay at their handles. -/
  builtin_prefix : ∀ i < Ty.builtinCount, t.entries[i]? = builtin.entries[i]?
  /-- No two shared entries are equal. -/
  shared_unique : ∀ a b s, t.shape? a = some s → t.shape? b = some s → s.shared → a = b
  /-- A nullable view is of an earlier type that is not a nullable view. -/
  nullable_inner : ∀ ty inner, t.shape? ty = some (.nullable inner) →
    inner.id < ty.id ∧ t.isNullable inner = false
  /-- Declared supertypes come earlier. -/
  supers_lt : ∀ ty m, m ∈ t.supers ty → m.id < ty.id
  /-- The progression classes are the base ones and those that reach a base one. -/
  isProgression_iff : ∀ ty, t.isProgression ty = true ↔ ∃ k : Kind, ty = k.base ∨ t.Reaches ty k.base

/-! ## The builtin table -/

section Builtin

variable {ty a b : Ty} {s : TypeShape}

theorem builtin_not_shared (h : builtin.shape? ty = some s) : s.shared = false := by
  have hmem : s ∈ builtinShapes := by
    simpa [builtin] using Array.mem_of_getElem? h
  have hall : ∀ s ∈ builtinShapes, s.shared = false := by decide
  exact hall s hmem

theorem builtin_supers_lt (ty m : Ty) (hm : m ∈ builtin.supers ty) : m.id < ty.id := by
  have hall : ∀ i < Ty.builtinCount, ∀ m ∈ builtin.supers ⟨i⟩, m.id < i := by decide
  exact hall ty.id (lt_size_of_mem_supers hm) m hm

/-- A builtin class declares at most a base progression class, which declares nothing: every
path through builtin supertypes is one edge long. -/
theorem builtin_reaches_iff : builtin.Reaches a b ↔ b ∈ builtin.supers a := by
  have hnil : ∀ i < Ty.builtinCount, ∀ m ∈ builtin.supers ⟨i⟩, builtin.supers m = [] := by
    decide
  constructor
  · rintro (hm | ⟨hm, hr⟩)
    · exact hm
    · rcases reaches_iff.mp hr with ⟨m', hm', -⟩
      rw [hnil a.id (lt_size_of_mem_supers hm) _ hm] at hm'
      cases hm'
  · exact .super

theorem builtin_wellFormed : builtin.WellFormed where
  builtin_prefix _ _ := rfl
  shared_unique _ _ _ ha _ hs := by
    rw [builtin_not_shared ha] at hs
    cases hs
  nullable_inner _ _ h := by
    cases builtin_not_shared h
  supers_lt := builtin_supers_lt
  isProgression_iff ty := by
    simp only [builtin_reaches_iff]
    by_cases hty : ty.id < Ty.builtinCount
    · have hall : ∀ i < Ty.builtinCount, builtin.isProgression ⟨i⟩ = true ↔
          ∃ k : Kind, (⟨i⟩ : Ty) = k.base ∨ k.base ∈ builtin.supers ⟨i⟩ := by
        simp only [Kind.exists_iff]
        decide
      exact hall ty.id hty
    · have hge : builtin.size ≤ ty.id := Nat.le_of_not_lt hty
      rw [isProgression_of_size_le hge, supers_of_size_le hge]
      simp only [Bool.false_eq_true, List.not_mem_nil, or_false, false_iff, not_exists]
      rintro k rfl
      exact hty k.base_id_lt

end Builtin

/-! ## Appending an entry that fits -/

/-- What an entry appended to a table must satisfy for the table to stay well formed, said of
the table before the append. -/
structure Appendable (t : TypeTable) (s : TypeShape) : Prop where
  /-- A shared entry is not in the table yet. -/
  fresh : s.shared → ∀ ty, t.shape? ty ≠ some s
  /-- A nullable view is of a type of the table that is not a nullable view. -/
  nullable_inner : ∀ inner, s = .nullable inner → inner.id < t.size ∧ t.isNullable inner = false
  /-- The declared supertypes are in the table. -/
  supers_lt : ∀ m ∈ s.supers, m.id < t.size
  /-- A progression class exactly when a declared supertype is one. -/
  isProgression_iff : s.isProgression = true ↔ ∃ m ∈ s.supers, t.isProgression m = true

section Append

variable {t : TypeTable} {s : TypeShape} {ty : Ty}

theorem WellFormed.builtinCount_le (h : t.WellFormed) : Ty.builtinCount ≤ t.size := by
  obtain ⟨s, hs⟩ : ∃ s, t.shape? ⟨24⟩ = some s := ⟨_, (h.builtin_prefix 24 (by decide)).trans rfl⟩
  exact lt_size_of_shape? hs

theorem shape?_push_eq_some {s' : TypeShape} :
    (⟨t.entries.push s⟩ : TypeTable).shape? ty = some s' ↔
      ty = ⟨t.size⟩ ∧ s = s' ∨ t.shape? ty = some s' := by
  rw [shape?_push]
  by_cases hty : ty.id = t.size
  · rw [if_pos hty, shape?_of_size_le (Nat.le_of_eq hty.symm)]
    simp [Ty.ext_iff, hty]
  · rw [if_neg hty]
    simp [Ty.ext_iff, hty]

/-- The invariant survives appending an entry that fits the table. -/
theorem WellFormed.push (h : t.WellFormed) (hs : t.Appendable s) :
    (⟨t.entries.push s⟩ : TypeTable).WellFormed := by
  have hbase := h.builtinCount_le
  constructor
  case builtin_prefix =>
    intro i hi
    have hne : (⟨i⟩ : Ty).id ≠ t.size := by
      have : i < Ty.builtinCount := hi
      simp only
      omega
    exact (shape?_push_of_ne s hne).trans (h.builtin_prefix i hi)
  case shared_unique =>
    intro a b s' ha hb hsh
    rcases shape?_push_eq_some.mp ha with ⟨rfl, rfl⟩ | ha
    · rcases shape?_push_eq_some.mp hb with ⟨rfl, -⟩ | hb
      · rfl
      · exact absurd hb (hs.fresh hsh b)
    · rcases shape?_push_eq_some.mp hb with ⟨rfl, rfl⟩ | hb
      · exact absurd ha (hs.fresh hsh a)
      · exact h.shared_unique a b s' ha hb hsh
  case nullable_inner =>
    intro ty inner hty
    rcases shape?_push_eq_some.mp hty with ⟨rfl, rfl⟩ | hty
    · obtain ⟨hlt, hnn⟩ := hs.nullable_inner inner rfl
      exact ⟨hlt, by rwa [isNullable_push_of_ne _ (Nat.ne_of_lt hlt)]⟩
    · obtain ⟨hlt, hnn⟩ := h.nullable_inner ty inner hty
      have hne : inner.id ≠ t.size := Nat.ne_of_lt (Nat.lt_trans hlt (lt_size_of_shape? hty))
      exact ⟨hlt, by rwa [isNullable_push_of_ne _ hne]⟩
  case supers_lt =>
    intro ty m hm
    by_cases hty : ty.id = t.size
    · obtain rfl : ty = ⟨t.size⟩ := Ty.ext hty
      rw [supers_of_shape? (shape?_push_size t s)] at hm
      exact hs.supers_lt m hm
    · rw [supers_push_of_ne s hty] at hm
      exact h.supers_lt ty m hm
  case isProgression_iff =>
    intro ty
    by_cases hty : ty.id = t.size
    · obtain rfl : ty = ⟨t.size⟩ := Ty.ext hty
      have hnot_base : ∀ k : Kind, (⟨t.size⟩ : Ty) ≠ k.base := fun k hk => by
        have := k.base_id_lt
        rw [← hk] at this
        omega
      rw [isProgression_of_shape? (shape?_push_size t s), hs.isProgression_iff]
      simp only [reaches_push_size_iff s h.supers_lt hs.supers_lt, h.isProgression_iff]
      constructor
      · rintro ⟨m, hm, k, hk⟩
        exact ⟨k, .inr ⟨m, hm, hk⟩⟩
      · rintro ⟨k, hk | ⟨m, hm, hk⟩⟩
        · exact absurd hk (hnot_base k)
        · exact ⟨m, hm, k, hk⟩
    · rw [isProgression_push_of_ne s hty, h.isProgression_iff]
      simp only [reaches_push_iff_of_ne s h.supers_lt hty]

end Append

/-! ## The three operations -/

section Operations

variable {t t' : TypeTable} {s : TypeShape} {inner elem r : Ty} {name : String}
  {supers : List Ty}

/-- Sharing either finds an equal entry and leaves the table as it was, or appends the entry
at the next handle. -/
theorem share_cases (t : TypeTable) (s : TypeShape) :
    (t.share s).1 = t ∧ t.shape? (t.share s).2 = some s ∨
      (∀ ty, t.shape? ty ≠ some s) ∧ t.share s = (⟨t.entries.push s⟩, ⟨t.size⟩) := by
  unfold share
  rcases hi : t.entries.findIdx? (· == s) with _ | i
  · refine .inr ⟨fun ty hty => ?_, rfl⟩
    have hfalse := Array.findIdx?_eq_none_iff.mp hi s (Array.mem_of_getElem? hty)
    simp at hfalse
  · obtain ⟨hlt, heq, -⟩ := Array.findIdx?_eq_some_iff_getElem.mp hi
    refine .inl ⟨rfl, ?_⟩
    simp only [shape?, Array.getElem?_eq_getElem hlt]
    simpa using heq

theorem appendable_arrayOf (hfresh : ∀ ty, t.shape? ty ≠ some (.arrayOf elem)) :
    t.Appendable (.arrayOf elem) where
  fresh _ := hfresh
  nullable_inner _ h := by cases h
  supers_lt _ h := by cases h
  isProgression_iff := by simp [TypeShape.isProgression, TypeShape.supers]

theorem WellFormed.arrayOf (h : t.WellFormed) (elem : Ty) : (t.arrayOf elem).1.WellFormed := by
  unfold TypeTable.arrayOf
  rcases share_cases t (.arrayOf elem) with ⟨heq, -⟩ | ⟨hfresh, heq⟩
  · rw [heq]
    exact h
  · rw [heq]
    exact h.push (appendable_arrayOf hfresh)

/-- A nullable view of a view is the view itself; of anything else it is shared. -/
theorem nullable_cases (hn : t.nullable inner = .ok (t', r)) :
    t.isNullable inner = true ∧ t' = t ∧ r = inner ∨
      inner.id < t.size ∧ t.isNullable inner = false ∧ t.share (.nullable inner) = (t', r) := by
  rcases hs : t.shape? inner with _ | s
  · simp only [TypeTable.nullable, shapeOrStop, hs] at hn
    cases hn
  · have hlt := lt_size_of_shape? hs
    cases s
    case nullable x =>
      simp only [TypeTable.nullable, shapeOrStop, hs] at hn
      cases hn
      exact .inl ⟨by simp [isNullable, hs, TypeShape.isNullable], rfl, rfl⟩
    all_goals
      simp only [TypeTable.nullable, shapeOrStop, hs] at hn
      exact .inr ⟨hlt, by simp [isNullable, hs, TypeShape.isNullable], Except.ok.inj hn⟩

theorem appendable_nullable (hfresh : ∀ ty, t.shape? ty ≠ some (.nullable inner))
    (hlt : inner.id < t.size) (hnn : t.isNullable inner = false) :
    t.Appendable (.nullable inner) where
  fresh _ := hfresh
  nullable_inner _ h := by
    cases h
    exact ⟨hlt, hnn⟩
  supers_lt _ h := by cases h
  isProgression_iff := by simp [TypeShape.isProgression, TypeShape.supers]

theorem WellFormed.nullable (h : t.WellFormed) (hn : t.nullable inner = .ok (t', r)) :
    t'.WellFormed := by
  rcases nullable_cases hn with ⟨-, rfl, -⟩ | ⟨hlt, hnn, hshare⟩
  · exact h
  · rcases share_cases t (.nullable inner) with ⟨heq, -⟩ | ⟨hfresh, heq⟩
    · have ht' : t' = t := by simpa [hshare] using heq
      rw [ht']
      exact h
    · rw [hshare] at heq
      cases heq
      exact h.push (appendable_nullable hfresh hlt hnn)

theorem anyProgression_eq_ok {p : Bool} (h : t.anyProgression supers = .ok p) :
    (∀ m ∈ supers, m.id < t.size) ∧ p = supers.any t.isProgression := by
  induction supers generalizing p with
  | nil =>
    cases h
    simp
  | cons m rest ih =>
    rcases hs : t.shape? m with _ | sm
    · simp only [anyProgression, shapeOrStop, hs] at h
      cases h
    · rcases hr : t.anyProgression rest with _ | q
      · simp only [anyProgression, shapeOrStop, hs, hr] at h
        cases h
      · simp only [anyProgression, shapeOrStop, hs, hr] at h
        cases h
        obtain ⟨hlt, rfl⟩ := ih hr
        refine ⟨?_, ?_⟩
        · simp only [List.mem_cons, forall_eq_or_imp]
          exact ⟨lt_size_of_shape? hs, hlt⟩
        · simp [isProgression_of_shape? hs]

/-- A declared class is appended with its supertypes and whether one of them is a progression
class; its handle is the next one. -/
theorem declareClass_eq_ok (h : t.declareClass name supers = .ok (t', r)) :
    (∀ m ∈ supers, m.id < t.size) ∧ r = ⟨t.size⟩ ∧
      t' = ⟨t.entries.push (.nominal name supers (supers.any t.isProgression))⟩ := by
  rcases hp : t.anyProgression supers with _ | p
  · simp only [declareClass, hp] at h
    cases h
  · simp only [declareClass, hp] at h
    cases h
    obtain ⟨hlt, rfl⟩ := anyProgression_eq_ok hp
    exact ⟨hlt, rfl, rfl⟩

theorem appendable_declared (hlt : ∀ m ∈ supers, m.id < t.size) :
    t.Appendable (.nominal name supers (supers.any t.isProgression)) where
  fresh hs := by cases hs
  nullable_inner _ h := by cases h
  supers_lt := hlt
  isProgression_iff := by
    simp [TypeShape.isProgression, TypeShape.supers]

theorem WellFormed.declareClass (h : t.WellFormed)
    (hd : t.declareClass name supers = .ok (t', r)) : t'.WellFormed := by
  obtain ⟨hlt, -, rfl⟩ := declareClass_eq_ok hd
  exact h.push (appendable_declared hlt)

end Operations

/-- Every table a program builds is well formed. -/
theorem Reachable.wellFormed {t : TypeTable} (h : t.Reachable) : t.WellFormed := by
  induction h with
  | builtin => exact builtin_wellFormed
  | nullable _ hn ih => exact ih.nullable hn
  | arrayOf elem _ ih => exact ih.arrayOf elem
  | declareClass _ hd ih => exact ih.declareClass hd

/-! ## Sharing, and what each operation returns -/

/-- An operation's answer: an entry the table had, with the table unchanged, or a new entry
at the next handle, past the builtins, with exactly one entry appended. -/
def Yields (t t' : TypeTable) (r : Ty) : Prop :=
  t' = t ∧ t.contains r = true ∨ Ty.builtinCount ≤ r.id ∧ r.id = t.size ∧ t'.size = t.size + 1

section Sharing

variable {t t' t₁ t₂ : TypeTable} {s : TypeShape} {ty inner r : Ty} {name : String}
  {supers : List Ty}

/-- In a well-formed table, looking a shared entry up finds it at its own handle. -/
theorem WellFormed.findIdx?_shared (h : t.WellFormed) (hty : t.shape? ty = some s)
    (hs : s.shared) : t.entries.findIdx? (· == s) = some ty.id := by
  have hlt := lt_size_of_shape? hty
  have hget : t.entries[ty.id] = s := by
    simpa [shape?, Array.getElem?_eq_getElem hlt] using hty
  refine Array.findIdx?_eq_some_iff_getElem.mpr ⟨hlt, by simp [hget], fun j hj heq => ?_⟩
  -- an earlier equal entry would be a second handle for the same shared entry
  have hj' : t.shape? ⟨j⟩ = some s := by
    simp only [shape?, Array.getElem?_eq_getElem (Nat.lt_trans hj hlt)]
    simpa using heq
  have := h.shared_unique _ _ s hj' hty hs
  rw [← this] at hj
  exact Nat.lt_irrefl _ hj

theorem WellFormed.share_of_shape? (h : t.WellFormed) (hty : t.shape? ty = some s)
    (hs : s.shared) : t.share s = (t, ty) := by
  simp [share, h.findIdx?_shared hty hs]

theorem yields_share (h : t.WellFormed) (s : TypeShape) : t.Yields (t.share s).1 (t.share s).2 := by
  rcases share_cases t s with ⟨heq, hty⟩ | ⟨-, heq⟩
  · exact .inl ⟨heq, by simpa [contains] using lt_size_of_shape? hty⟩
  · rw [heq]
    exact .inr ⟨h.builtinCount_le, rfl, size_push t s⟩

/-- After sharing an entry, the table holds it at the handle returned. -/
theorem shape?_share (t : TypeTable) (s : TypeShape) : (t.share s).1.shape? (t.share s).2 = some s := by
  rcases share_cases t s with ⟨heq, hty⟩ | ⟨-, heq⟩
  · rw [heq]
    exact hty
  · rw [heq]
    exact shape?_push_size t s

theorem nullable_of_isNullable (h : t.isNullable inner = true) :
    t.nullable inner = .ok (t, inner) := by
  obtain ⟨x, hx⟩ := shape?_of_isNullable h
  unfold TypeTable.nullable shapeOrStop
  rewrite [hx]
  rfl

theorem nullable_of_not_isNullable (hlt : inner.id < t.size) (hnn : t.isNullable inner = false) :
    t.nullable inner = .ok (t.share (.nullable inner)) := by
  obtain ⟨s, hs⟩ : ∃ s, t.shape? inner = some s := ⟨_, Array.getElem?_eq_getElem hlt⟩
  cases s
  case nullable x => simp [isNullable, hs, TypeShape.isNullable] at hnn
  all_goals
    unfold TypeTable.nullable shapeOrStop
    rewrite [hs]
    rfl

/-- The view of a type that is not a view is an entry holding that type. -/
theorem shape?_nullable (hn : t.nullable inner = .ok (t', r)) (hx : t.isNullable inner = false) :
    t'.shape? r = some (.nullable inner) := by
  rcases nullable_cases hn with ⟨hnn, -⟩ | ⟨-, -, hshare⟩
  · rw [hx] at hnn
    cases hnn
  · have := shape?_share t (.nullable inner)
    rwa [hshare] at this

theorem WellFormed.yields_nullable (h : t.WellFormed) (hn : t.nullable inner = .ok (t', r)) :
    t.Yields t' r := by
  rcases nullable_cases hn with ⟨hnn, rfl, rfl⟩ | ⟨hlt, -, hshare⟩
  · exact .inl ⟨rfl, by simpa [contains] using lt_size_of_isNullable hnn⟩
  · have := yields_share h (.nullable inner)
    rwa [hshare] at this

theorem yields_declareClass (h : t.WellFormed) (hd : t.declareClass name supers = .ok (t', r)) :
    Ty.builtinCount ≤ r.id ∧ r.id = t.size ∧ t'.size = t.size + 1 := by
  obtain ⟨-, rfl, rfl⟩ := declareClass_eq_ok hd
  exact ⟨h.builtinCount_le, rfl, size_push t _⟩

/-- Asking again for the nullable view of a type finds the same view and appends nothing;
so does asking for the view of the view. -/
theorem WellFormed.nullable_again (h : t.WellFormed) (hn : t.nullable inner = .ok (t', r)) :
    t'.nullable r = .ok (t', r) ∧ t'.nullable inner = .ok (t', r) := by
  have h' := h.nullable hn
  rcases nullable_cases hn with ⟨hnn, rfl, rfl⟩ | ⟨-, hnn, -⟩
  · exact ⟨nullable_of_isNullable hnn, nullable_of_isNullable hnn⟩
  · have hr := shape?_nullable hn hnn
    refine ⟨nullable_of_isNullable (isNullable_of_shape?_nullable hr), ?_⟩
    -- the view is held after `inner`, which is still not a view
    obtain ⟨hlt, hnn'⟩ := h'.nullable_inner r inner hr
    rw [nullable_of_not_isNullable (Nat.lt_trans hlt (lt_size_of_shape? hr)) hnn',
      h'.share_of_shape? hr rfl]

/-- `t'` holds every entry of `t`, at the same handle. -/
def Extends (t t' : TypeTable) : Prop := ∀ ty s, t.shape? ty = some s → t'.shape? ty = some s

theorem extends_push (t : TypeTable) (s : TypeShape) : t.Extends ⟨t.entries.push s⟩ := by
  intro ty s' hty
  rw [shape?_push_of_ne s (Nat.ne_of_lt (lt_size_of_shape? hty))]
  exact hty

theorem extends_share (t : TypeTable) (s : TypeShape) : t.Extends (t.share s).1 := by
  rcases share_cases t s with ⟨heq, -⟩ | ⟨-, heq⟩
  · rw [heq]
    exact fun _ _ => id
  · rw [heq]
    exact extends_push t s

theorem extends_nullable (hn : t.nullable inner = .ok (t', r)) : t.Extends t' := by
  rcases nullable_cases hn with ⟨-, rfl, -⟩ | ⟨-, -, hshare⟩
  · exact fun _ _ => id
  · have := extends_share t (.nullable inner)
    rwa [hshare] at this

theorem stripNullable_of_not_isNullable (h : t.isNullable ty = false) : t.stripNullable ty = ty := by
  rcases hs : t.shape? ty with _ | s
  · simp [stripNullable, hs]
  · cases s <;> simp_all [stripNullable, isNullable, TypeShape.isNullable]

theorem stripNullable_of_shape? (h : t.shape? ty = some (.nullable inner)) :
    t.stripNullable ty = inner := by
  simp [stripNullable, h]

/-- Stripping nullability twice strips no more than once: a view is never of a view. -/
theorem WellFormed.stripNullable_idem (h : t.WellFormed) (ty : Ty) :
    t.stripNullable (t.stripNullable ty) = t.stripNullable ty := by
  rcases hs : t.shape? ty with _ | s
  · simp [stripNullable, hs]
  · cases s
    case nullable i =>
      rw [stripNullable_of_shape? hs]
      exact stripNullable_of_not_isNullable (h.nullable_inner ty i hs).2
    all_goals simp [stripNullable, hs]

/-- Two nullable views asked for one after the other are the same view exactly when they are
views of the same type, for types that are not views. -/
theorem WellFormed.nullable_eq_iff {x₁ x₂ n₁ n₂ : Ty} (h : t.WellFormed)
    (h₁ : t.nullable x₁ = .ok (t₁, n₁)) (h₂ : t₁.nullable x₂ = .ok (t₂, n₂))
    (hx₁ : t.isNullable x₁ = false) (hx₂ : t₁.isNullable x₂ = false) :
    n₁ = n₂ ↔ x₁ = x₂ := by
  constructor
  · rintro rfl
    have hv₁ := extends_nullable h₂ _ _ (shape?_nullable h₁ hx₁)
    rw [shape?_nullable h₂ hx₂] at hv₁
    cases hv₁
    rfl
  · rintro rfl
    rw [(h.nullable_again h₁).2] at h₂
    cases h₂
    rfl

theorem WellFormed.arrayOf_again (h : t.WellFormed) (elem : Ty) :
    (t.arrayOf elem).1.arrayOf elem = t.arrayOf elem :=
  (h.arrayOf elem).share_of_shape? (shape?_share t _) rfl

/-- Two array instances asked for one after the other are the same instance exactly when
their element types are equal. -/
theorem WellFormed.arrayOf_eq_iff (h : t.WellFormed) (e₁ e₂ : Ty) :
    ((t.arrayOf e₁).1.arrayOf e₂).2 = (t.arrayOf e₁).2 ↔ e₁ = e₂ := by
  constructor
  · intro heq
    have hv₁ := extends_share _ (.arrayOf e₂) _ _ (shape?_share t (.arrayOf e₁))
    have hv₂ := shape?_share (t.arrayOf e₁).1 (.arrayOf e₂)
    simp only [TypeTable.arrayOf] at heq hv₁ hv₂
    rw [heq, hv₁] at hv₂
    cases hv₂
    rfl
  · rintro rfl
    rw [h.arrayOf_again]

end Sharing

/-! ## The representation of a table -/

/-- Every table a program builds is well formed: the builtins stay at their handles, each
shared entry is held once and sharing finds it at its own handle, nullable views are only of
earlier types that are not views, and declared supertypes come earlier. So the view of a view
is the view itself; two views, or two array instances, asked for one after the other are the
same exactly when what they are of is; asking again appends nothing; stripping nullability
twice strips it once; and each operation returns an entry the table had, leaving it
unchanged, or a new entry at the next handle, past the builtins. -/
theorem Reachable.representation {t : TypeTable} (h : t.Reachable) :
    t.WellFormed ∧
    (∀ ty s, t.shape? ty = some s → s.shared → t.entries.findIdx? (· == s) = some ty.id) ∧
    (∀ x t' n, t.nullable x = .ok (t', n) →
      t'.nullable n = .ok (t', n) ∧ t'.nullable x = .ok (t', n) ∧ t.Yields t' n) ∧
    (∀ x₁ x₂ t₁ t₂ n₁ n₂, t.nullable x₁ = .ok (t₁, n₁) → t₁.nullable x₂ = .ok (t₂, n₂) →
      t.isNullable x₁ = false → t₁.isNullable x₂ = false → (n₁ = n₂ ↔ x₁ = x₂)) ∧
    (∀ e, (t.arrayOf e).1.arrayOf e = t.arrayOf e ∧ t.Yields (t.arrayOf e).1 (t.arrayOf e).2) ∧
    (∀ e₁ e₂, ((t.arrayOf e₁).1.arrayOf e₂).2 = (t.arrayOf e₁).2 ↔ e₁ = e₂) ∧
    (∀ ty, t.stripNullable (t.stripNullable ty) = t.stripNullable ty) ∧
    (∀ name supers t' c, t.declareClass name supers = .ok (t', c) →
      Ty.builtinCount ≤ c.id ∧ c.id = t.size ∧ t'.size = t.size + 1) := by
  have hw := h.wellFormed
  refine ⟨hw, fun _ _ hty hs => hw.findIdx?_shared hty hs, fun x t' n hn => ?_,
    fun _ _ _ _ _ _ h₁ h₂ hx₁ hx₂ => hw.nullable_eq_iff h₁ h₂ hx₁ hx₂,
    fun e => ⟨hw.arrayOf_again e, yields_share hw _⟩, hw.arrayOf_eq_iff, hw.stripNullable_idem,
    fun _ _ _ _ hd => yields_declareClass hw hd⟩
  exact ⟨(hw.nullable_again hn).1, (hw.nullable_again hn).2, hw.yields_nullable hn⟩

/-- The builtin table with a class declared below the closed range of 32-bit integers. -/
def sampleClass : TypeTable :=
  ⟨builtin.entries.push (.nominal "Evens" [Ty.intRange] true)⟩

/-- The same with the nullable view of the declared class. -/
def sample : TypeTable := ⟨sampleClass.entries.push (.nullable ⟨25⟩)⟩

theorem sample_reachable : sample.Reachable := by
  have hd : builtin.declareClass "Evens" [Ty.intRange] = .ok (sampleClass, ⟨25⟩) := rfl
  -- sharing searches the entries, which evaluation does not open: the view is not there yet
  have hfresh : sampleClass.entries.findIdx? (· == .nullable ⟨25⟩) = none :=
    Array.findIdx?_eq_none_iff.mpr (by decide)
  have hn : sampleClass.nullable ⟨25⟩ = .ok (sample, ⟨26⟩) := by
    rw [nullable_of_not_isNullable (by decide) (by decide)]
    simp only [share, hfresh]
    rfl
  exact .nullable (.declareClass .builtin hd) hn

theorem sample_representation : sample.Reachable ∧
    (sample.WellFormed ∧
    (∀ ty s, sample.shape? ty = some s → s.shared →
      sample.entries.findIdx? (· == s) = some ty.id) ∧
    (∀ x t' n, sample.nullable x = .ok (t', n) →
      t'.nullable n = .ok (t', n) ∧ t'.nullable x = .ok (t', n) ∧ sample.Yields t' n) ∧
    (∀ x₁ x₂ t₁ t₂ n₁ n₂, sample.nullable x₁ = .ok (t₁, n₁) → t₁.nullable x₂ = .ok (t₂, n₂) →
      sample.isNullable x₁ = false → t₁.isNullable x₂ = false → (n₁ = n₂ ↔ x₁ = x₂)) ∧
    (∀ e, (sample.arrayOf e).1.arrayOf e = sample.arrayOf e ∧
      sample.Yields (sample.arrayOf e).1 (sample.arrayOf e).2) ∧
    (∀ e₁ e₂, ((sample.arrayOf e₁).1.arrayOf e₂).2 = (sample.arrayOf e₁).2 ↔ e₁ = e₂) ∧
    (∀ ty, sample.stripNullable (sample.stripNullable ty) = sample.stripNullable ty) ∧
    (∀ name supers t' c, sample.declareClass name supers = .ok (t', c) →
      Ty.builtinCount ≤ c.id ∧ c.id = sample.size ∧ t'.size = sample.size + 1)) :=
  ⟨sample_reachable, Reachable.representation sample_reachable⟩

end TypeTable

end ProgressionIdioms
