import ProgressionIdioms.Proofs.SubtypeOrder
import ProgressionIdioms.Recognize.Idiom
import Mathlib.Data.List.Forall2
/-!
# The class of a type

`classifier` names the class a type is an instance of: a primitive or a class is its own, an
array instance has the generic array class, and a nullable view has the class of the type it is
a view of. On the tables a program builds (`Reachable.classifier_laws`) it answers exactly for
the handles of the table; the answer is a primitive or a class, which is its own class, and the
type with its view stripped is a subtype of it. Asking for a nullable view or an array instance
never changes a class: the view has the class of its type, and an array instance the generic
array class.

Class sets, and with them every requirement and every idiom's pattern, see a type only through
its class. So none of them can tell a type from its nullable view: replacing receiver or
parameter types of a signature by types of the same class changes no answer
(`Requirement.holds_related`).
-/

namespace ProgressionIdioms

/-- Whether an entry is its own class: a primitive or a nominal class. -/
def TypeShape.isClass : TypeShape → Bool
  | .primitive | .nominal _ _ _ => true
  | _ => false

namespace TypeTable

section Classifier

variable {t t' : TypeTable} {ty x c e : Ty} {s : TypeShape}

theorem plainClassifier_of_isClass (hs : t.shape? ty = some s) (hc : s.isClass = true) :
    t.plainClassifier ty = some ty := by
  cases s <;> simp_all [plainClassifier, TypeShape.isClass]

theorem classifier_of_not_isNullable (hs : t.shape? ty = some s) (hn : s.isNullable = false) :
    t.classifier ty = t.plainClassifier ty := by
  cases s <;> simp_all [classifier, TypeShape.isNullable]

theorem classifier_of_shape?_nullable (hs : t.shape? ty = some (.nullable x)) :
    t.classifier ty = t.plainClassifier x := by
  simp [classifier, hs]

theorem classifier_of_size_le (h : t.size ≤ ty.id) : t.classifier ty = none := by
  simp [classifier, plainClassifier, shape?_of_size_le h]

/-- A primitive or a class is its own class. -/
theorem classifier_of_isClass (hs : t.shape? ty = some s) (hc : s.isClass = true) :
    t.classifier ty = some ty := by
  have hn : s.isNullable = false := by cases s <;> simp_all [TypeShape.isClass, TypeShape.isNullable]
  rw [classifier_of_not_isNullable hs hn, plainClassifier_of_isClass hs hc]

/-- Every array instance has the generic array class, whatever its element. -/
theorem classifier_arrayOf (t : TypeTable) (e : Ty) :
    (t.arrayOf e).1.classifier (t.arrayOf e).2 = some Ty.array := by
  have hs := shape?_share t (.arrayOf e)
  unfold TypeTable.arrayOf
  rw [classifier_of_not_isNullable hs rfl]
  simp [plainClassifier, hs]

theorem WellFormed.isClass_array (h : t.WellFormed) :
    ∃ s, t.shape? Ty.array = some s ∧ s.isClass = true :=
  ⟨_, h.shape?_array, rfl⟩

/-- The class of a type that is no nullable view: a primitive or a class in the table, above
the type. -/
theorem WellFormed.plainClassifier_spec (h : t.WellFormed) (hs : t.shape? x = some s)
    (hn : s.isNullable = false) :
    ∃ c, t.plainClassifier x = some c ∧ (∃ u, t.shape? c = some u ∧ u.isClass = true) ∧
      t.isSubtype x c = true := by
  cases s with
  | primitive => exact ⟨x, by simp [plainClassifier, hs], ⟨_, hs, rfl⟩, isSubtype_refl t x⟩
  | nominal n sp p => exact ⟨x, by simp [plainClassifier, hs], ⟨_, hs, rfl⟩, isSubtype_refl t x⟩
  | arrayOf e =>
    refine ⟨Ty.array, by simp [plainClassifier, hs], h.isClass_array, ?_⟩
    -- an array instance is below the generic array class in the plain rule
    have hx : t.isArray x = true := by simp [isArray, hs]
    have hnx : t.isNullable x = false := by simp [isNullable, hs, TypeShape.isNullable]
    have hna : t.isNullable Ty.array = false := by
      simp [isNullable, h.shape?_array, TypeShape.isNullable]
    refine h.isSubtype_iff.mpr (.inr ⟨?_, ?_, by simp [hnx], ?_⟩)
    · simp [contains_eq_isSome, hs]
    · simp [contains_eq_isSome, h.shape?_array]
    · rw [stripNullable_of_not_isNullable hnx, stripNullable_of_not_isNullable hna]
      exact .inr (.inl ⟨hx, rfl⟩)
  | nullable i => cases hn

/-- On a well-formed table every handle of the table has a class: a primitive or a class that
is its own class, above the type with its view stripped. -/
theorem WellFormed.classifier_spec (h : t.WellFormed) (hlt : ty.id < t.size) :
    ∃ c, t.classifier ty = some c ∧ (∃ u, t.shape? c = some u ∧ u.isClass = true) ∧
      t.classifier c = some c ∧ t.isSubtype (t.stripNullable ty) c = true := by
  obtain ⟨s, hs⟩ : ∃ s, t.shape? ty = some s := ⟨_, Array.getElem?_eq_getElem hlt⟩
  -- a view is of a type of the table that is no view; that type decides
  obtain ⟨x, sx, hx, hnx, hcl, hstrip⟩ : ∃ x sx, t.shape? x = some sx ∧ sx.isNullable = false ∧
      t.classifier ty = t.plainClassifier x ∧ t.stripNullable ty = x := by
    cases hn : s.isNullable
    · exact ⟨ty, s, hs, hn, classifier_of_not_isNullable hs hn,
        stripNullable_of_not_isNullable (by simp [isNullable, hs, hn])⟩
    · cases s <;> simp only [TypeShape.isNullable, Bool.false_eq_true] at hn
      case nullable i =>
        obtain ⟨hi, hin⟩ := h.nullable_inner ty i hs
        obtain ⟨si, hsi⟩ : ∃ si, t.shape? i = some si :=
          ⟨_, Array.getElem?_eq_getElem (Nat.lt_trans hi hlt)⟩
        exact ⟨i, si, hsi, by rwa [isNullable_of_shape? hsi] at hin,
          classifier_of_shape?_nullable hs, stripNullable_of_shape? hs⟩
  obtain ⟨c, hc, ⟨u, hu, huc⟩, hsub⟩ := h.plainClassifier_spec hx hnx
  exact ⟨c, hcl.trans hc, ⟨u, hu, huc⟩, classifier_of_isClass hu huc, hstrip ▸ hsub⟩

/-- On a well-formed table the class is defined exactly on the handles of the table. -/
theorem WellFormed.classifier_eq_none_iff (h : t.WellFormed) :
    t.classifier ty = none ↔ t.size ≤ ty.id := by
  refine ⟨fun hnone => Nat.le_of_not_lt fun hlt => ?_, classifier_of_size_le⟩
  obtain ⟨c, hc, -⟩ := h.classifier_spec hlt
  rw [hnone] at hc
  cases hc

/-- A table that keeps the entries of a well-formed one gives their handles the same class. -/
theorem WellFormed.classifier_of_extends (h : t.WellFormed) (he : t.Extends t')
    (hlt : ty.id < t.size) : t'.classifier ty = t.classifier ty := by
  obtain ⟨s, hs⟩ : ∃ s, t.shape? ty = some s := ⟨_, Array.getElem?_eq_getElem hlt⟩
  have hplain : ∀ y, y.id < t.size → t'.plainClassifier y = t.plainClassifier y := by
    intro y hy
    obtain ⟨sy, hsy⟩ : ∃ sy, t.shape? y = some sy := ⟨_, Array.getElem?_eq_getElem hy⟩
    simp [plainClassifier, hsy, he y sy hsy]
  cases hn : s.isNullable
  · rw [classifier_of_not_isNullable hs hn, classifier_of_not_isNullable (he ty s hs) hn]
    exact hplain ty hlt
  · cases s <;> simp only [TypeShape.isNullable, Bool.false_eq_true] at hn
    case nullable i =>
      rw [classifier_of_shape?_nullable hs, classifier_of_shape?_nullable (he ty _ hs)]
      exact hplain i (Nat.lt_trans (h.nullable_inner ty i hs).1 hlt)

/-- The nullable view of a type has the class of the type, in the table before and after. -/
theorem WellFormed.classifier_nullable {n : Ty} (h : t.WellFormed)
    (hn : t.nullable ty = .ok (t', n)) :
    t'.classifier n = t.classifier ty ∧ t'.classifier ty = t.classifier ty := by
  rcases nullable_cases hn with ⟨-, rfl, rfl⟩ | ⟨hlt, hnn, -⟩
  · exact ⟨rfl, rfl⟩
  have hkeep := h.classifier_of_extends (extends_nullable hn) hlt
  refine ⟨?_, hkeep⟩
  obtain ⟨s, hs⟩ : ∃ s, t.shape? ty = some s := ⟨_, Array.getElem?_eq_getElem hlt⟩
  rw [classifier_of_shape?_nullable (shape?_nullable hn hnn),
    classifier_of_not_isNullable hs (by rwa [isNullable_of_shape? hs] at hnn)]
  simp [plainClassifier, hs, extends_nullable hn ty s hs]

end Classifier

end TypeTable

/-! ## What requirements see of a type -/

/-- `sig'` is `sig` with receiver and parameter types replaced where `R` allows: the same name,
as many parameters, and the receivers and parameters pairwise related. The return type, which
no requirement reads, may be anything. -/
structure Signature.Related (R : Ty → Ty → Prop) (sig sig' : Signature) : Prop where
  /-- The name is kept. -/
  name : sig'.name = sig.name
  /-- The parameters are pairwise related. -/
  params : List.Forall₂ R sig.params sig'.params
  /-- The dispatch receivers are both absent or related. -/
  dispatch : Option.Rel R sig.dispatch sig'.dispatch
  /-- The extension receivers are both absent or related. -/
  extension : Option.Rel R sig.extension sig'.extension

section Related

variable {t : TypeTable} {R : Ty → Ty → Prop} {sig sig' : Signature}

theorem rel_getElem?_of_forall₂ {l l' : List Ty} (h : List.Forall₂ R l l') (i : Nat) :
    Option.Rel R l[i]? l'[i]? := by
  induction h generalizing i with
  | nil => exact .none
  | cons hab _ ih =>
    cases i with
    | zero => exact .some hab
    | succ i => exact ih i

/-- A class set sees an optional type only through its class. -/
theorem ClassSet.admitsSome_of_rel (hR : ∀ a b, R a b → t.classifier a = t.classifier b)
    (c : ClassSet) {o o' : Option Ty} (h : Option.Rel R o o') :
    c.admitsSome t o' = c.admitsSome t o := by
  cases h with
  | none => rfl
  | some hab => simp [ClassSet.admitsSome, ClassSet.admits, hR _ _ hab]

/-- Replacing types by types of the same class changes no requirement's answer. -/
theorem Requirement.holds_related (hR : ∀ a b, R a b → t.classifier a = t.classifier b)
    (hs : Signature.Related R sig sig') (r : Requirement) :
    r.holds t sig' = r.holds t sig := by
  cases r with
  | name test => simp [Requirement.holds, hs.name]
  | paramCount n => simp [Requirement.holds, hs.params.length_eq]
  | param i c =>
    exact ClassSet.admitsSome_of_rel hR c (rel_getElem?_of_forall₂ hs.params i)
  | dispatch c => exact ClassSet.admitsSome_of_rel hR c hs.dispatch
  | extension c => exact ClassSet.admitsSome_of_rel hR c hs.extension

theorem Pattern.accepts_related (hR : ∀ a b, R a b → t.classifier a = t.classifier b)
    (hs : Signature.Related R sig sig') (p : Pattern) :
    p.accepts t sig' = p.accepts t sig := by
  have hreq : Requirement.holds t sig' = Requirement.holds t sig :=
    funext (Requirement.holds_related hR hs)
  simp only [Pattern.accepts, hreq]

end Related

namespace TypeTable

/-- On every table a program builds: a handle has a class exactly when it names an entry; that
class is a primitive or a class of the table, is its own class, and is above the type with its
nullable view stripped. Every array instance has the generic array class. The nullable view of
a type has the type's class, which asking for the view does not change. So a class set admits a
type exactly when it admits the type's nullable view, and replacing receiver or parameter types
of a signature by their nullable views changes the answer of no requirement and of no idiom's
pattern, whatever the configuration. -/
theorem Reachable.classifier_laws {t : TypeTable} (h : t.Reachable) :
    (∀ ty, t.classifier ty = none ↔ t.size ≤ ty.id) ∧
    (∀ ty, ty.id < t.size → ∃ c, t.classifier ty = some c ∧
      (∃ u, t.shape? c = some u ∧ u.isClass = true) ∧ t.classifier c = some c ∧
      t.isSubtype (t.stripNullable ty) c = true) ∧
    (∀ e, (t.arrayOf e).1.classifier (t.arrayOf e).2 = some Ty.array) ∧
    (∀ ty t' n, t.nullable ty = .ok (t', n) →
      t'.classifier n = t.classifier ty ∧ t'.classifier ty = t.classifier ty ∧
      (∀ S : ClassSet, S.admits t' n = S.admits t' ty) ∧
      ∀ sig sig', Signature.Related (fun a b => b = a ∨ a = ty ∧ b = n) sig sig' →
        (∀ r : Requirement, r.holds t' sig' = r.holds t' sig) ∧
        ∀ (cfg : Config) (i : Idiom), i.accepts cfg t' sig' = i.accepts cfg t' sig) := by
  have hw := h.wellFormed
  refine ⟨fun _ => hw.classifier_eq_none_iff, fun _ => hw.classifier_spec, classifier_arrayOf t,
    fun ty t' n hn => ?_⟩
  obtain ⟨hview, hkeep⟩ := hw.classifier_nullable hn
  -- the view and its type have one class in the table after the call
  have hsame : ∀ a b, (b = a ∨ a = ty ∧ b = n) → t'.classifier a = t'.classifier b := by
    rintro a b (rfl | ⟨rfl, rfl⟩)
    · rfl
    · rw [hview, hkeep]
  refine ⟨hview, hkeep, fun S => ?_, fun sig sig' hs =>
    ⟨Requirement.holds_related hsame hs, fun cfg i => Pattern.accepts_related hsame hs _⟩⟩
  simp [ClassSet.admits, hview, hkeep]

theorem sample_classifier_laws : sample.Reachable ∧
    ((∀ ty, sample.classifier ty = none ↔ sample.size ≤ ty.id) ∧
    (∀ ty, ty.id < sample.size → ∃ c, sample.classifier ty = some c ∧
      (∃ u, sample.shape? c = some u ∧ u.isClass = true) ∧ sample.classifier c = some c ∧
      sample.isSubtype (sample.stripNullable ty) c = true) ∧
    (∀ e, (sample.arrayOf e).1.classifier (sample.arrayOf e).2 = some Ty.array) ∧
    (∀ ty t' n, sample.nullable ty = .ok (t', n) →
      t'.classifier n = sample.classifier ty ∧ t'.classifier ty = sample.classifier ty ∧
      (∀ S : ClassSet, S.admits t' n = S.admits t' ty) ∧
      ∀ sig sig', Signature.Related (fun a b => b = a ∨ a = ty ∧ b = n) sig sig' →
        (∀ r : Requirement, r.holds t' sig' = r.holds t' sig) ∧
        ∀ (cfg : Config) (i : Idiom), i.accepts cfg t' sig' = i.accepts cfg t' sig)) :=
  ⟨sample_reachable, Reachable.classifier_laws sample_reachable⟩

end TypeTable

end ProgressionIdioms
