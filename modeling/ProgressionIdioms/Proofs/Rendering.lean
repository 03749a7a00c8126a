import ProgressionIdioms.Proofs.TableInvariant
import Mathlib.Data.Fin.Pigeonhole
/-!
# Rendering type names

A type's name is built from the name of at most one other handle, its *link*: the element of an
array instance, the inner type of a nullable view. Builtin handles, handles past the end,
primitives and classes are named without one. Following links from a handle gives a chain
(`follow`), and `render` names a handle exactly when that chain ends.

The depth bound of `render` is enough: a chain that ends does so within as many links as the
table has entries, since every handle with a link is an entry and a chain that passed one entry
twice would go round for ever (`render_eq_none_iff`). Up to that bound, `render` agrees with the
naming rules (`Names`).

Array instances are not checked, so the chain can go round: the array instance over the handle
it is about to receive is its own element. When every array is asked for over a type the table
already has, links only ever lead to earlier handles, and every handle has a name.
-/

namespace ProgressionIdioms

namespace TypeTable

variable {t t' : TypeTable} {ty u v : Ty} {s : String} {n k : Nat}

/-! ## Links and chains -/

/-- The handle whose name a handle's name is built from: the element of an array instance, the
inner type of a nullable view. -/
def link (t : TypeTable) (ty : Ty) : Option Ty :=
  match ty.builtinName? with
  | some _ => none
  | none =>
    match t.shape? ty with
    | some (.arrayOf e) => some e
    | some (.nullable i) => some i
    | _ => none

/-- The handle `k` links down a chain, if the chain has `k` links. -/
def follow (t : TypeTable) : Nat → Ty → Option Ty
  | 0, ty => some ty
  | k + 1, ty => (t.link ty).bind (t.follow k)

/-- The chain from `ty` ends after `k` links: it reaches a handle without a link. -/
def EndsAt (t : TypeTable) (ty : Ty) (k : Nat) : Prop :=
  ∃ u, t.follow k ty = some u ∧ t.link u = none

/-- Only array instances and nullable views past the builtin handles have a link. -/
theorem link_eq_some_iff : t.link ty = some u ↔ ty.builtinName? = none ∧
    (t.shape? ty = some (.arrayOf u) ∨ t.shape? ty = some (.nullable u)) := by
  rcases hb : ty.builtinName? with _ | b
  · rcases hs : t.shape? ty with _ | sh
    · simp [link, hb, hs]
    · cases sh <;> simp [link, hb, hs]
  · simp [link, hb]

theorem lt_size_of_link (h : t.link ty = some u) : ty.id < t.size := by
  obtain ⟨-, hs | hs⟩ := link_eq_some_iff.mp h <;> exact lt_size_of_shape? hs

theorem follow_add (i j : Nat) (ty : Ty) :
    t.follow (i + j) ty = (t.follow i ty).bind (t.follow j) := by
  induction i generalizing ty with
  | zero => simp [follow]
  | succ i ih =>
    rw [Nat.add_right_comm, follow, follow, Option.bind_assoc]
    simp only [ih]

theorem follow_succ (i : Nat) (ty : Ty) : t.follow (i + 1) ty = (t.follow i ty).bind t.link := by
  rw [follow_add]
  congr
  funext v
  simp [follow]

theorem isSome_follow_of_le {i j : Nat} (hij : i ≤ j) (h : (t.follow j ty).isSome) :
    (t.follow i ty).isSome := by
  obtain ⟨m, rfl⟩ := Nat.exists_eq_add_of_le hij
  rw [follow_add] at h
  rcases hi : t.follow i ty with _ | v
  · simp [hi] at h
  · rfl

/-- A chain continues past every handle but its last. -/
theorem link_of_isSome_follow_succ (h : (t.follow (k + 1) ty).isSome) :
    ∃ v w, t.follow k ty = some v ∧ t.link v = some w := by
  rw [follow_succ] at h
  rcases hk : t.follow k ty with _ | v
  · simp [hk] at h
  · rcases hl : t.link v with _ | w
    · simp [hk, hl] at h
    · exact ⟨v, w, rfl, hl⟩

theorem endsAt_zero : t.EndsAt ty 0 ↔ t.link ty = none := by
  simp [EndsAt, follow]

theorem endsAt_succ (h : t.link ty = some u) : t.EndsAt ty (k + 1) ↔ t.EndsAt u k := by
  simp [EndsAt, follow, h]

/-! ## Chains that go round -/

/-- A handle that comes back to itself after `n > 0` links starts a chain without end. -/
theorem isSome_follow_of_cycle (hn : 0 < n) (hu : t.follow n u = some u) (j : Nat) :
    (t.follow j u).isSome := by
  induction j using Nat.strong_induction_on with
  | _ j ih =>
    by_cases hj : j < n
    · exact isSome_follow_of_le hj.le (by simp [hu])
    · -- past one round the chain repeats itself
      obtain ⟨m, rfl⟩ := Nat.exists_eq_add_of_le (Nat.le_of_not_lt hj)
      rw [follow_add, hu, Option.bind_some]
      exact ih m (by omega)

/-- A chain that reaches a cycle never ends. -/
theorem not_endsAt_of_cycle (hk : t.follow k ty = some u) (hn : 0 < n)
    (hu : t.follow n u = some u) (m : Nat) : ¬ t.EndsAt ty m := by
  rintro ⟨x, hx, hlx⟩
  have hnext : (t.follow (m + 1) ty).isSome := by
    by_cases hm : m + 1 ≤ k
    · exact isSome_follow_of_le hm (by simp [hk])
    · obtain ⟨j, hj⟩ := Nat.exists_eq_add_of_le (Nat.le_of_not_le hm)
      rw [hj, follow_add, hk, Option.bind_some]
      exact isSome_follow_of_cycle hn hu j
  obtain ⟨v, w, hv, hw⟩ := link_of_isSome_follow_succ hnext
  rw [hx] at hv
  cases hv
  rw [hlx] at hw
  cases hw

/-- A chain of more links than the table has entries passes some handle twice, and from there
goes round. -/
theorem exists_cycle_of_long_chain
    (h : ∀ i ≤ t.size, ∃ v w, t.follow i ty = some v ∧ t.link v = some w) :
    ∃ k n u, 0 < n ∧ t.follow k ty = some u ∧ t.follow n u = some u := by
  choose v w hv hw using h
  -- every handle on the chain has a link, so it is an entry of the table
  let f : Fin (t.size + 1) → Fin t.size := fun i =>
    ⟨(v i (Nat.le_of_lt_succ i.2)).id, lt_size_of_link (hw i _)⟩
  have hnot : ¬ Function.Injective f := fun hf => by
    have := Fin.le_of_injective f hf
    omega
  obtain ⟨i, j, hij, hne⟩ := Function.not_injective_iff.mp hnot
  have hsame : ∀ {a b : Fin (t.size + 1)}, f a = f b → a < b →
      ∃ k n u, 0 < n ∧ t.follow k ty = some u ∧ t.follow n u = some u := by
    intro a b hab hlt
    have ha : (a : Nat) ≤ t.size := Nat.le_of_lt_succ a.2
    have hb : (b : Nat) ≤ t.size := Nat.le_of_lt_succ b.2
    have hvab : v a ha = v b hb := congrArg Ty.mk (Fin.mk.inj_iff.mp hab)
    obtain ⟨m, hm⟩ := Nat.exists_eq_add_of_lt (Fin.lt_def.mp hlt)
    refine ⟨a, m + 1, v a ha, Nat.succ_pos m, hv a ha, ?_⟩
    calc t.follow (m + 1) (v a ha) = t.follow (a + (m + 1)) ty := by
          rw [follow_add (a : Nat) (m + 1) ty, hv a ha, Option.bind_some]
      _ = t.follow b ty := by rw [hm, Nat.add_assoc]
      _ = some (v a ha) := by rw [hv b hb, hvab]
  rcases Fin.lt_or_lt_of_ne hne with hlt | hlt
  · exact hsame hij hlt
  · exact hsame hij.symm hlt

/-! ## The depth bound -/

/-- A handle without a link is named at once, whatever the depth bound. -/
theorem renderWithin_of_link_none (h : t.link ty = none) (n : Nat) :
    t.renderWithin (n + 1) ty = t.renderWithin 1 ty ∧ (t.renderWithin (n + 1) ty).isSome := by
  rcases hb : ty.builtinName? with _ | b
  · rcases hs : t.shape? ty with _ | sh
    · simp [renderWithin, hb, hs]
    · cases sh with
      | arrayOf e => simp [link, hb, hs] at h
      | nullable i => simp [link, hb, hs] at h
      | primitive => simp [renderWithin, hb, hs]
      | nominal => simp [renderWithin, hb, hs]
  · simp [renderWithin, hb]

/-- A handle with a link is named by wrapping the name of its link, one level deeper. -/
theorem renderWithin_of_link_some (h : t.link ty = some u) :
    ∃ wrap : String → String, ∀ n, t.renderWithin (n + 1) ty = (t.renderWithin n u).map wrap := by
  obtain ⟨hb, hs | hs⟩ := link_eq_some_iff.mp h
  · exact ⟨fun s => "Array<" ++ s ++ ">", fun n => by simp [renderWithin, hb, hs]⟩
  · exact ⟨fun s => s ++ "?", fun n => by simp [renderWithin, hb, hs]⟩

/-- Within `n + 1` levels, a handle is named exactly when its chain ends within `n` links. -/
theorem isSome_renderWithin_iff : (t.renderWithin (n + 1) ty).isSome ↔ ∃ k ≤ n, t.EndsAt ty k := by
  induction n generalizing ty with
  | zero =>
    rcases hl : t.link ty with _ | u
    · exact iff_of_true (renderWithin_of_link_none hl 0).2 ⟨0, le_rfl, endsAt_zero.mpr hl⟩
    · obtain ⟨wrap, hw⟩ := renderWithin_of_link_some hl
      rw [hw]
      refine iff_of_false (by simp [renderWithin]) ?_
      rintro ⟨k, hk, hend⟩
      obtain rfl : k = 0 := Nat.le_zero.mp hk
      simp [endsAt_zero.mp hend] at hl
  | succ n ih =>
    rcases hl : t.link ty with _ | u
    · exact iff_of_true (renderWithin_of_link_none hl _).2 ⟨0, Nat.zero_le _, endsAt_zero.mpr hl⟩
    · obtain ⟨wrap, hw⟩ := renderWithin_of_link_some hl
      rw [hw, Option.isSome_map, ih]
      constructor
      · rintro ⟨k, hk, hend⟩
        exact ⟨k + 1, by omega, (endsAt_succ hl).mpr hend⟩
      · rintro ⟨_ | k, hk, hend⟩
        · simp [endsAt_zero.mp hend] at hl
        · exact ⟨k, by omega, (endsAt_succ hl).mp hend⟩

/-- A deeper bound keeps every name found. -/
theorem renderWithin_succ_of_eq_some (h : t.renderWithin n ty = some s) :
    t.renderWithin (n + 1) ty = some s := by
  induction n generalizing ty s with
  | zero => cases h
  | succ n ih =>
    rcases hl : t.link ty with _ | u
    · rw [(renderWithin_of_link_none hl _).1, ← (renderWithin_of_link_none hl n).1]
      exact h
    · obtain ⟨wrap, hw⟩ := renderWithin_of_link_some hl
      rw [hw] at h ⊢
      obtain ⟨s', hs', rfl⟩ := Option.map_eq_some_iff.mp h
      rw [ih hs', Option.map_some]

theorem renderWithin_of_le {m : Nat} (hnm : n ≤ m) (h : t.renderWithin n ty = some s) :
    t.renderWithin m ty = some s := by
  induction m, hnm using Nat.le_induction with
  | base => exact h
  | succ m _ ih => exact renderWithin_succ_of_eq_some ih

/-- Any two bounds that both name a handle give it the same name. -/
theorem renderWithin_agree {m : Nat} {s' : String} (h : t.renderWithin n ty = some s)
    (h' : t.renderWithin m ty = some s') : s = s' := by
  rcases Nat.le_total n m with hnm | hmn
  · rw [renderWithin_of_le hnm h] at h'
    exact Option.some.inj h'
  · rw [renderWithin_of_le hmn h'] at h
    exact (Option.some.inj h).symm

/-- Rendering gives up exactly when the chain from the handle reaches a cycle. -/
theorem render_eq_none_iff :
    t.render ty = none ↔ ∃ k n u, 0 < n ∧ t.follow k ty = some u ∧ t.follow n u = some u := by
  rw [render, ← Option.not_isSome_iff_eq_none, isSome_renderWithin_iff]
  constructor
  · intro hnot
    apply exists_cycle_of_long_chain
    -- no end within the bound: every handle up to it has a link
    intro i hi
    induction i with
    | zero =>
      rcases hl : t.link ty with _ | w
      · exact absurd ⟨0, Nat.zero_le _, endsAt_zero.mpr hl⟩ hnot
      · exact ⟨ty, w, rfl, hl⟩
    | succ i ih =>
      obtain ⟨v, w, hv, hw⟩ := ih (by omega)
      have hnext : t.follow (i + 1) ty = some w := by rw [follow_succ, hv, Option.bind_some, hw]
      rcases hl : t.link w with _ | x
      · exact absurd ⟨i + 1, hi, w, hnext, hl⟩ hnot
      · exact ⟨w, x, hnext, hl⟩
  · rintro ⟨k, n, u, hn, hk, hu⟩ ⟨m, -, hend⟩
    exact not_endsAt_of_cycle hk hn hu m hend

/-! ## The naming rules -/

/-- `t.Names ty s`: by the naming rules, `s` is the name of handle `ty`. A builtin handle has
its builtin name; a handle past the end, or a primitive, the handle's text; an array instance
`Array<e>` around the name of its element; a nullable view the name of its inner type followed
by `?`; a class its declared name. -/
inductive Names (t : TypeTable) : Ty → String → Prop
  | builtin {ty : Ty} {n : String} : ty.builtinName? = some n → Names t ty n
  | absent {ty : Ty} : ty.builtinName? = none → t.shape? ty = none → Names t ty ty.handleText
  | primitive {ty : Ty} : ty.builtinName? = none → t.shape? ty = some .primitive →
      Names t ty ty.handleText
  | arrayOf {ty e : Ty} {s : String} : ty.builtinName? = none → t.shape? ty = some (.arrayOf e) →
      Names t e s → Names t ty ("Array<" ++ s ++ ">")
  | nullable {ty i : Ty} {s : String} : ty.builtinName? = none →
      t.shape? ty = some (.nullable i) → Names t i s → Names t ty (s ++ "?")
  | nominal {ty : Ty} {n : String} {supers : List Ty} {p : Bool} :
      ty.builtinName? = none → t.shape? ty = some (.nominal n supers p) → Names t ty n

theorem names_of_renderWithin (h : t.renderWithin n ty = some s) : t.Names ty s := by
  induction n generalizing ty s with
  | zero => cases h
  | succ n ih =>
    rcases hb : ty.builtinName? with _ | b
    · rcases hs : t.shape? ty with _ | sh
      · simp only [renderWithin, hb, hs, Option.some.injEq] at h
        subst h
        exact .absent hb hs
      · cases sh with
        | primitive =>
          simp only [renderWithin, hb, hs, Option.some.injEq] at h
          subst h
          exact .primitive hb hs
        | nominal =>
          simp only [renderWithin, hb, hs, Option.some.injEq] at h
          subst h
          exact .nominal hb hs
        | arrayOf e =>
          simp only [renderWithin, hb, hs, Option.map_eq_some_iff] at h
          obtain ⟨s', hs', rfl⟩ := h
          exact .arrayOf hb hs (ih hs')
        | nullable i =>
          simp only [renderWithin, hb, hs, Option.map_eq_some_iff] at h
          obtain ⟨s', hs', rfl⟩ := h
          exact .nullable hb hs (ih hs')
    · simp only [renderWithin, hb, Option.some.injEq] at h
      subst h
      exact .builtin hb

theorem exists_renderWithin_of_names (h : t.Names ty s) : ∃ n, t.renderWithin n ty = some s := by
  induction h with
  | builtin hb => exact ⟨1, by simp [renderWithin, hb]⟩
  | absent hb hs => exact ⟨1, by simp [renderWithin, hb, hs]⟩
  | primitive hb hs => exact ⟨1, by simp [renderWithin, hb, hs]⟩
  | arrayOf hb hs _ ih =>
    obtain ⟨n, hn⟩ := ih
    exact ⟨n + 1, by simp [renderWithin, hb, hs, hn]⟩
  | nullable hb hs _ ih =>
    obtain ⟨n, hn⟩ := ih
    exact ⟨n + 1, by simp [renderWithin, hb, hs, hn]⟩
  | nominal hb hs => exact ⟨1, by simp [renderWithin, hb, hs]⟩

/-- `render` gives exactly the names of the naming rules: its depth bound cuts no name off. -/
theorem render_eq_some_iff : t.render ty = some s ↔ t.Names ty s := by
  refine ⟨names_of_renderWithin, fun h => ?_⟩
  obtain ⟨n, hn⟩ := exists_renderWithin_of_names h
  rcases hr : t.render ty with _ | s'
  · -- a chain that reaches a cycle has no name at any depth
    obtain ⟨k, m, u, hm, hk, hu⟩ := render_eq_none_iff.mp hr
    cases n with
    | zero => cases hn
    | succ n =>
      obtain ⟨j, -, hend⟩ := isSome_renderWithin_iff.mp (by simp [hn] : (t.renderWithin (n + 1) ty).isSome)
      exact absurd hend (not_endsAt_of_cycle hk hm hu j)
  · rw [renderWithin_agree hn hr]

/-! ## Tables whose arrays are over earlier types -/

/-- Every array instance of the table is over an earlier handle. -/
def ArraysEarlier (t : TypeTable) : Prop :=
  ∀ ty e, t.shape? ty = some (.arrayOf e) → e.id < ty.id

/-- The tables a program builds when it asks for array instances only over types the table
has, as the other operations require of their arguments. -/
inductive CheckedReachable : TypeTable → Prop
  | builtin : CheckedReachable builtin
  | nullable {t t' : TypeTable} {inner r : Ty} :
      CheckedReachable t → t.nullable inner = .ok (t', r) → CheckedReachable t'
  | arrayOf {t : TypeTable} (elem : Ty) :
      CheckedReachable t → elem.id < t.size → CheckedReachable (t.arrayOf elem).1
  | declareClass {t t' : TypeTable} {name : String} {supers : List Ty} {r : Ty} :
      CheckedReachable t → t.declareClass name supers = .ok (t', r) → CheckedReachable t'

theorem CheckedReachable.reachable (h : t.CheckedReachable) : t.Reachable := by
  induction h with
  | builtin => exact .builtin
  | nullable _ hn ih => exact .nullable ih hn
  | arrayOf elem _ _ ih => exact .arrayOf elem ih
  | declareClass _ hd ih => exact .declareClass ih hd

theorem arraysEarlier_builtin : builtin.ArraysEarlier := by
  intro ty e h
  cases builtin_not_shared h

theorem ArraysEarlier.push {sh : TypeShape} (h : t.ArraysEarlier)
    (hs : ∀ e, sh = .arrayOf e → e.id < t.size) : (⟨t.entries.push sh⟩ : TypeTable).ArraysEarlier := by
  intro ty e he
  rw [shape?_push] at he
  split at he
  · rename_i hty
    rw [hty]
    exact hs e (Option.some.inj he)
  · exact h ty e he

theorem ArraysEarlier.share {sh : TypeShape} (h : t.ArraysEarlier)
    (hs : ∀ e, sh = .arrayOf e → e.id < t.size) : (t.share sh).1.ArraysEarlier := by
  rcases share_cases t sh with ⟨heq, -⟩ | ⟨-, heq⟩
  · rw [heq]
    exact h
  · rw [heq]
    exact h.push hs

/-- Each operation keeps arrays over earlier handles; only an array instance over a handle past
the end could break it. -/
theorem CheckedReachable.arraysEarlier (h : t.CheckedReachable) : t.ArraysEarlier := by
  induction h with
  | builtin => exact arraysEarlier_builtin
  | @nullable t₀ t₁ inner r _ hn ih =>
    rcases nullable_cases hn with ⟨-, rfl, -⟩ | ⟨-, -, hshare⟩
    · exact ih
    · have h' : (t₀.share (.nullable inner)).1.ArraysEarlier := ih.share fun _ he => by cases he
      rw [hshare] at h'
      exact h'
  | arrayOf elem _ hlt ih =>
    exact ih.share fun e he => by
      cases he
      exact hlt
  | declareClass _ hd ih =>
    obtain ⟨-, -, rfl⟩ := declareClass_eq_ok hd
    exact ih.push fun _ he => by cases he

/-- In such a table every link leads to an earlier handle: arrays by construction, nullable
views by the table invariant. -/
theorem CheckedReachable.link_lt (h : t.CheckedReachable) (hl : t.link ty = some u) :
    u.id < ty.id := by
  obtain ⟨-, hs | hs⟩ := link_eq_some_iff.mp hl
  · exact h.arraysEarlier ty u hs
  · exact (h.reachable.wellFormed.nullable_inner ty u hs).1

theorem CheckedReachable.follow_lt (h : t.CheckedReachable) :
    ∀ n {u v : Ty}, t.follow (n + 1) u = some v → v.id < u.id
  | 0, u, v, hv => by
    rw [follow_succ] at hv
    exact h.link_lt hv
  | n + 1, u, v, hv => by
    rw [follow_succ] at hv
    rcases hw : t.follow (n + 1) u with _ | w
    · simp [hw] at hv
    · rw [hw, Option.bind_some] at hv
      exact (h.link_lt hv).trans (h.follow_lt n hw)

/-- Rendering a type's name, on every table and every handle: the name it gives is the one the
naming rules give; it gives none exactly when following array elements and nullable inner types
from the handle reaches a cycle; and on every table built with array instances only over types
the table has, every handle gets a name. -/
theorem render_ends_unless_links_cycle (t : TypeTable) :
    (∀ ty s, t.render ty = some s ↔ t.Names ty s) ∧
    (∀ ty, t.render ty = none ↔
      ∃ k n u, 0 < n ∧ t.follow k ty = some u ∧ t.follow n u = some u) ∧
    (t.CheckedReachable → ∀ ty, ∃ s, t.render ty = some s) := by
  refine ⟨fun _ _ => render_eq_some_iff, fun _ => render_eq_none_iff, fun h ty => ?_⟩
  rcases hr : t.render ty with _ | s
  · -- a cycle would lead from a handle to an earlier one and back
    obtain ⟨k, n, u, hn, -, hu⟩ := render_eq_none_iff.mp hr
    obtain ⟨m, rfl⟩ := Nat.exists_eq_add_of_lt hn
    have := h.follow_lt m (by simpa using hu)
    omega
  · exact ⟨s, rfl⟩

/-- The table with the array instance of integers. -/
def intArrayTable : TypeTable := (builtin.arrayOf Ty.int).1

theorem intArrayTable_renders :
    intArrayTable.CheckedReachable ∧ ∃ s, intArrayTable.render ⟨25⟩ = some s :=
  have hc : intArrayTable.CheckedReachable := .arrayOf Ty.int .builtin (by decide)
  ⟨hc, (render_ends_unless_links_cycle intArrayTable).2.2 hc ⟨25⟩⟩

/-- The array instance over the handle it receives is its own element. -/
def selfArrayTable : TypeTable := (builtin.arrayOf ⟨25⟩).1

/-- A table a program can build where rendering never ends: the array instance asked for over
handle 25, the handle it then receives. -/
theorem selfArray_render_endless :
    selfArrayTable.Reachable ∧ selfArrayTable.follow 1 ⟨25⟩ = some ⟨25⟩ ∧
      selfArrayTable.render ⟨25⟩ = none := by
  -- sharing searches the entries, which evaluation does not open: the instance is not there yet
  have hfresh : builtin.entries.findIdx? (· == .arrayOf ⟨25⟩) = none :=
    Array.findIdx?_eq_none_iff.mpr (by decide)
  have htable : selfArrayTable = ⟨builtin.entries.push (.arrayOf ⟨25⟩)⟩ := by
    unfold selfArrayTable TypeTable.arrayOf share
    rewrite [hfresh]
    rfl
  refine ⟨.arrayOf _ .builtin, ?_, ?_⟩
  · rw [htable]
    rfl
  · rw [htable]
    rfl

end TypeTable

end ProgressionIdioms
