import ProgressionIdioms.Proofs.ArenaStore
import ProgressionIdioms.Proofs.Frame
/-!
# Computations run on the arena

A computation runs on an arena through the arena's view, and the nodes it appended are then
laid out one after another (`StoreM.runArena`). Laying one node out changes the view as
appending the node changes a node store (`NodeArena.view_layOut`), so laying out every node a
run appended gives an arena whose view is the store the run left (`NodeArena.view_layOutAll`).
A computation that only appends therefore answers on the arena as on its view while the
counts fit, with the lists in ranges of the flat array; the first node that does not fit
stops it with the overflow of that node, keeping the nodes before it
(`StoreM.runArena_of_appends`). Whatever a run answers, the ranges of the arena it leaves lie
inside its flat array (`StoreM.rangesInside_runArena`).
-/

namespace ProgressionIdioms

/-! ## The nodes a store gained -/

namespace NodeStore

variable {s t : NodeStore}

theorem map_snd_since (s : NodeStore) (start : Nat) :
    (s.since start).map Prod.snd = s.nodes.toList.drop start := by
  simp [since, List.map_drop, Function.comp_def]

/-- A store that keeps every node of another is the other with the nodes it gained after
them. -/
theorem Extends.eq_append_since (h : s.Extends t) :
    t = ⟨s.nodes ++ ((t.since s.size).map Prod.snd).toArray⟩ := by
  have hdrop : (t.nodes.toList.drop s.size).toArray = t.nodes.extract s.size := by
    apply Array.toList_inj.mp
    simp only [Array.toList_extract, List.extract_eq_take_drop]
    rw [List.take_of_length_le (by simp)]
  rw [map_snd_since, hdrop, ← h.nodes_eq]

end NodeStore

/-! ## Laying nodes out -/

namespace NodeArena

variable {a b : NodeArena} {n : Node} {ns : List Node} {id : NodeId} {e : ArenaOverflow}

theorem layOutAll_cons_of_ok (h : a.layOut n = .ok (b, id)) : a.layOutAll (n :: ns) = b.layOutAll ns := by
  simp only [layOutAll, h]

theorem layOutAll_cons_of_error (h : a.layOut n = .error e) : a.layOutAll (n :: ns) = (a, some e) := by
  simp only [layOutAll, h]

/-- Laying a node out keeps what was there and appends one node, at the old size. -/
theorem layOut_eq_ok (h : a.layOut n = .ok (b, id)) : Extends a b ∧ b.size = a.size + 1 ∧ id = a.size := by
  obtain ⟨kind, ty, span⟩ := n
  -- a node without a list is one push; a call or a block stores its list first
  have hpush : ∀ {m : NodeArena} {k : ArenaKind}, a.Extends m → m.size = a.size →
      m.push ⟨k, ty, span⟩ = .ok (b, id) → Extends a b ∧ b.size = a.size + 1 ∧ id = a.size := by
    intro m k hext hsize hp
    obtain ⟨-, rfl, rfl⟩ := push_eq_ok hp
    exact ⟨hext.trans (extends_appendNode m _), by simp [hsize], hsize⟩
  cases kind with
  | lit l => exact hpush (.refl a) rfl h
  | var x => exact hpush (.refl a) rfl h
  | call call =>
    obtain ⟨m, r, hl, hp⟩ := layOut_call_eq_ok h
    obtain ⟨hext, hsize, -⟩ := pushList_reads hl
    exact hpush hext hsize hp
  | block parts =>
    obtain ⟨m, r, hl, hp⟩ := pushComposite_eq_ok_iff.mp h
    obtain ⟨hext, hsize, -⟩ := pushList_reads hl
    exact hpush hext hsize hp

theorem ty_decode (a : NodeArena) (m : ArenaNode) : (a.decode m).ty = m.ty := by
  obtain ⟨kind, ty, span⟩ := m
  cases kind <;> rfl

theorem span_decode (a : NodeArena) (m : ArenaNode) : (a.decode m).span = m.span := by
  obtain ⟨kind, ty, span⟩ := m
  cases kind <;> rfl

/-- A node of the view has the type and the span the arena reads at its id. -/
theorem view_get?_of_lt {y : NodeId} (h : y < a.size) :
    ∃ n, a.view.get? y = some n ∧ a.ty y = .ok n.ty ∧ a.span y = .ok n.span := by
  have hs : y < a.spans.size := a.spans_size ▸ h
  have ht : y < a.types.size := a.types_size ▸ h
  refine ⟨a.decode (a.nodeAt ⟨y, h⟩), ?_, ?_, ?_⟩
  · simp [view, NodeStore.get?, h]
  · rw [ty_decode, ty, readAt_eq_ok_iff, Array.getElem?_eq_getElem ht]
    rfl
  · rw [span_decode, span, readAt_eq_ok_iff, Array.getElem?_eq_getElem hs]
    rfl

/-- The arena reads the type and the span of a node of its view. -/
theorem reads_of_view_get? {y : NodeId} {n : Node} (h : a.view.get? y = some n) :
    a.ty y = .ok n.ty ∧ a.span y = .ok n.span := by
  have hlt : y < a.size := by
    have hy : y < a.view.size := (Array.getElem?_eq_some_iff.mp h).1
    rwa [size_view] at hy
  obtain ⟨n', hn', hty, hspan⟩ := view_get?_of_lt hlt
  rw [hn'] at h
  cases h
  exact ⟨hty, hspan⟩

theorem layOutAll_eq_none (h : a.layOutAll ns = (b, none)) : Extends a b ∧ b.size = a.size + ns.length := by
  induction ns generalizing a with
  | nil =>
    cases h
    exact ⟨.refl _, rfl⟩
  | cons n ns ih =>
    rcases hl : a.layOut n with e | ⟨m, id⟩
    · rw [layOutAll_cons_of_error hl] at h
      cases h
    · rw [layOutAll_cons_of_ok hl] at h
      obtain ⟨hext, hsize, -⟩ := layOut_eq_ok hl
      obtain ⟨hext', hsize'⟩ := ih h
      exact ⟨hext.trans hext', by simp only [hsize', hsize, List.length_cons]; omega⟩

/-- Laying nodes out stops only at a node that does not fit, keeping what the nodes before it
laid out. -/
theorem layOutAll_eq_some (h : a.layOutAll ns = (b, some e)) : Extends a b := by
  induction ns generalizing a with
  | nil => cases h
  | cons n ns ih =>
    rcases hl : a.layOut n with e' | ⟨m, id⟩
    · rw [layOutAll_cons_of_error hl] at h
      cases h
      exact .refl _
    · rw [layOutAll_cons_of_ok hl] at h
      exact (layOut_eq_ok hl).1.trans (ih h)

/-- Laying nodes out keeps the ranges inside the flat array, also when a node does not fit. -/
theorem RangesInside.layOutAll (hin : a.RangesInside) (ns : List Node) :
    (a.layOutAll ns).1.RangesInside := by
  induction ns generalizing a with
  | nil => exact hin
  | cons n ns ih =>
    rcases hl : a.layOut n with e | ⟨b, id⟩
    · rw [layOutAll_cons_of_error hl]
      exact hin
    · rw [layOutAll_cons_of_ok hl]
      exact ih (view_layOut hin hl).1

/-- Laying nodes out that all fit changes the view as appending them changes a node store:
the lists they hold go into ranges of the flat array that read back as the lists. -/
theorem view_layOutAll (hin : a.RangesInside) (h : a.layOutAll ns = (b, none)) :
    b.RangesInside ∧ b.view = ⟨a.view.nodes ++ ns.toArray⟩ := by
  induction ns generalizing a with
  | nil =>
    cases h
    exact ⟨hin, by simp⟩
  | cons n ns ih =>
    rcases hl : a.layOut n with e | ⟨m, id⟩
    · rw [layOutAll_cons_of_error hl] at h
      cases h
    · rw [layOutAll_cons_of_ok hl] at h
      obtain ⟨hin', hview, -⟩ := view_layOut hin hl
      obtain ⟨hin'', hview'⟩ := ih hin' h
      refine ⟨hin'', ?_⟩
      rw [hview', hview]
      simp [NodeStore.push]

end NodeArena

/-! ## Runs on the arena -/

namespace StoreM

variable {α : Type} {m : StoreM α} {a a' : NodeArena} {r : Except Stop α} {s : NodeStore}

theorem runArena_eq (m : StoreM α) (a : NodeArena) :
    m.runArena a =
      match a.layOutAll (((m.runOn a.view).2.since a.size).map Prod.snd) with
      | (a', none) => ((m.runOn a.view).1, a')
      | (a', some e) => (.error (.overflow e), a') := rfl

theorem runArena_of_runOn_same (h : m.runOn a.view = (r, a.view)) : m.runArena a = (r, a) := by
  have hnil : ((a.view.since a.size).map Prod.snd) = [] := by
    rw [NodeStore.map_snd_since, List.drop_eq_nil_iff, Array.length_toList,
      ← NodeStore.size, NodeArena.size_view]
  rw [runArena_eq, h]
  simp only [hnil, NodeArena.layOutAll]

/-- A run that appends one node to the view lays that node out. -/
theorem runArena_of_runOn_push {n : Node} (h : m.runOn a.view = (r, (a.view.push n).1)) :
    m.runArena a =
      match a.layOut n with
      | .ok (a', _) => (r, a')
      | .error e => (.error (.overflow e), a) := by
  have hone : (((a.view.push n).1.since a.size).map Prod.snd) = [n] := by
    rw [NodeStore.map_snd_since]
    simp [NodeStore.push, ← NodeArena.size_view, NodeStore.size]
  rw [runArena_eq, h]
  simp only [hone]
  rcases hl : a.layOut n with e | ⟨a', id⟩
  · rw [NodeArena.layOutAll_cons_of_error hl]
  · rw [NodeArena.layOutAll_cons_of_ok hl]
    rfl

/-- An answer on the arena is the answer on its view, with every node the run appended to the
view laid out, one per node. -/
theorem runArena_eq_ok {v : α} (hm : Appends m) (h : m.runArena a = (.ok v, a')) :
    ∃ s, m.runOn a.view = (.ok v, s) ∧ a.Extends a' ∧ a'.size = s.size := by
  rcases hrun : m.runOn a.view with ⟨r, s⟩
  have hext : a.view.Extends s := hm _ _ _ hrun
  rw [runArena_eq, hrun] at h
  rcases hl : a.layOutAll ((s.since a.size).map Prod.snd) with ⟨b, _ | e⟩ <;>
    simp only [hl] at h
  · cases h
    obtain ⟨hext', hsize⟩ := NodeArena.layOutAll_eq_none hl
    refine ⟨s, rfl, hext', ?_⟩
    have hle := hext.size_le
    rw [NodeArena.size_view] at hle
    rw [hsize, NodeStore.map_snd_since, List.length_drop, Array.length_toList]
    unfold NodeStore.size at hle ⊢
    omega
  · cases h

/-- A run on an arena keeps its ranges inside the flat array, whatever it answers. -/
theorem rangesInside_runArena (hin : a.RangesInside) (h : m.runArena a = (r, a')) :
    a'.RangesInside := by
  have hall := hin.layOutAll (((m.runOn a.view).2.since a.size).map Prod.snd)
  rw [runArena_eq] at h
  rcases hl : a.layOutAll (((m.runOn a.view).2.since a.size).map Prod.snd) with ⟨b, _ | e⟩ <;>
    rw [hl] at h hall <;> cases h <;> exact hall

/-- A computation that only appends, run on an arena whose ranges lie inside its flat array:
when every node it appended fits, it answers as on the view, and the arena's view is the store
the run on the view left; otherwise it stops with the overflow of the first node that does not
fit, keeping what was there. -/
theorem runArena_of_appends (hin : a.RangesInside) (hm : Appends m) (h : m.runOn a.view = (r, s)) :
    (∃ a', m.runArena a = (r, a') ∧ a'.RangesInside ∧ a'.view = s) ∨
      ∃ a' e, m.runArena a = (.error (.overflow e), a') ∧ a.Extends a' := by
  have hs := (hm _ _ _ h).eq_append_since
  rw [NodeArena.size_view] at hs
  rw [runArena_eq, h]
  rcases hl : a.layOutAll ((s.since a.size).map Prod.snd) with ⟨b, _ | e⟩
  · obtain ⟨hin', hview⟩ := NodeArena.view_layOutAll hin hl
    exact .inl ⟨b, rfl, hin', by rw [hview]; exact hs.symm⟩
  · exact .inr ⟨b, e, rfl, NodeArena.layOutAll_eq_some hl⟩

end StoreM

end ProgressionIdioms
