import ProgressionIdioms.Proofs.TableInvariant
import Mathlib.Algebra.GroupWithZero.Nat
/-!
# The supertype walk

`derives` decides whether one type derives from another by a depth-first walk over declared
supertypes (`walkSupers`): a stack of types still to visit, and the types visited. Two facts
make it right on every table, well-formed or not.

It ends within its bound. Count the work left (`pending`): the types on the stack, and the
edges out of the entries not visited yet. A round that passes over a visited type pops it; a
round that visits a type pops it and moves its edges onto the stack. Either way the count drops
by one, and the bound `derives` gives the walk is the count it starts with.

Its answer is reachability. Along the walk every type on the stack is reached from `sub`, `sup`
is never visited, and every declared supertype of `sub` or of a visited type is on the stack or
visited (`WalkInv`). When the stack runs empty the visited types hold the supertypes of `sub`
and are closed under supertypes, so they hold everything `sub` reaches; `sup` is not among them.
-/

namespace ProgressionIdioms

namespace TypeTable

variable {t : TypeTable} {sub sup ty : Ty} {stack seen : List Ty}

/-! ## The work left -/

/-- The declared-supertype edges out of the entries that are not visited. -/
def unvisitedEdges (t : TypeTable) (seen : List Ty) : Nat :=
  ((List.range t.size).map fun i => if (⟨i⟩ : Ty) ∈ seen then 0 else (t.supers ⟨i⟩).length).sum

/-- The rounds a walk can still take: one per type on its stack and one per edge out of an
entry it has not visited. -/
def pending (t : TypeTable) (stack seen : List Ty) : Nat := stack.length + t.unvisitedEdges seen

theorem unvisitedEdges_nil (t : TypeTable) : t.unvisitedEdges [] = t.edgeCount := by
  simp only [unvisitedEdges, edgeCount, List.not_mem_nil, if_false]
  rfl

/-- Marking one more handle visited takes its weight out of a sum over distinct positions. -/
private theorem sum_unvisited (w : Nat → Nat) (h : ty ∉ seen) :
    ∀ l : List Nat, l.Nodup →
      (l.map fun i => if (⟨i⟩ : Ty) ∈ seen then 0 else w i).sum =
        (l.map fun i => if (⟨i⟩ : Ty) ∈ ty :: seen then 0 else w i).sum +
          if ty.id ∈ l then w ty.id else 0
  | [], _ => by simp
  | i :: l, hl => by
    obtain ⟨hi, hl⟩ := List.nodup_cons.mp hl
    have ih := sum_unvisited w h l hl
    by_cases hit : i = ty.id
    · subst hit
      simp only [List.map_cons, List.sum_cons, List.mem_cons, true_or, if_true,
        show (⟨ty.id⟩ : Ty) = ty from rfl, h, if_false, hi] at ih ⊢
      omega
    · have hne : (⟨i⟩ : Ty) ≠ ty := fun e => hit (congrArg Ty.id e)
      have hmem : ty.id ∈ i :: l ↔ ty.id ∈ l := by simp [Ne.symm hit]
      simp only [List.map_cons, List.sum_cons, List.mem_cons, hne, false_or, hmem] at ih ⊢
      omega

/-- Visiting a type takes the edges out of it off the unvisited ones. -/
theorem unvisitedEdges_cons (h : ty ∉ seen) :
    t.unvisitedEdges seen = t.unvisitedEdges (ty :: seen) + (t.supers ty).length := by
  rw [unvisitedEdges, unvisitedEdges,
    sum_unvisited (fun i => (t.supers ⟨i⟩).length) h _ List.nodup_range]
  by_cases hlt : ty.id < t.size
  · simp [hlt]
  · simp [hlt, supers_of_size_le (Nat.le_of_not_lt hlt)]

theorem pending_pop : t.pending (ty :: stack) seen = t.pending stack seen + 1 := by
  simp only [pending, List.length_cons]
  omega

theorem pending_visit (h : ty ∉ seen) :
    t.pending (ty :: stack) seen = t.pending ((t.supers ty).reverse ++ stack) (ty :: seen) + 1 := by
  simp only [pending, List.length_cons, List.length_append, List.length_reverse,
    unvisitedEdges_cons (t := t) h]
  omega

/-! ## The invariant of the walk -/

/-- What holds of a walk from `sub` looking for `sup`, at every round. -/
structure WalkInv (t : TypeTable) (sub sup : Ty) (stack seen : List Ty) : Prop where
  /-- Every type on the stack is reached from `sub`. -/
  reached : ∀ x ∈ stack, t.Reaches sub x
  /-- The walk stops at `sup` before it could visit it. -/
  sup_unseen : sup ∉ seen
  /-- The supertypes of `sub` and of every visited type are on the stack or visited. -/
  closed : ∀ y, (y = sub ∨ y ∈ seen) → ∀ m ∈ t.supers y, m ∈ stack ∨ m ∈ seen

theorem WalkInv.start (t : TypeTable) (sub sup : Ty) :
    t.WalkInv sub sup (t.supers sub).reverse [] where
  reached x hx := .super (List.mem_reverse.mp hx)
  sup_unseen := List.not_mem_nil
  closed := by
    rintro y (rfl | hy) m hm
    · exact .inl (List.mem_reverse.mpr hm)
    · cases hy

/-- Passing over a visited type keeps the invariant: it is still visited. -/
theorem WalkInv.pop (hinv : t.WalkInv sub sup (ty :: stack) seen) (hty : ty ∈ seen) :
    t.WalkInv sub sup stack seen where
  reached x hx := hinv.reached x (List.mem_cons_of_mem ty hx)
  sup_unseen := hinv.sup_unseen
  closed y hy m hm := by
    rcases hinv.closed y hy m hm with hs | hs
    · rcases List.mem_cons.mp hs with rfl | hs
      · exact .inr hty
      · exact .inl hs
    · exact .inr hs

/-- Visiting a type other than `sup` keeps the invariant: its supertypes go on the stack. -/
theorem WalkInv.visit (hinv : t.WalkInv sub sup (ty :: stack) seen) (hne : ty ≠ sup) :
    t.WalkInv sub sup ((t.supers ty).reverse ++ stack) (ty :: seen) where
  reached x hx := by
    rcases List.mem_append.mp hx with hx | hx
    · exact (hinv.reached ty List.mem_cons_self).trans (.super (List.mem_reverse.mp hx))
    · exact hinv.reached x (List.mem_cons_of_mem ty hx)
  sup_unseen hs := by
    rcases List.mem_cons.mp hs with hs | hs
    · exact hne hs.symm
    · exact hinv.sup_unseen hs
  closed y hy m hm := by
    by_cases hyt : y = ty
    · subst hyt
      exact .inl (List.mem_append_left _ (List.mem_reverse.mpr hm))
    have hy' : y = sub ∨ y ∈ seen := hy.imp_right fun h => (List.mem_cons.mp h).resolve_left hyt
    rcases hinv.closed y hy' m hm with hs | hs
    · rcases List.mem_cons.mp hs with rfl | hs
      · exact .inr List.mem_cons_self
      · exact .inl (List.mem_append_right _ hs)
    · exact .inr (List.mem_cons_of_mem ty hs)

/-- With the stack empty, the visited types hold everything `sub` reaches, and `sup` is not
one of them. -/
theorem WalkInv.not_reaches (hinv : t.WalkInv sub sup [] seen) : ¬ t.Reaches sub sup := by
  -- what a visited type or `sub` itself reaches is visited, by induction on the path
  have hseen : ∀ a x, t.Reaches a x → (a = sub ∨ a ∈ seen) → x ∈ seen := by
    intro a x hr
    induction hr with
    | super hm =>
      intro ha
      exact (hinv.closed _ ha _ hm).resolve_left List.not_mem_nil
    | step hm _ ih =>
      intro ha
      exact ih (.inr ((hinv.closed _ ha _ hm).resolve_left List.not_mem_nil))
  exact fun hr => hinv.sup_unseen (hseen sub sup hr (.inl rfl))

/-! ## The answer -/

/-- A walk in a state of the invariant, with as many rounds as it has work left, ends with an
answer, and the answer is whether `sub` reaches `sup`. -/
theorem walkSupers_of_inv {rounds : Nat} (hinv : t.WalkInv sub sup stack seen)
    (hr : t.pending stack seen ≤ rounds) :
    ∃ b, t.walkSupers sup rounds stack seen = some b ∧ (b = true ↔ t.Reaches sub sup) := by
  fun_induction t.walkSupers sup rounds stack seen with
  | case1 rounds seen =>
    exact ⟨false, rfl, iff_of_false Bool.false_ne_true hinv.not_reaches⟩
  | case2 ty stack seen =>
    rw [pending_pop] at hr
    omega
  | case3 rounds stack seen =>
    exact ⟨true, rfl, iff_of_true rfl (hinv.reached sup List.mem_cons_self)⟩
  | case4 rounds ty stack seen hne hseen ih =>
    rw [pending_pop] at hr
    exact ih (hinv.pop hseen) (by omega)
  | case5 rounds ty stack seen hne hseen ih =>
    rw [pending_visit hseen] at hr
    exact ih (hinv.visit hne) (by omega)

/-- From the start, the bound of `derives` is the work the walk has. -/
theorem pending_start (t : TypeTable) (sub : Ty) :
    t.pending (t.supers sub).reverse [] = (t.supers sub).length + t.edgeCount := by
  simp [pending, unvisitedEdges_nil]

/-- `derives` answers reachability through declared supertypes, on every table. -/
theorem derives_iff_reaches : t.derives sub sup = true ↔ t.Reaches sub sup := by
  obtain ⟨b, hb, hiff⟩ :=
    walkSupers_of_inv (WalkInv.start t sub sup) (Nat.le_of_eq (pending_start t sub))
  rw [derives, hb]
  exact hiff

/-- Reaching through declared supertypes is decided by the walk. -/
instance (t : TypeTable) (a b : Ty) : Decidable (t.Reaches a b) :=
  decidable_of_iff _ derives_iff_reaches

/-- The supertype walk ends, and answers reachability: on every table, from any handle `sub`
to any handle `sup`, the walk runs out of neither rounds nor stack before it answers, any
number of rounds from the bound of `derives` on gives the same answer, and that answer is
whether `sup` is reached from `sub` by one or more declared-supertype edges. -/
theorem walkSupers_answers_reaches (t : TypeTable) (sub sup : Ty) :
    (∀ rounds, (t.supers sub).length + t.edgeCount ≤ rounds →
      t.walkSupers sup rounds (t.supers sub).reverse [] = some (decide (t.Reaches sub sup))) ∧
    (t.derives sub sup = true ↔ t.Reaches sub sup) := by
  refine ⟨fun rounds hr => ?_, derives_iff_reaches⟩
  rw [← pending_start] at hr
  obtain ⟨b, hb, hiff⟩ := walkSupers_of_inv (WalkInv.start t sub sup) hr
  rw [hb, Bool.eq_iff_iff.mpr (hiff.trans decide_eq_true_iff.symm)]

end TypeTable

end ProgressionIdioms
