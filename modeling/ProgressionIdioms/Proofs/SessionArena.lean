import ProgressionIdioms.Session.Ops
import ProgressionIdioms.Proofs.StepNode
/-!
# The arena a session keeps

A session lays its expression nodes out in a node arena, and every recognition lays out the
nodes it appends. In an arena laid out so, every range a node holds ends inside the flat list
array (`NodeArena.RangesInside`), also after a node that did not fit: building a session gives
such an arena, and every operation keeps it (`Session.performAll_rangesInside`). So in every
session a recognition answers as on the arena's view and leaves the arena whose view is the
store that run left, or stops with the overflow of the first node that does not fit
(`Session.recognize_runArena`).
-/

namespace ProgressionIdioms

namespace Session

variable {s : Session}

/-- Laying out the expression nodes of a script keeps the ranges inside the flat array. -/
theorem rangesInside_addExprs {declared : Array Ty} {sigs : SignatureTable} {names names' : Interner}
    {arena arena' : NodeArena} {es : List (Except InputError ExprDecl)} (hin : arena.RangesInside)
    (h : addExprs declared sigs names arena es = .ok (names', arena')) : arena'.RangesInside := by
  induction es generalizing names arena with
  | nil =>
    cases h
    exact hin
  | cons e rest ih =>
    -- each node is laid out after its declaration is read, and the rest go on from there
    obtain ⟨decl, -, h⟩ := except_bind_eq_ok h
    obtain ⟨⟨names₁, n⟩, -, h⟩ := except_bind_eq_ok h
    obtain ⟨⟨arena₁, id⟩, hl, h⟩ := except_bind_eq_ok h
    rcases hlay : arena.layOut n with err | ⟨b, id'⟩ <;> rw [hlay] at hl
    · cases hl
    · cases hl
      exact ih (NodeArena.view_layOut hin hlay).1 h

/-- A built session's arena holds its ranges inside its flat array. -/
theorem rangesInside_build {script : Script} (h : script.build = .ok s) : s.arena.RangesInside := by
  obtain ⟨⟨types, declared⟩, -, h⟩ := except_bind_eq_ok h
  obtain ⟨names, -, h⟩ := except_bind_eq_ok h
  obtain ⟨callees, -, h⟩ := except_bind_eq_ok h
  obtain ⟨⟨names₁, config⟩, -, h⟩ := except_bind_eq_ok h
  obtain ⟨⟨names₂, arena⟩, hexprs, h⟩ := except_bind_eq_ok h
  cases h
  exact rangesInside_addExprs NodeArena.rangesInside_empty hexprs

/-- Recognition lays out in the session's arena the nodes it appends, and keeps its ranges
inside; every other operation leaves the arena alone. -/
theorem perform_rangesInside (hin : s.arena.RangesInside) (op : Op) :
    (s.perform op).1.arena.RangesInside := by
  cases op with
  | recognize e withStep =>
    simp only [perform, recognizeOp]
    split
    next heq => exact StoreM.rangesInside_runArena hin heq
    next heq => exact StoreM.rangesInside_runArena hin heq
  | matcher ds f =>
    simp only [perform]
    split <;> (try split) <;> exact hin
  | intern strings =>
    simp only [perform]
    split <;> exact hin
  | dotted path =>
    simp only [perform]
    split <;> (try split) <;> exact hin
  | node e =>
    simp only [perform]
    split <;> exact hin
  | subtype a b =>
    simp only [perform]
    split <;> exact hin
  | idioms f =>
    simp only [perform]
    split <;> exact hin
  | size | kind _ | classifier _ | stripNullable _ | display _ | idiomOrder | kindInfo _
  | helpers _ => exact hin

/-- Every session a script's operations reach keeps its arena's ranges inside its flat array. -/
theorem performAll_rangesInside (hin : s.arena.RangesInside) (ops : List (Except InputError Op)) :
    (s.performAll ops).1.arena.RangesInside := by
  induction ops generalizing s with
  | nil => exact hin
  | cons op ops ih =>
    rcases op with e | op
    · exact ih hin
    · exact ih (perform_rangesInside hin op)

/-- In every session a script's operations reach, a recognition runs on the arena as on the
arena's view: while the nodes it appended fit, it answers as on the
view and leaves the arena whose view is the store the run on the view left, with the lists of
the new nodes in ranges of the flat array; otherwise it stops with the overflow of the first
node that does not fit, keeping every node and list that was there. -/
theorem recognize_runArena {script : Script} {s₀ : Session} (hbuild : script.build = .ok s₀)
    (ops : List (Except InputError Op)) (x : NodeId) (r : Except Stop (Option Progression))
    (t : NodeStore)
    (h : ((s₀.performAll ops).1.context.recognize x).runOn (s₀.performAll ops).1.arena.view =
      (r, t)) :
    (∃ a', ((s₀.performAll ops).1.context.recognize x).runArena (s₀.performAll ops).1.arena = (r, a') ∧
        a'.RangesInside ∧ a'.view = t) ∨
      ∃ a' e, ((s₀.performAll ops).1.context.recognize x).runArena (s₀.performAll ops).1.arena =
          (.error (.overflow e), a') ∧ (s₀.performAll ops).1.arena.Extends a' :=
  StoreM.runArena_of_appends (performAll_rangesInside (rangesInside_build hbuild) ops)
    (Context.appends_recognize _ x) h

end Session

end ProgressionIdioms
