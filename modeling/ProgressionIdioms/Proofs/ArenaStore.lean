import ProgressionIdioms.Code.Arena
/-!
# The node arena keeps what it is given

A run of arena operations from the empty arena hands out node ids `0, 1, 2, …` in the order
the nodes are pushed, and from then on every read of a pushed node or a stored list gives back
exactly what was pushed (`NodeArena.run_reads_back`). A run stops only at an operation whose
counts do not fit their widths, and then at the first such one.

The argument: one lemma per operation saying what it returns and appends (`push_eq_ok`,
`pushList_eq_ok`, `pushComposite_eq_ok_iff`); reads of what was just appended
(`holds_appendNode_size`, `getList_appendList`); and the growth relation `Extends`, under which
every read that succeeded gives the same answer. A run then carries `ReadsBack` for each of its
operations by induction on the operations (`run_eq_ok`).

The last section relates the arena to the node store recognition reads: laying a node out
changes the arena's view as pushing the node changes the store (`view_layOut`).
-/

namespace ProgressionIdioms

/-- `ys` is `xs` with more entries at its end. -/
def GrowsTo {α : Type} (xs ys : Array α) : Prop := ∃ more, ys = xs ++ more

namespace GrowsTo

variable {α : Type} {xs ys zs : Array α}

theorem refl (xs : Array α) : GrowsTo xs xs := ⟨#[], by simp⟩

theorem trans (h : GrowsTo xs ys) (h' : GrowsTo ys zs) : GrowsTo xs zs := by
  obtain ⟨m, rfl⟩ := h
  obtain ⟨m', rfl⟩ := h'
  exact ⟨m ++ m', by simp⟩

theorem push (xs : Array α) (x : α) : GrowsTo xs (xs.push x) := ⟨#[x], by simp⟩

theorem append (xs more : Array α) : GrowsTo xs (xs ++ more) := ⟨more, rfl⟩

theorem size_le (h : GrowsTo xs ys) : xs.size ≤ ys.size := by
  obtain ⟨m, rfl⟩ := h
  simp

theorem getElem?_eq (h : GrowsTo xs ys) {i : Nat} (hi : i < xs.size) : ys[i]? = xs[i]? := by
  obtain ⟨m, rfl⟩ := h
  exact Array.getElem?_append_left hi

theorem readAt (h : GrowsTo xs ys) {i : Nat} {x : α} (hx : readAt xs i = .ok x) :
    readAt ys i = .ok x := by
  rw [readAt_eq_ok_iff] at hx ⊢
  have hi : i < xs.size := (Array.getElem?_eq_some_iff.mp hx).1
  rw [h.getElem?_eq hi, hx]

theorem extract_eq (h : GrowsTo xs ys) {s e : Nat} (he : e ≤ xs.size) :
    ys.extract s e = xs.extract s e := by
  obtain ⟨m, rfl⟩ := h
  rw [Array.extract_append]
  simp [Nat.sub_eq_zero_of_le he]

end GrowsTo

namespace NodeArena

variable {a b c : NodeArena} {n : ArenaNode} {ids : List NodeId} {id : NodeId} {r : ListRange}

/-! ## Reading nodes and lists -/

/-- Every read of node `id` gives back `n`: the whole node, its kind, its type and its span. -/
structure Holds (a : NodeArena) (id : NodeId) (n : ArenaNode) : Prop where
  get : a.get id = .ok n
  kind : a.kind id = .ok n.kind
  ty : a.ty id = .ok n.ty
  span : a.span id = .ok n.span

theorem holds_of_reads (hk : a.kind id = .ok n.kind) (hs : a.span id = .ok n.span)
    (ht : a.ty id = .ok n.ty) : a.Holds id n := by
  refine ⟨?_, hk, ht, hs⟩
  simp only [get, hk, hs, ht, bind, Except.bind]
  rfl

theorem holds_appendNode_size (a : NodeArena) (n : ArenaNode) : (a.appendNode n).Holds a.size n := by
  apply holds_of_reads
  · simp [kind, size]
  · simp [span, size, ← a.spans_size]
  · simp [ty, size, ← a.types_size]

theorem getList_empty (a : NodeArena) : a.getList .empty = .ok [] := rfl

theorem getList_eq_ok_iff :
    a.getList r = .ok ids ↔
      (r.isEmpty = true ∧ ids = []) ∨
        (r.isEmpty = false ∧ r.stop ≤ a.lists.size ∧ a.slice r = ids) := by
  unfold getList
  by_cases he : r.isEmpty = true
  · simp [he, pure, Except.pure, eq_comm]
  · by_cases hs : r.stop ≤ a.lists.size
    · simp [he, hs, pure, Except.pure]
    · simp [he, hs, throw, throwThe, MonadExceptOf.throw]

theorem slice_appendList (hs : r.start.toNat = a.lists.size) (hl : r.len.toNat = ids.length) :
    (a.appendList ids).slice r = ids := by
  simp [slice, ListRange.stop, hs, hl, Array.extract_append]

theorem getList_appendList (hne : ids ≠ []) (hs : r.start.toNat = a.lists.size)
    (hl : r.len.toNat = ids.length) : (a.appendList ids).getList r = .ok ids := by
  -- a list that is not empty has a length other than zero, so its range is not the empty one
  have hlen : r.isEmpty = false := by
    simp only [ListRange.isEmpty, beq_eq_false_iff_ne, ne_eq]
    intro h0
    simp [h0] at hl
    exact hne (List.length_eq_zero_iff.mp hl.symm)
  refine getList_eq_ok_iff.mpr (.inr ⟨hlen, ?_, slice_appendList hs hl⟩)
  simp [ListRange.stop, hs, hl]

theorem callArg_of_getList {call : ArenaCall} (h : a.getList call.args = .ok ids) (i : Nat) :
    a.callArg call i = .ok ids[i]? := by
  simp only [callArg, h, bind, Except.bind]
  rfl

/-! ## Growth -/

/-- `after` holds everything `before` holds, at the same places: each of its arrays is the
matching array of `before` with more at the end. -/
structure Extends (before after : NodeArena) : Prop where
  kinds : GrowsTo before.kinds after.kinds
  spans : GrowsTo before.spans after.spans
  types : GrowsTo before.types after.types
  lists : GrowsTo before.lists after.lists

theorem Extends.refl (a : NodeArena) : Extends a a :=
  ⟨.refl _, .refl _, .refl _, .refl _⟩

theorem Extends.trans (h : Extends a b) (h' : Extends b c) : Extends a c :=
  ⟨h.kinds.trans h'.kinds, h.spans.trans h'.spans, h.types.trans h'.types, h.lists.trans h'.lists⟩

theorem extends_appendNode (a : NodeArena) (n : ArenaNode) : Extends a (a.appendNode n) :=
  ⟨.push _ _, .push _ _, .push _ _, by simpa using GrowsTo.refl a.lists⟩

theorem extends_appendList (a : NodeArena) (ids : List NodeId) : Extends a (a.appendList ids) :=
  ⟨.refl _, .refl _, .refl _, .append _ _⟩

theorem Extends.holds (h : Extends a b) (hn : a.Holds id n) : b.Holds id n :=
  holds_of_reads (h.kinds.readAt hn.kind) (h.spans.readAt hn.span) (h.types.readAt hn.ty)

theorem Extends.getList (h : Extends a b) (hl : a.getList r = .ok ids) : b.getList r = .ok ids := by
  rcases getList_eq_ok_iff.mp hl with ⟨he, rfl⟩ | ⟨he, hs, rfl⟩
  · exact getList_eq_ok_iff.mpr (.inl ⟨he, rfl⟩)
  · -- the slice ends inside the old flat array, which growth leaves as it was
    have hslice : b.slice r = a.slice r := by
      simp only [slice]
      rw [h.lists.extract_eq hs]
    exact getList_eq_ok_iff.mpr (.inr ⟨he, Nat.le_trans hs h.lists.size_le, hslice⟩)

/-! ## What each operation does -/

theorem push_of_lt (h : a.size < UInt32.size) : a.push n = .ok (a.appendNode n, a.size) := by
  simp only [push, toU32, narrow_of_lt h]
  rfl

theorem push_of_le (h : UInt32.size ≤ a.size) :
    a.push n = .error (.tooMany "expressions" a.size) := by
  simp only [push, toU32, narrow_of_le h]
  rfl

theorem pushList_nil (a : NodeArena) : a.pushList [] = .ok (a, .empty) := rfl

theorem pushList_of_lt (hne : ids ≠ []) (hs : a.lists.size < UInt32.size)
    (hl : ids.length < UInt16.size) :
    a.pushList ids = .ok (a.appendList ids, ⟨UInt32.ofNatLT _ hs, UInt16.ofNatLT _ hl⟩) := by
  simp only [pushList, List.isEmpty_iff, hne, if_false, toU32, toU16, narrow_of_lt hs,
    narrow_of_lt hl]
  rfl

theorem pushList_of_le_lists (hne : ids ≠ []) (hs : UInt32.size ≤ a.lists.size) :
    a.pushList ids = .error (.tooMany "expression lists" a.lists.size) := by
  simp only [pushList, List.isEmpty_iff, hne, if_false, toU32, narrow_of_le hs]
  rfl

theorem pushList_of_le_length (hne : ids ≠ []) (hs : a.lists.size < UInt32.size)
    (hl : UInt16.size ≤ ids.length) :
    a.pushList ids = .error (.tooLong "expression list" ids.length) := by
  simp only [pushList, List.isEmpty_iff, hne, if_false, toU32, toU16, narrow_of_lt hs,
    narrow_of_le hl]
  rfl

/-- A push goes through only below `2 ^ 32` nodes, and appends its node at the old size. -/
theorem push_eq_ok (h : a.push n = .ok (b, id)) :
    a.size < UInt32.size ∧ b = a.appendNode n ∧ id = a.size := by
  by_cases hlt : a.size < UInt32.size
  · rw [push_of_lt hlt] at h
    cases h
    exact ⟨hlt, rfl, rfl⟩
  · rw [push_of_le (Nat.le_of_not_lt hlt)] at h
    cases h

theorem push_ok_iff : (∃ x, a.push n = .ok x) ↔ a.size < UInt32.size :=
  ⟨fun ⟨⟨_, _⟩, h⟩ => (push_eq_ok h).1, fun hlt => ⟨_, push_of_lt hlt⟩⟩

/-- Storing the empty list changes nothing and gives the empty range; storing any other list
appends its ids and gives the range they occupy. -/
theorem pushList_eq_ok (h : a.pushList ids = .ok (b, r)) :
    (ids = [] ∧ b = a ∧ r = .empty) ∨
      (ids ≠ [] ∧ a.lists.size < UInt32.size ∧ ids.length < UInt16.size ∧
        b = a.appendList ids ∧ r.start.toNat = a.lists.size ∧ r.len.toNat = ids.length) := by
  by_cases hne : ids = []
  · subst hne
    rw [pushList_nil] at h
    cases h
    exact .inl ⟨rfl, rfl, rfl⟩
  · by_cases hs : a.lists.size < UInt32.size
    · by_cases hl : ids.length < UInt16.size
      · rw [pushList_of_lt hne hs hl] at h
        cases h
        exact .inr ⟨hne, hs, hl, rfl, UInt32.toNat_ofNatLT, UInt16.toNat_ofNatLT⟩
      · rw [pushList_of_le_length hne hs (Nat.le_of_not_lt hl)] at h
        cases h
    · rw [pushList_of_le_lists hne (Nat.le_of_not_lt hs)] at h
      cases h

/-- A stored list reads back from its range, and the empty list gets the empty range. -/
theorem pushList_reads (h : a.pushList ids = .ok (b, r)) :
    Extends a b ∧ b.size = a.size ∧ b.lists.size = a.lists.size + ids.length ∧
      b.getList r = .ok ids ∧ (ids = [] → r = .empty) := by
  rcases pushList_eq_ok h with ⟨rfl, rfl, rfl⟩ | ⟨hne, -, -, rfl, hs, hl⟩
  · exact ⟨.refl _, rfl, rfl, getList_empty _, fun _ => rfl⟩
  · exact ⟨extends_appendList a ids, rfl, by simp, getList_appendList hne hs hl,
      fun h => absurd h hne⟩

theorem pushList_ok_iff :
    (∃ x, a.pushList ids = .ok x) ↔
      ids = [] ∨ (a.lists.size < UInt32.size ∧ ids.length < UInt16.size) := by
  constructor
  · rintro ⟨⟨b, r⟩, h⟩
    rcases pushList_eq_ok h with ⟨hnil, -⟩ | ⟨-, hs, hl, -⟩
    · exact .inl hnil
    · exact .inr ⟨hs, hl⟩
  · rintro (rfl | ⟨hs, hl⟩)
    · exact ⟨_, pushList_nil a⟩
    · by_cases hne : ids = []
      · exact ⟨_, hne ▸ pushList_nil a⟩
      · exact ⟨_, pushList_of_lt hne hs hl⟩

theorem pushComposite_eq_ok_iff {parts : List NodeId} {ty : Ty} {span : Span} :
    a.pushComposite parts ty span = .ok (b, id) ↔
      ∃ m r, a.pushList parts = .ok (m, r) ∧ m.push ⟨.block r, ty, span⟩ = .ok (b, id) := by
  rcases h : a.pushList parts with e | ⟨m, r⟩
  · simp only [pushComposite, h, bind, Except.bind]
    simp
  · simp only [pushComposite, h, bind, Except.bind]
    constructor
    · intro hp
      exact ⟨m, r, rfl, hp⟩
    · rintro ⟨m', r', hmr, hp⟩
      cases hmr
      exact hp

theorem pushComposite_ok_iff {parts : List NodeId} {ty : Ty} {span : Span} :
    (∃ x, a.pushComposite parts ty span = .ok x) ↔
      (parts = [] ∨ (a.lists.size < UInt32.size ∧ parts.length < UInt16.size)) ∧
        a.size < UInt32.size := by
  constructor
  · rintro ⟨⟨b, id⟩, h⟩
    obtain ⟨m, r, hl, hp⟩ := pushComposite_eq_ok_iff.mp h
    obtain ⟨-, hsize, -⟩ := pushList_reads hl
    exact ⟨pushList_ok_iff.mp ⟨_, hl⟩, hsize ▸ push_ok_iff.mp ⟨_, hp⟩⟩
  · rintro ⟨hlist, hlt⟩
    obtain ⟨⟨m, r⟩, hl⟩ := pushList_ok_iff.mpr hlist
    obtain ⟨-, hsize, -⟩ := pushList_reads hl
    obtain ⟨⟨b, id⟩, hp⟩ := (push_ok_iff (a := m) (n := ⟨.block r, ty, span⟩)).mpr (hsize ▸ hlt)
    exact ⟨_, pushComposite_eq_ok_iff.mpr ⟨m, r, hl, hp⟩⟩

end NodeArena

/-! ## Runs of operations -/

/-- An operation on the arena, with what it is given. Pushing a literal, a variable or a call
is pushing its node (`pushLit`, `pushVar`, `pushCall`), so `push` stands for all four. -/
inductive ArenaOp where
  /-- Appends a node. -/
  | push (n : ArenaNode)
  /-- Stores a block's parts, then appends the block. -/
  | pushComposite (parts : List NodeId) (ty : Ty) (span : Span)
  /-- Stores a list. -/
  | pushList (ids : List NodeId)
deriving DecidableEq, Repr

/-- What an operation hands back. -/
inductive ArenaOut where
  /-- The id of the node appended. -/
  | node (id : NodeId)
  /-- The range of the list stored. -/
  | list (r : ListRange)
deriving DecidableEq, Repr

namespace ArenaOp

/-- Whether the operation appends a node: all but storing a bare list do. -/
def appendsNode : ArenaOp → Bool
  | .pushList _ => false
  | _ => true

/-- The ids the operation stores in the flat list array. -/
def listed : ArenaOp → List NodeId
  | .push _ => []
  | .pushComposite parts _ _ => parts
  | .pushList ids => ids

/-- Whether the operation's counts fit their widths when `nodes` nodes and `stored` list
entries are already in the arena. -/
def Fits (nodes stored : Nat) (op : ArenaOp) : Prop :=
  (op.appendsNode = true → nodes < UInt32.size) ∧
    (op.listed ≠ [] → stored < UInt32.size ∧ op.listed.length < UInt16.size)

/-- What arena `a` gives back for the operation, which returned `out` and whose node, if it
appends one, is due the id `id`: the node reads back whole, a list reads back as the ids stored
(the empty list from the empty range), and a block's range reads back as its parts. -/
def ReadsBack (a : NodeArena) (id : NodeId) : ArenaOp → ArenaOut → Prop
  | .push n, out => out = .node id ∧ a.Holds id n
  | .pushComposite parts ty span, out =>
    out = .node id ∧ ∃ r, a.Holds id ⟨.block r, ty, span⟩ ∧ a.getList r = .ok parts
  | .pushList ids, out => ∃ r, out = .list r ∧ a.getList r = .ok ids ∧ (ids = [] → r = .empty)

theorem ReadsBack.mono {a b : NodeArena} {id : NodeId} {op : ArenaOp} {out : ArenaOut}
    (h : a.Extends b) (hr : op.ReadsBack a id out) : op.ReadsBack b id out := by
  cases op with
  | push n => exact ⟨hr.1, h.holds hr.2⟩
  | pushComposite parts ty span =>
    obtain ⟨hout, r, hholds, hget⟩ := hr
    exact ⟨hout, r, h.holds hholds, h.getList hget⟩
  | pushList ids =>
    obtain ⟨r, hout, hget, hempty⟩ := hr
    exact ⟨r, hout, h.getList hget, hempty⟩

/-- A call whose arguments are the range a stored list got has that list's ids as its
arguments. -/
theorem ReadsBack.callArg {a : NodeArena} {id : NodeId} {ids : List NodeId} {r : ListRange}
    (h : (ArenaOp.pushList ids).ReadsBack a id (.list r)) (call : ArenaCall) (hcall : call.args = r)
    (i : Nat) : a.callArg call i = .ok ids[i]? := by
  obtain ⟨r', hr', hget, -⟩ := h
  cases hr'
  exact NodeArena.callArg_of_getList (hcall ▸ hget) i

end ArenaOp

/-- The number of nodes the operations append. -/
def nodeCount (ops : List ArenaOp) : Nat := ops.countP ArenaOp.appendsNode

/-- The number of ids the operations store in the flat list array. -/
def listedCount : List ArenaOp → Nat
  | [] => 0
  | op :: ops => op.listed.length + listedCount ops

@[simp] theorem nodeCount_nil : nodeCount [] = 0 := rfl

@[simp] theorem nodeCount_cons (op : ArenaOp) (ops : List ArenaOp) :
    nodeCount (op :: ops) = nodeCount ops + (if op.appendsNode then 1 else 0) := by
  simp [nodeCount, List.countP_cons]

@[simp] theorem listedCount_nil : listedCount [] = 0 := rfl

@[simp] theorem listedCount_cons (op : ArenaOp) (ops : List ArenaOp) :
    listedCount (op :: ops) = op.listed.length + listedCount ops := rfl

theorem except_map_eq_ok_iff {ε α β : Type} {x : Except ε α} {f : α → β} {y : β} :
    x.map f = .ok y ↔ ∃ z, x = .ok z ∧ f z = y := by
  cases x <;> simp [Except.map]

theorem except_map_ok_iff {ε α β : Type} {x : Except ε α} {f : α → β} :
    (∃ y, x.map f = .ok y) ↔ ∃ z, x = .ok z := by
  cases x <;> simp [Except.map]

theorem except_bind_eq_ok {ε α β : Type} {x : Except ε α} {f : α → Except ε β} {b : β}
    (h : x >>= f = .ok b) : ∃ a, x = .ok a ∧ f a = .ok b := by
  cases x with
  | error e => cases h
  | ok a => exact ⟨a, rfl, h⟩

namespace NodeArena

variable {a b c : NodeArena} {op : ArenaOp} {out : ArenaOut}

/-- Runs one operation. -/
def apply (a : NodeArena) : ArenaOp → Except ArenaOverflow (NodeArena × ArenaOut)
  | .push n => (a.push n).map fun x => (x.1, .node x.2)
  | .pushComposite parts ty span => (a.pushComposite parts ty span).map fun x => (x.1, .node x.2)
  | .pushList ids => (a.pushList ids).map fun x => (x.1, .list x.2)

/-- Runs operations in order, collecting what each hands back; the first stop ends the run. -/
def run (a : NodeArena) : List ArenaOp → Except ArenaOverflow (NodeArena × List ArenaOut)
  | [] => pure (a, [])
  | op :: ops => do
    let x ← a.apply op
    let y ← x.1.run ops
    pure (y.1, x.2 :: y.2)

/-- One operation: it keeps what was there, appends its node if it has one and its list's ids,
and what it hands back reads back in the arena it leaves. -/
theorem apply_eq_ok (h : a.apply op = .ok (b, out)) :
    Extends a b ∧ b.size = a.size + (if op.appendsNode then 1 else 0) ∧
      b.lists.size = a.lists.size + op.listed.length ∧ op.ReadsBack b a.size out := by
  cases op with
  | push n =>
    obtain ⟨⟨b', id⟩, hp, hx⟩ := except_map_eq_ok_iff.mp h
    cases hx
    obtain ⟨-, rfl, rfl⟩ := push_eq_ok hp
    exact ⟨extends_appendNode a n, by simp [ArenaOp.appendsNode], by simp [ArenaOp.listed], rfl,
      holds_appendNode_size a n⟩
  | pushComposite parts ty span =>
    obtain ⟨⟨b', id⟩, hp, hx⟩ := except_map_eq_ok_iff.mp h
    cases hx
    obtain ⟨m, r, hl, hp⟩ := pushComposite_eq_ok_iff.mp hp
    obtain ⟨hext, hsize, hlists, hget, -⟩ := pushList_reads hl
    -- storing the parts appends no node, so the block gets the id it was due before
    obtain ⟨-, rfl, rfl⟩ := push_eq_ok hp
    have hext' := extends_appendNode m ⟨.block r, ty, span⟩
    refine ⟨hext.trans hext', by simp [hsize, ArenaOp.appendsNode],
      by simp [hlists, ArenaOp.listed], ?_⟩
    exact ⟨by rw [hsize], r, hsize ▸ holds_appendNode_size m _, hext'.getList hget⟩
  | pushList ids =>
    obtain ⟨⟨b', r⟩, hp, hx⟩ := except_map_eq_ok_iff.mp h
    cases hx
    obtain ⟨hext, hsize, hlists, hget, hempty⟩ := pushList_reads hp
    exact ⟨hext, by simp [hsize, ArenaOp.appendsNode], by simp [hlists, ArenaOp.listed],
      r, rfl, hget, hempty⟩

/-- An operation goes through exactly when its counts fit. -/
theorem apply_ok_iff : (∃ x, a.apply op = .ok x) ↔ op.Fits a.size a.lists.size := by
  cases op with
  | push n =>
    rw [apply, except_map_ok_iff, push_ok_iff]
    simp [ArenaOp.Fits, ArenaOp.appendsNode, ArenaOp.listed]
  | pushComposite parts ty span =>
    rw [apply, except_map_ok_iff, pushComposite_ok_iff]
    simp only [ArenaOp.Fits, ArenaOp.appendsNode, ArenaOp.listed, forall_const]
    by_cases hp : parts = [] <;> simp [hp, and_comm]
  | pushList ids =>
    rw [apply, except_map_ok_iff, pushList_ok_iff]
    by_cases hi : ids = [] <;> simp [ArenaOp.Fits, ArenaOp.appendsNode, ArenaOp.listed, hi]

theorem run_nil (a : NodeArena) : a.run [] = .ok (a, []) := rfl

theorem run_cons_of_ok {ops : List ArenaOp} {rest : List ArenaOut}
    (h : a.apply op = .ok (b, out)) (h' : b.run ops = .ok (c, rest)) :
    a.run (op :: ops) = .ok (c, out :: rest) := by
  simp only [run, h, h', bind, Except.bind, pure, Except.pure]

theorem run_cons_eq_ok {ops : List ArenaOp} {outs : List ArenaOut}
    (h : a.run (op :: ops) = .ok (c, outs)) :
    ∃ b out rest, a.apply op = .ok (b, out) ∧ b.run ops = .ok (c, rest) ∧ outs = out :: rest := by
  obtain ⟨⟨b, out⟩, ha, h⟩ := except_bind_eq_ok h
  obtain ⟨⟨c', rest⟩, hr, h⟩ := except_bind_eq_ok h
  cases h
  exact ⟨b, out, rest, ha, hr, rfl⟩

/-- The counts before the `k + 1`-th operation of `op :: ops`, from `a`, are those before the
`k`-th of `ops`, from the arena `op` leaves. -/
theorem counts_take_succ (ops : List ArenaOp) (h : a.apply op = .ok (b, out)) (k : Nat) :
    a.size + nodeCount ((op :: ops).take (k + 1)) = b.size + nodeCount (ops.take k) ∧
      a.lists.size + listedCount ((op :: ops).take (k + 1)) =
        b.lists.size + listedCount (ops.take k) := by
  obtain ⟨-, hsize, hlists, -⟩ := apply_eq_ok h
  simp only [List.take_succ_cons, nodeCount_cons, listedCount_cons, hsize, hlists]
  omega

/-- A run keeps what was there, appends one node per node-appending operation and the ids of
every list, and what each operation handed back reads back at the end. The node of the `k`-th
operation is due the id after the nodes of the operations before it. -/
theorem run_eq_ok {ops : List ArenaOp} {outs : List ArenaOut} (h : a.run ops = .ok (b, outs)) :
    Extends a b ∧ b.size = a.size + nodeCount ops ∧
      b.lists.size = a.lists.size + listedCount ops ∧ outs.length = ops.length ∧
      ∀ k (hk : k < ops.length) out, outs[k]? = some out →
        ops[k].ReadsBack b (a.size + nodeCount (ops.take k)) out := by
  induction ops generalizing a outs with
  | nil =>
    rw [run_nil] at h
    cases h
    exact ⟨.refl _, rfl, rfl, rfl, fun k hk => absurd hk (Nat.not_lt_zero k)⟩
  | cons op ops ih =>
    obtain ⟨m, out, rest, hm, hr, rfl⟩ := run_cons_eq_ok h
    obtain ⟨hext, hsize, hlists, hreads⟩ := apply_eq_ok hm
    obtain ⟨hext', hsize', hlists', hlen, hrest⟩ := ih hr
    refine ⟨hext.trans hext', ?_, ?_, by simp [hlen], ?_⟩
    · rw [hsize', hsize, nodeCount_cons]
      omega
    · rw [hlists', hlists, listedCount_cons]
      omega
    · intro k hk out' hout
      cases k with
      | zero =>
        -- the first operation's answer, read in the arena the rest of the run leaves
        simp only [List.getElem?_cons_zero, Option.some.injEq] at hout
        subst hout
        simpa using hreads.mono hext'
      | succ k =>
        -- the later operations run from the arena the first one leaves
        rw [(counts_take_succ ops hm k).1]
        exact hrest k (by simpa using hk) out' (by simpa using hout)

/-- A run goes through exactly when every operation's counts fit, given what the operations
before it stored. -/
theorem run_ok_iff (ops : List ArenaOp) :
    (∃ x, a.run ops = .ok x) ↔
      ∀ k (hk : k < ops.length), ops[k].Fits (a.size + nodeCount (ops.take k))
        (a.lists.size + listedCount (ops.take k)) := by
  induction ops generalizing a with
  | nil => exact iff_of_true ⟨_, run_nil a⟩ fun k hk => absurd hk (Nat.not_lt_zero k)
  | cons op ops ih =>
    constructor
    · rintro ⟨⟨c, outs⟩, h⟩
      obtain ⟨m, out, rest, hm, hr, -⟩ := run_cons_eq_ok h
      have hfits := (ih (a := m)).mp ⟨_, hr⟩
      intro k hk
      cases k with
      | zero => simpa using apply_ok_iff.mp ⟨_, hm⟩
      | succ k =>
        obtain ⟨hn, hl⟩ := counts_take_succ ops hm k
        rw [hn, hl]
        exact hfits k (by simpa using hk)
    · intro hfits
      have hfirst := hfits 0 (Nat.zero_lt_succ _)
      simp only [List.take_zero, nodeCount_nil, listedCount_nil, Nat.add_zero,
        List.getElem_cons_zero] at hfirst
      obtain ⟨⟨m, out⟩, hm⟩ := apply_ok_iff.mpr hfirst
      obtain ⟨⟨c, rest⟩, hr⟩ := (ih (a := m)).mpr fun k hk => by
        obtain ⟨hn, hl⟩ := counts_take_succ ops hm k
        have := hfits (k + 1) (by simpa using hk)
        rw [hn, hl] at this
        simpa using this
      exact ⟨_, run_cons_of_ok hm hr⟩

/-- Every run of arena operations from the empty arena. It stops exactly at an operation whose
counts do not fit their widths: a node past the `2 ^ 32`-th, a non-empty list of `2 ^ 16` ids
or more, or a non-empty list when `2 ^ 32` ids are already stored. When it does not stop, the
arena holds one node per node-appending operation and every stored id; the node of the `k`-th
operation got the id `nodeCount (ops.take k)`, the number of nodes pushed before it, and reads
back whole (node, kind, type and span); a stored list reads back from its range as the ids it
was given, the empty list from the empty range; a block's range reads back as its parts; and a
call whose arguments are a stored list's range has that list's ids as its arguments. The
operations after the `k`-th are arbitrary, so these reads hold at every later point. -/
theorem run_reads_back (ops : List ArenaOp) :
    ((∃ x, NodeArena.empty.run ops = .ok x) ↔
      ∀ k (hk : k < ops.length), ops[k].Fits (nodeCount (ops.take k)) (listedCount (ops.take k))) ∧
    ∀ b outs, NodeArena.empty.run ops = .ok (b, outs) →
      b.size = nodeCount ops ∧ b.lists.size = listedCount ops ∧ outs.length = ops.length ∧
      (∀ k (hk : k < ops.length) out, outs[k]? = some out →
        ops[k].ReadsBack b (nodeCount (ops.take k)) out) ∧
      ∀ (j : Nat) (ids : List NodeId) (r : ListRange),
        ops[j]? = some (.pushList ids) → outs[j]? = some (.list r) →
        ∀ call : ArenaCall, call.args = r → ∀ i, b.callArg call i = .ok ids[i]? := by
  have hok := run_ok_iff (a := NodeArena.empty) ops
  simp only [size_empty, lists_empty, Array.size_empty, Nat.zero_add] at hok
  refine ⟨hok, ?_⟩
  intro b outs h
  obtain ⟨-, hsize, hlists, hlen, hreads⟩ := run_eq_ok h
  have hreads' : ∀ k (hk : k < ops.length) out, outs[k]? = some out →
      ops[k].ReadsBack b (nodeCount (ops.take k)) out := by
    simpa using hreads
  refine ⟨by simpa using hsize, by simpa using hlists, hlen, hreads', ?_⟩
  intro j ids r hop hout call hcall i
  obtain ⟨hj, hopj⟩ := List.getElem?_eq_some_iff.mp hop
  have hback := hreads' j hj _ hout
  rw [hopj] at hback
  exact hback.callArg call hcall i

/-- Every empty list gets the empty range; the list stored between them starts at offset 0. -/
example :
    (NodeArena.empty.run [.pushList [], .pushList [3, 4], .pushList []]).map Prod.snd =
      .ok [.list .empty, .list ⟨0, 2⟩, .list .empty] := by
  rfl

end NodeArena

/-! ## The store an arena holds -/

/-- The ranges a node kind holds. -/
def ArenaKind.ranges : ArenaKind → List ListRange
  | .call c => [c.args]
  | .block r => [r]
  | _ => []

namespace NodeArena

variable {a b : NodeArena} {m : ArenaNode} {ids : List NodeId} {id : NodeId} {r : ListRange}

/-- Every range a node of the arena holds ends inside the flat list array. -/
def RangesInside (a : NodeArena) : Prop :=
  ∀ (i : Nat) (k : ArenaKind), a.kinds[i]? = some k → ∀ r ∈ k.ranges, r.stop ≤ a.lists.size

theorem rangesInside_empty : empty.RangesInside := by
  intro i k hk
  simp [empty] at hk

theorem slice_of_getList (h : a.getList r = .ok ids) : a.slice r = ids := by
  rcases getList_eq_ok_iff.mp h with ⟨he, rfl⟩ | ⟨-, -, hs⟩
  · have hlen : r.len.toNat = 0 := by
      simp only [ListRange.isEmpty, beq_iff_eq] at he
      simp [he]
    simp [slice, ListRange.stop, hlen]
  · exact hs

theorem slice_appendList_of_le (h : r.stop ≤ a.lists.size) :
    (a.appendList ids).slice r = a.slice r := by
  simp only [slice]
  rw [(extends_appendList a ids).lists.extract_eq h]

theorem decode_appendList (h : ∀ r ∈ m.kind.ranges, r.stop ≤ a.lists.size) :
    (a.appendList ids).decode m = a.decode m := by
  obtain ⟨kind, ty, span⟩ := m
  cases kind with
  | lit l => rfl
  | var x => rfl
  | call c =>
    simp only [decode, slice_appendList_of_le (h c.args (by simp [ArenaKind.ranges]))]
  | block r =>
    simp only [decode, slice_appendList_of_le (h r (by simp [ArenaKind.ranges]))]

theorem RangesInside.appendList (h : a.RangesInside) : (a.appendList ids).RangesInside := by
  intro i k hk r hr
  have := h i k hk r hr
  simp only [lists_appendList, Array.size_append]
  omega

theorem RangesInside.appendNode (h : a.RangesInside)
    (hm : ∀ r ∈ m.kind.ranges, r.stop ≤ a.lists.size) : (a.appendNode m).RangesInside := by
  intro i k hk r hr
  simp only [kinds_appendNode, Array.getElem?_push] at hk
  split at hk
  · cases hk
    exact hm r hr
  · exact h i k hk r hr

theorem size_view (a : NodeArena) : a.view.size = a.size := by
  simp [view, NodeStore.size]

theorem view_appendList (h : a.RangesInside) : (a.appendList ids).view = a.view := by
  simp only [view]
  congr 1
  refine congrArg Array.ofFn (funext fun i => ?_)
  have hk : a.kinds[i.1]? = some (a.nodeAt i).kind := Array.getElem?_eq_getElem i.2
  exact decode_appendList (h i.1 _ hk)

theorem decode_appendNode (a : NodeArena) (m : ArenaNode) : (a.appendNode m).decode = a.decode :=
  rfl

theorem nodeAt_appendNode (a : NodeArena) (m : ArenaNode) (i : Fin (a.appendNode m).size) :
    (a.appendNode m).nodeAt i = if h : i.1 < a.size then a.nodeAt ⟨i.1, h⟩ else m := by
  have hk : a.kinds.size = a.size := rfl
  have hs := a.spans_size
  have ht := a.types_size
  by_cases h : i.1 < a.size
  · have hk' : i.1 < a.kinds.size := h
    have hs' : i.1 < a.spans.size := by omega
    have ht' : i.1 < a.types.size := by omega
    simp only [nodeAt, dif_pos h, kinds_appendNode, spans_appendNode, types_appendNode,
      Array.getElem_push_lt hk', Array.getElem_push_lt hs', Array.getElem_push_lt ht']
    rfl
  · -- the one position past the old nodes holds the node appended
    have hlt := i.2
    simp only [size_appendNode] at hlt
    have hk' : ¬ i.1 < a.kinds.size := h
    have hs' : ¬ i.1 < a.spans.size := by omega
    have ht' : ¬ i.1 < a.types.size := by omega
    simp only [nodeAt, dif_neg h, kinds_appendNode, spans_appendNode, types_appendNode,
      Array.getElem_push, dif_neg hk', dif_neg hs', dif_neg ht']

theorem view_appendNode (a : NodeArena) (m : ArenaNode) :
    (a.appendNode m).view = (a.view.push (a.decode m)).1 := by
  simp only [view, NodeStore.push]
  congr 1
  apply Array.ext
  · simp [size]
  · intro i h1 h2
    simp only [Array.getElem_ofFn, Array.getElem_push, Array.size_ofFn, nodeAt_appendNode,
      decode_appendNode]
    by_cases hi : i < a.size <;> simp [hi]

theorem view_empty : empty.view = NodeStore.empty := by
  simp [view, NodeStore.empty]

/-- Storing a list leaves the view as it was, and the list's range reads, inside the flat
array, as the list. -/
theorem view_pushList (hin : a.RangesInside) (h : a.pushList ids = .ok (b, r)) :
    b.RangesInside ∧ b.view = a.view ∧ r.stop ≤ b.lists.size ∧ b.slice r = ids := by
  obtain ⟨-, -, -, hget, -⟩ := pushList_reads h
  have hslice := slice_of_getList hget
  rcases pushList_eq_ok h with ⟨rfl, rfl, rfl⟩ | ⟨-, -, -, rfl, hs, hl⟩
  · exact ⟨hin, rfl, Nat.zero_le _, hslice⟩
  · refine ⟨hin.appendList, view_appendList hin, ?_, hslice⟩
    simp [ListRange.stop, hs, hl]

/-- Pushing a node whose ranges lie inside the flat array adds the node it stands for to the
view, at the id the push returns. -/
theorem view_push (hin : a.RangesInside) (hm : ∀ r ∈ m.kind.ranges, r.stop ≤ a.lists.size)
    (h : a.push m = .ok (b, id)) :
    b.RangesInside ∧ b.view = (a.view.push (a.decode m)).1 ∧ id = a.view.size := by
  obtain ⟨-, rfl, rfl⟩ := push_eq_ok h
  exact ⟨hin.appendNode hm, view_appendNode a m, (size_view a).symm⟩

theorem layOut_call_eq_ok {call : Call} {ty : Ty} {span : Span}
    (h : a.layOut ⟨.call call, ty, span⟩ = .ok (b, id)) :
    ∃ m r, a.pushList call.args = .ok (m, r) ∧
      m.push ⟨.call ⟨call.callee, call.dispatch, call.extension, r⟩, ty, span⟩ = .ok (b, id) := by
  obtain ⟨⟨m, r⟩, hl, h⟩ := except_bind_eq_ok h
  exact ⟨m, r, hl, h⟩

/-- A list stored and then a node pushed that holds the list's range: the view gains the node
the pushed one stands for, and the range reads as the list. -/
theorem view_pushList_push {m : NodeArena} {kind : ArenaKind} {ty : Ty} {span : Span}
    (hin : a.RangesInside) (hl : a.pushList ids = .ok (m, r)) (hk : kind.ranges = [r])
    (hp : m.push ⟨kind, ty, span⟩ = .ok (b, id)) :
    b.RangesInside ∧ b.view = (a.view.push (m.decode ⟨kind, ty, span⟩)).1 ∧ id = a.view.size ∧
      m.slice r = ids := by
  obtain ⟨hin', hview, hstop, hslice⟩ := view_pushList hin hl
  have hranges : ∀ r' ∈ kind.ranges, r'.stop ≤ m.lists.size := by
    simpa [hk] using hstop
  obtain ⟨hin'', hview', rfl⟩ := view_push hin' hranges hp
  exact ⟨hin'', by rw [hview', hview], by rw [hview], hslice⟩

/-- Laying a node out changes the arena's view as pushing the node changes a node store: the
store recognition reads is the arena read back, node for node and id for id. -/
theorem view_layOut {n : Node} (hin : a.RangesInside) (h : a.layOut n = .ok (b, id)) :
    b.RangesInside ∧ b.view = (a.view.push n).1 ∧ id = a.view.size := by
  obtain ⟨kind, ty, span⟩ := n
  cases kind with
  | lit l => exact view_push (m := ⟨.lit l, ty, span⟩) hin (by simp [ArenaKind.ranges]) h
  | var x => exact view_push (m := ⟨.var x, ty, span⟩) hin (by simp [ArenaKind.ranges]) h
  | call call =>
    obtain ⟨m, r, hl, hp⟩ := layOut_call_eq_ok h
    obtain ⟨hin', hview, hid, hslice⟩ := view_pushList_push hin hl rfl hp
    exact ⟨hin', by simp [hview, decode, hslice], hid⟩
  | block parts =>
    obtain ⟨m, r, hl, hp⟩ := pushComposite_eq_ok_iff.mp h
    obtain ⟨hin', hview, hid, hslice⟩ := view_pushList_push hin hl rfl hp
    exact ⟨hin', by simp [hview, decode, hslice], hid⟩

end NodeArena
end ProgressionIdioms
