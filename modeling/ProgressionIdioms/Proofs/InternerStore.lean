import ProgressionIdioms.Names.Interner
import Mathlib.Data.Finset.Card
import Mathlib.Algebra.BigOperators.Fin
/-!
# What an interner holds

The sharded store is read against one list: the distinct strings in the order they first
arrived (`Interner.Holds`). Each shard holds the strings of the list that belong to it, in
order, its map gives each of them its position, and the count is the length of the list. A
string's name is then its shard and its place among the strings of that shard (`nameIn`).

The seeded interner holds the empty string, and interning one string keeps the invariant: a
string already there keeps its name, a new one arrives last, and a shard that is full stops
(`Interner.Holds.intern_ok`, `Interner.Holds.intern_full`). So a run of interns goes through
exactly when no shard is asked for more than `2 ^ 28` distinct strings, and after it every name
handed out looks up to its string, two names are equal exactly when their strings are, and a
string's position counts the distinct strings of its shard that arrived before it
(`Interner.new_internAll_store`).
-/

namespace ProgressionIdioms

/-! ## The 32-bit form of a name -/

namespace Name

theorem maxLocal_toNat : maxLocal.toNat = 2 ^ 28 - 1 := rfl

theorem toNat_raw_new {a b : UInt32} (ha : a.toNat < shardCount) (hb : b.toNat ≤ maxLocal.toNat) :
    (new a b).raw.toNat = a.toNat * 2 ^ 28 + b.toNat := by
  have ha' : a.toNat < 16 := ha
  have hb' : b.toNat < 2 ^ 28 := by
    rw [maxLocal_toNat] at hb
    omega
  have hmod : a.toNat * 2 ^ 28 % 2 ^ 32 = a.toNat * 2 ^ 28 := Nat.mod_eq_of_lt (by omega)
  simp only [new, UInt32.toNat_or, UInt32.toNat_shiftLeft]
  -- the shard sits above bit 28 and the position below it, so `|||` adds them
  rw [show (28 : UInt32).toNat % 32 = 28 from rfl, Nat.shiftLeft_eq, hmod, ← Nat.shiftLeft_eq,
    ← Nat.shiftLeft_add_eq_or_of_lt hb', Nat.shiftLeft_eq]

theorem toNat_toUInt32_of_le {j : Nat} (hj : j ≤ maxLocal.toNat) : j.toUInt32.toNat = j := by
  rw [Nat.toUInt32_eq, UInt32.toNat_ofNat', Nat.mod_eq_of_lt]
  rw [maxLocal_toNat] at hj
  omega

theorem toNat_shard_toUInt32 (k : Fin shardCount) : k.val.toUInt32.toNat = k.val :=
  toNat_toUInt32_of_le (Nat.le_trans (Nat.le_of_lt k.isLt) (by decide))

variable (k : Fin shardCount) {j : Nat}

theorem shard_new (hj : j ≤ maxLocal.toNat) : (new k.val.toUInt32 j.toUInt32).shard = k := by
  have hraw := toNat_raw_new (by rw [toNat_shard_toUInt32]; exact k.isLt)
    (by rwa [toNat_toUInt32_of_le hj])
  rw [toNat_shard_toUInt32, toNat_toUInt32_of_le hj] at hraw
  have hj' : j < 2 ^ 28 := by
    rw [maxLocal_toNat] at hj
    omega
  refine Fin.ext ?_
  simp only [shard, UInt32.toNat_shiftRight, hraw]
  rw [show (28 : UInt32).toNat % 32 = 28 from rfl, Nat.shiftRight_eq_div_pow]
  omega

theorem localIndex_new (hj : j ≤ maxLocal.toNat) : (new k.val.toUInt32 j.toUInt32).localIndex = j := by
  have hraw := toNat_raw_new (by rw [toNat_shard_toUInt32]; exact k.isLt)
    (by rwa [toNat_toUInt32_of_le hj])
  rw [toNat_shard_toUInt32, toNat_toUInt32_of_le hj] at hraw
  have hj' : j < 2 ^ 28 := by
    rw [maxLocal_toNat] at hj
    omega
  simp only [localIndex, UInt32.toNat_and, hraw]
  rw [show maxLocal.toNat = 2 ^ 28 - 1 from rfl, Nat.and_two_pow_sub_one_eq_mod]
  omega

end Name

/-! ## Arrival lists -/

/-- The strings of a list that belong to a shard, in order. -/
def inShard (l : List String) (k : Fin shardCount) : List String := l.filter (shardFor · == k)

/-- A string arrives: one already there changes nothing, a new one goes last. -/
def arrive (l : List String) (s : String) : List String := if s ∈ l then l else l ++ [s]

/-- The list after strings arrive one after another. -/
def arriveAll (l ss : List String) : List String := ss.foldl arrive l

/-- The name a string has among the strings of a list: its shard, and its place among the
strings of that shard. -/
def nameIn (l : List String) (s : String) : Name :=
  .new (shardFor s).val.toUInt32 ((inShard l (shardFor s)).idxOf s).toUInt32

section Arrivals

variable {l ss : List String} {s x : String} {k : Fin shardCount}

theorem mem_inShard : x ∈ inShard l k ↔ x ∈ l ∧ shardFor x = k := by
  simp [inShard]

theorem mem_inShard_self (hx : x ∈ l) : x ∈ inShard l (shardFor x) := mem_inShard.mpr ⟨hx, rfl⟩

theorem inShard_append_self (hs : shardFor s = k) : inShard (l ++ [s]) k = inShard l k ++ [s] := by
  simp [inShard, hs]

theorem inShard_append_of_ne (hs : shardFor s ≠ k) : inShard (l ++ [s]) k = inShard l k := by
  simp [inShard, hs]

theorem mem_arrive : x ∈ arrive l s ↔ x ∈ l ∨ x = s := by
  unfold arrive
  split
  · next hs =>
    refine ⟨.inl, ?_⟩
    rintro (h | rfl)
    exacts [h, hs]
  · simp

theorem nodup_arrive (h : l.Nodup) : (arrive l s).Nodup := by
  unfold arrive
  split
  · exact h
  · next hs => exact List.nodup_append.mpr ⟨h, List.nodup_singleton s, fun a ha b hb hab =>
      hs (by rw [List.mem_singleton] at hb; rwa [← hb, ← hab])⟩

/-- Arriving only adds at the end: every shard keeps its strings, at their places. -/
theorem inShard_prefix_arrive : inShard l k <+: inShard (arrive l s) k := by
  unfold arrive
  split
  · exact List.prefix_refl _
  · simp only [inShard, List.filter_append]
    exact List.prefix_append _ _

theorem arriveAll_nil (l : List String) : arriveAll l [] = l := rfl

theorem arriveAll_cons (l : List String) (s : String) (ss : List String) :
    arriveAll l (s :: ss) = arriveAll (arrive l s) ss := rfl

theorem mem_arriveAll : x ∈ arriveAll l ss ↔ x ∈ l ∨ x ∈ ss := by
  induction ss generalizing l with
  | nil => simp [arriveAll_nil]
  | cons s ss ih => rw [arriveAll_cons, ih, mem_arrive, List.mem_cons, or_assoc]

theorem mem_arriveAll_of_mem (hx : x ∈ ss) : x ∈ arriveAll l ss := mem_arriveAll.mpr (.inr hx)

theorem toFinset_arriveAll : (arriveAll l ss).toFinset = (l ++ ss).toFinset :=
  Finset.ext fun x => by simp only [List.mem_toFinset, mem_arriveAll, List.mem_append]

theorem nodup_arriveAll (h : l.Nodup) : (arriveAll l ss).Nodup := by
  induction ss generalizing l with
  | nil => exact h
  | cons s ss ih => exact ih (nodup_arrive h)

theorem inShard_prefix_arriveAll : inShard l k <+: inShard (arriveAll l ss) k := by
  induction ss generalizing l with
  | nil => exact List.prefix_refl _
  | cons s ss ih => exact inShard_prefix_arrive.trans ih

/-- A string that has arrived keeps its name whatever arrives after it. -/
theorem nameIn_arriveAll_of_mem (hx : x ∈ l) : nameIn (arriveAll l ss) x = nameIn l x := by
  obtain ⟨more, hmore⟩ : inShard l (shardFor x) <+: inShard (arriveAll l ss) (shardFor x) :=
    inShard_prefix_arriveAll
  rw [nameIn, nameIn, ← hmore, List.idxOf_append_of_mem (mem_inShard_self hx)]

end Arrivals

/-! ## Positions counted by arrival -/

/-- Counting the elements of a class that come before the first `s` is finding `s` among the
elements of that class, when `s` is of it. -/
theorem length_filter_takeWhile {α : Type} [BEq α] [LawfulBEq α] {p : α → Bool} {s : α}
    (hs : p s = true) (l : List α) :
    ((l.takeWhile (· != s)).filter p).length = (l.filter p).idxOf s := by
  induction l with
  | nil => rfl
  | cons x l ih =>
    by_cases hx : x = s
    · subst hx
      simp [hs]
    · have hne : (x != s) = true := by simpa using hx
      cases hp : p x
      · simp [hne, hp, ih]
      · simp [hne, hp, ih, List.idxOf_cons, beq_false_of_ne hx]

/-- Putting a passing element in the middle adds nothing else to what passes before the
first failure. -/
theorem mem_takeWhile_append_cons {α : Type} {p : α → Bool} {l m : List α} {x z : α}
    (hz : p z = true) (hxz : x ≠ z) :
    x ∈ (l ++ z :: m).takeWhile p ↔ x ∈ (l ++ m).takeWhile p := by
  induction l with
  | nil => simp [hz, hxz]
  | cons w l ih =>
    simp only [List.cons_append, List.takeWhile_cons]
    cases p w
    · rfl
    · simp only [if_true, List.mem_cons, ih]

/-- Repeating an element that is already in front changes nothing that passes before the
first failure. -/
theorem mem_takeWhile_append_cons_of_mem {α : Type} {p : α → Bool} {l m : List α} {x y : α}
    (hy : y ∈ l) : x ∈ (l ++ y :: m).takeWhile p ↔ x ∈ (l ++ m).takeWhile p := by
  induction l with
  | nil => cases hy
  | cons z l ih =>
    simp only [List.cons_append, List.takeWhile_cons]
    cases hz : p z
    · rfl
    · simp only [if_true, List.mem_cons]
      rcases List.mem_cons.mp hy with rfl | hy
      · -- the repeated element is the head, which passes: elsewhere nothing changes
        by_cases hxy : x = y
        · simp [hxy]
        · simp only [hxy, false_or]
          exact mem_takeWhile_append_cons hz hxy
      · rw [ih hy]

/-- The strings of the arrival list before `s` are the strings that arrived before `s` first
did. -/
theorem mem_takeWhile_arriveAll {l ss : List String} {s x : String} :
    x ∈ (arriveAll l ss).takeWhile (· != s) ↔ x ∈ (l ++ ss).takeWhile (· != s) := by
  induction ss generalizing l with
  | nil => simp [arriveAll_nil]
  | cons y ss ih =>
    rw [arriveAll_cons, ih, arrive]
    split
    next hy => exact (mem_takeWhile_append_cons_of_mem hy).symm
    next => rw [List.append_assoc, List.singleton_append]

/-- In a list of distinct strings that arrived in order, a string's place in its shard counts
the distinct strings of that shard that arrived before it first did. -/
theorem idxOf_inShard_arriveAll {l : List String} (hl : l.Nodup) (ss : List String) (s : String) :
    (inShard (arriveAll l ss) (shardFor s)).idxOf s =
      (((l ++ ss).takeWhile (· != s)).filter (shardFor · == shardFor s)).toFinset.card := by
  rw [inShard, ← length_filter_takeWhile (by simp)]
  -- the strings counted are held once each, so their number is their count as a set
  have hnd : (((arriveAll l ss).takeWhile (· != s)).filter (shardFor · == shardFor s)).Nodup :=
    ((nodup_arriveAll hl).sublist (List.takeWhile_sublist _)).filter _
  rw [← List.toFinset_card_of_nodup hnd]
  congr 1
  ext x
  simp only [List.mem_toFinset, List.mem_filter, mem_takeWhile_arriveAll]

/-- A list of distinct strings that arrived in order holds the distinct strings of a shard that
arrived. -/
theorem length_inShard_arriveAll {l : List String} (hl : l.Nodup) (ss : List String)
    (k : Fin shardCount) : (inShard (arriveAll l ss) k).length = (inShard (l ++ ss) k).toFinset.card := by
  have hnd : (inShard (arriveAll l ss) k).Nodup := (nodup_arriveAll hl).filter _
  rw [← List.toFinset_card_of_nodup hnd]
  congr 1
  ext x
  simp only [List.mem_toFinset, mem_inShard, mem_arriveAll, List.mem_append]

/-- A list is as long as its parts by shard, all together. -/
theorem length_eq_sum_inShard (l : List String) :
    l.length = ∑ k : Fin shardCount, (inShard l k).length := by
  induction l with
  | nil => simp [inShard]
  | cons x l ih =>
    -- the new string counts once, in its own shard
    have hx : ∑ k : Fin shardCount, (if shardFor x = k then 1 else 0) = 1 := by
      rw [Finset.sum_ite_eq]
      simp
    calc (x :: l).length = 1 + l.length := by simp [Nat.add_comm]
      _ = ∑ k : Fin shardCount, ((if shardFor x = k then 1 else 0) + (inShard l k).length) := by
        rw [Finset.sum_add_distrib, hx, ih]
      _ = ∑ k : Fin shardCount, (inShard (x :: l) k).length := by
        refine Finset.sum_congr rfl fun k _ => ?_
        by_cases h : shardFor x = k <;> simp [inShard, h, Nat.add_comm]

/-- Places after a new string arrives last in a list: it is at the old length, and every
other string where it was. -/
theorem place_append_singleton {m : List String} {s x : String} (hnot : s ∉ m) :
    (if x ∈ m ++ [s] then some ((m ++ [s]).idxOf x).toUInt32 else none) =
      if s = x then some m.length.toUInt32 else if x ∈ m then some (m.idxOf x).toUInt32 else none := by
  by_cases hx : s = x
  · subst hx
    simp [hnot, List.idxOf_append_of_notMem hnot]
  · have hx' : x ≠ s := fun e => hx e.symm
    by_cases hm : x ∈ m
    · simp [hx, hm, List.idxOf_append_of_mem hm]
    · simp [hx, hx', hm]

/-! ## The store and its arrival list -/

namespace Interner

/-- The interner holds exactly the strings of `l`, distinct and in arrival order: each shard
holds the strings of `l` that belong to it, in order, its map gives each of them its position,
the count is the number of strings, and no shard holds more strings than names point at. -/
structure Holds (i : Interner) (l : List String) : Prop where
  /-- The strings are distinct. -/
  nodup : l.Nodup
  /-- Each shard holds its strings in arrival order. -/
  strings : ∀ k, i.shards[k].strings.toList = inShard l k
  /-- Each shard's map gives its strings their positions, and nothing else a position. -/
  map : ∀ k x, i.shards[k].map.get? x =
    if x ∈ inShard l k then some ((inShard l k).idxOf x).toUInt32 else none
  /-- The count is the number of strings. -/
  count : i.totalCount = l.length
  /-- Every position fits a name. -/
  fits : ∀ k, (inShard l k).length ≤ Name.maxLocal.toNat + 1

variable {i : Interner} {l : List String} {s : String}

theorem shardFor_empty : (shardFor "").val = 0 := by simp [shardFor]

theorem holds_seeded : seeded.Holds [""] where
  nodup := List.nodup_singleton ""
  strings k := by
    by_cases hk : k.val = 0
    · have hk' : k = shardFor "" := Fin.ext (hk.trans shardFor_empty.symm)
      simp [seeded, inShard, hk', shardFor_empty, InternShard.withEmpty]
    · have hk' : shardFor "" ≠ k := fun h => hk (h ▸ shardFor_empty)
      simp [seeded, hk, inShard, hk', InternShard.new]
  map k x := by
    by_cases hk : k.val = 0
    · have hk' : k = shardFor "" := Fin.ext (hk.trans shardFor_empty.symm)
      by_cases hx : x = "" <;>
        simp [seeded, inShard, hk', shardFor_empty, InternShard.withEmpty, hx, eq_comm]
    · have hk' : shardFor "" ≠ k := fun h => hk (h ▸ shardFor_empty)
      simp [seeded, hk, inShard, hk', InternShard.new]
  count := rfl
  fits k := Nat.le_trans (List.length_filter_le _ _) (by decide)

/-- A string the interner holds keeps its name, and nothing changes. -/
theorem Holds.intern_of_mem (h : i.Holds l) (hs : s ∈ l) : i.intern s = .ok (i, nameIn l s) := by
  simp only [intern, h.map, mem_inShard_self hs, if_true]
  rfl

/-- A new string goes last in its shard, while the shard has room. -/
theorem Holds.intern_of_room (h : i.Holds l) (hs : s ∉ l)
    (hroom : (inShard l (shardFor s)).length ≤ Name.maxLocal.toNat) :
    ∃ i', i.intern s = .ok (i', nameIn (l ++ [s]) s) ∧ i'.Holds (l ++ [s]) := by
  have hnot : s ∉ inShard l (shardFor s) := fun hm => hs (mem_inShard.mp hm).1
  have hsize : i.shards[shardFor s].strings.size = (inShard l (shardFor s)).length := by
    rw [← Array.length_toList, h.strings]
  -- the new string's place is the number of strings its shard held
  have hname : nameIn (l ++ [s]) s =
      .new (shardFor s).val.toUInt32 (inShard l (shardFor s)).length.toUInt32 := by
    rw [nameIn, inShard_append_self rfl, List.idxOf_append_of_notMem hnot]
    simp
  have hrun : i.intern s = .ok (⟨i.shards.set (shardFor s)
      ⟨i.shards[shardFor s].map.insert s (inShard l (shardFor s)).length.toUInt32,
        i.shards[shardFor s].strings.push s⟩, i.totalCount + 1⟩, nameIn (l ++ [s]) s) := by
    simp only [intern, h.map, hnot, if_false, hsize, hroom, if_true, hname]
    rfl
  refine ⟨_, hrun, ?_⟩
  constructor
  case nodup => exact List.nodup_append.mpr ⟨h.nodup, List.nodup_singleton s,
      fun a ha b hb hab => hs (by rw [List.mem_singleton] at hb; rwa [← hb, ← hab])⟩
  case strings =>
    intro k
    rw [Fin.getElem_fin, Vector.getElem_set]
    by_cases hk : shardFor s = k
    · subst hk
      simp [← h.strings, inShard_append_self]
    · rw [if_neg (fun h' => hk (Fin.ext h')), ← Fin.getElem_fin, h.strings, inShard_append_of_ne hk]
  case map =>
    intro k x
    rw [Fin.getElem_fin, Vector.getElem_set]
    by_cases hk : shardFor s = k
    · subst hk
      simp only [if_true, PositionMap.get?_insert, h.map, inShard_append_self]
      exact (place_append_singleton hnot).symm
    · rw [if_neg (fun h' => hk (Fin.ext h')), ← Fin.getElem_fin, h.map, inShard_append_of_ne hk]
  case count => simp [h.count]
  case fits =>
    intro k
    by_cases hk : shardFor s = k
    · subst hk
      rw [inShard_append_self rfl, List.length_append, List.length_singleton]
      omega
    · rw [inShard_append_of_ne hk]
      exact h.fits k

/-- Interning goes through, keeping the invariant, for a string that is held or whose shard has
room. -/
theorem Holds.intern_ok (h : i.Holds l)
    (hroom : s ∈ l ∨ (inShard l (shardFor s)).length ≤ Name.maxLocal.toNat) :
    ∃ i', i.intern s = .ok (i', nameIn (arrive l s) s) ∧ i'.Holds (arrive l s) := by
  by_cases hs : s ∈ l
  · rw [arrive, if_pos hs]
    exact ⟨i, h.intern_of_mem hs, h⟩
  · rw [arrive, if_neg hs]
    exact h.intern_of_room hs (hroom.resolve_left hs)

/-- A new string for a shard that is full stops the interning. -/
theorem Holds.intern_full (h : i.Holds l) (hs : s ∉ l)
    (hfull : Name.maxLocal.toNat < (inShard l (shardFor s)).length) :
    i.intern s = .error (.shardOverflow (shardFor s) (inShard l (shardFor s)).length) := by
  have hnot : s ∉ inShard l (shardFor s) := fun hm => hs (mem_inShard.mp hm).1
  have hsize : i.shards[shardFor s].strings.size = (inShard l (shardFor s)).length := by
    rw [← Array.length_toList, h.strings]
  simp only [intern, h.map, hnot, if_false, hsize, Nat.not_le.mpr hfull]
  rfl

/-- Interning strings in order goes through when no shard is asked for more strings than names
point at, and the interner then holds the strings that arrived, each named by its place. -/
theorem Holds.internAll_ok (h : i.Holds l) (ss : List String)
    (hfit : ∀ k, (inShard (arriveAll l ss) k).length ≤ Name.maxLocal.toNat + 1) :
    ∃ i', i.internAll ss = (i', .ok (ss.map (nameIn (arriveAll l ss)))) ∧
      i'.Holds (arriveAll l ss) := by
  induction ss generalizing i l with
  | nil => exact ⟨i, rfl, h⟩
  | cons s ss ih =>
    rw [arriveAll_cons] at hfit ⊢
    -- the shard of `s` still has room before `s` arrives, as it is not full after the rest
    have hroom : s ∈ l ∨ (inShard l (shardFor s)).length ≤ Name.maxLocal.toNat := by
      by_cases hs : s ∈ l
      · exact .inl hs
      · refine .inr ?_
        have hle : (inShard (arrive l s) (shardFor s)).length ≤
            (inShard (arriveAll (arrive l s) ss) (shardFor s)).length :=
          inShard_prefix_arriveAll.length_le
        rw [arrive, if_neg hs, inShard_append_self rfl, List.length_append] at hle
        have := hfit (shardFor s)
        rw [arrive, if_neg hs] at this
        simp only [List.length_singleton] at hle
        omega
    obtain ⟨i₁, hi₁, h₁⟩ := h.intern_ok hroom
    obtain ⟨i₂, hi₂, h₂⟩ := ih h₁ hfit
    refine ⟨i₂, ?_, h₂⟩
    have hsame : nameIn (arriveAll (arrive l s) ss) s = nameIn (arrive l s) s :=
      nameIn_arriveAll_of_mem (mem_arrive.mpr (.inr rfl))
    simp only [internAll, hi₁, hi₂, List.map_cons, hsame]
    rfl

/-- Interning strings in order stops when some shard is asked for more strings than names point
at. -/
theorem Holds.internAll_stops (h : i.Holds l) (ss : List String)
    (hover : ∃ k, Name.maxLocal.toNat + 1 < (inShard (arriveAll l ss) k).length) :
    ∃ i' e, i.internAll ss = (i', .error e) := by
  induction ss generalizing i l with
  | nil =>
    obtain ⟨k, hk⟩ := hover
    exact absurd (h.fits k) (Nat.not_le.mpr hk)
  | cons s ss ih =>
    rw [arriveAll_cons] at hover
    by_cases hroom : s ∈ l ∨ (inShard l (shardFor s)).length ≤ Name.maxLocal.toNat
    · obtain ⟨i₁, hi₁, h₁⟩ := h.intern_ok hroom
      obtain ⟨i₂, e, hi₂⟩ := ih h₁ hover
      exact ⟨i₂, e, by simp only [internAll, hi₁, hi₂]; rfl⟩
    · have hs : s ∉ l := fun hs => hroom (.inl hs)
      have hfull := Nat.lt_of_not_le fun hle => hroom (.inr hle)
      exact ⟨i, .shardOverflow (shardFor s) (inShard l (shardFor s)).length,
        by simp only [internAll, h.intern_full hs hfull]⟩

/-- A run of interns that went through asked no shard for more strings than names point at, and
handed out the names of the strings in the arrival list it leaves. -/
theorem Holds.of_internAll (h : i.Holds l) {ss : List String} {i' : Interner} {ns : List Name}
    (hrun : i.internAll ss = (i', .ok ns)) :
    (∀ k, (inShard (arriveAll l ss) k).length ≤ Name.maxLocal.toNat + 1) ∧
      ns = ss.map (nameIn (arriveAll l ss)) ∧ i'.Holds (arriveAll l ss) := by
  have hfit : ∀ k, (inShard (arriveAll l ss) k).length ≤ Name.maxLocal.toNat + 1 := by
    intro k
    by_contra hk
    obtain ⟨i'', e, hstop⟩ := h.internAll_stops ss ⟨k, Nat.lt_of_not_le hk⟩
    rw [hrun] at hstop
    cases hstop
  obtain ⟨i'', hrun', h'⟩ := h.internAll_ok ss hfit
  rw [hrun] at hrun'
  obtain ⟨rfl, hns⟩ := Prod.mk.inj hrun'
  exact ⟨hfit, Except.ok.inj hns, h'⟩

/-- Interning strings in order goes through exactly when every shard has room for the distinct
strings that arrive in it. -/
theorem Holds.internAll_ok_iff (h : i.Holds l) (ss : List String) :
    (∃ i' ns, i.internAll ss = (i', .ok ns)) ↔
      ∀ k, ((l ++ ss).filter (shardFor · == k)).toFinset.card ≤ Name.maxLocal.toNat + 1 := by
  have hcount : ∀ k, ((l ++ ss).filter (shardFor · == k)).toFinset.card =
      (inShard (arriveAll l ss) k).length :=
    fun k => (length_inShard_arriveAll h.nodup ss k).symm
  simp only [hcount]
  constructor
  · rintro ⟨i', ns, hrun⟩
    exact (h.of_internAll hrun).1
  · intro hfit
    obtain ⟨i', hrun, -⟩ := h.internAll_ok ss hfit
    exact ⟨i', _, hrun⟩

/-- The place of a string a holding interner holds fits the local part of a name. -/
theorem Holds.idxOf_le (h : i.Holds l) (hs : s ∈ l) :
    (inShard l (shardFor s)).idxOf s ≤ Name.maxLocal.toNat := by
  have hlt := List.idxOf_lt_length_iff.mpr (mem_inShard_self hs)
  have := h.fits (shardFor s)
  omega

/-- A name a holding interner hands out looks up to its string. -/
theorem Holds.lookup_nameIn (h : i.Holds l) (hs : s ∈ l) : i.lookup (nameIn l s) = .ok s := by
  have hle := h.idxOf_le hs
  have hget : i.shards[shardFor s].strings[(inShard l (shardFor s)).idxOf s]? = some s := by
    rw [← Array.getElem?_toList, h.strings, List.getElem?_idxOf (mem_inShard_self hs)]
  simp only [lookup, nameIn, Name.shard_new _ hle, Name.localIndex_new _ hle, hget]

theorem Holds.shard_nameIn (h : i.Holds l) (hs : s ∈ l) : (nameIn l s).shard = shardFor s :=
  Name.shard_new _ (h.idxOf_le hs)

theorem Holds.localIndex_nameIn (h : i.Holds l) (hs : s ∈ l) :
    (nameIn l s).localIndex = (inShard l (shardFor s)).idxOf s :=
  Name.localIndex_new _ (h.idxOf_le hs)

/-- Two strings a holding interner holds have the same name only if they are the same string,
even when their first eight bytes agree. -/
theorem Holds.nameIn_inj {t : String} (h : i.Holds l) (hs : s ∈ l) (ht : t ∈ l) :
    nameIn l s = nameIn l t ↔ s = t := by
  constructor
  · intro heq
    have hshard : shardFor s = shardFor t := by
      rw [← h.shard_nameIn hs, ← h.shard_nameIn ht, heq]
    have hidx := congrArg Name.localIndex heq
    rw [h.localIndex_nameIn hs, h.localIndex_nameIn ht, hshard] at hidx
    exact (List.idxOf_inj (mem_inShard.mpr ⟨hs, hshard⟩)).mp hidx
  · rintro rfl
    rfl

/-! ### The shards and the count -/

theorem Holds.count_eq_sum (h : i.Holds l) :
    i.totalCount = ∑ k : Fin shardCount, i.shards[k].strings.size := by
  rw [h.count, length_eq_sum_inShard]
  refine Finset.sum_congr rfl fun k _ => ?_
  rw [← Array.length_toList, h.strings]

theorem Holds.nodup_strings (h : i.Holds l) (k : Fin shardCount) :
    i.shards[k].strings.toList.Nodup := by
  rw [h.strings]
  exact h.nodup.filter _

theorem Holds.shardFor_of_mem {k : Fin shardCount} {x : String} (h : i.Holds l)
    (hx : x ∈ i.shards[k].strings) : shardFor x = k := by
  rw [← Array.mem_toList_iff, h.strings] at hx
  exact (mem_inShard.mp hx).2

/-- A shard's map sends the string at each position to that position. -/
theorem Holds.map_getElem (h : i.Holds l) (k : Fin shardCount) {j : Nat}
    (hj : j < i.shards[k].strings.size) :
    i.shards[k].map.get? i.shards[k].strings[j] = some j.toUInt32 := by
  have hj' : j < (inShard l k).length := by
    rwa [← h.strings, Array.length_toList]
  have hget : i.shards[k].strings[j] = (inShard l k)[j] := by
    simp only [← Array.getElem_toList, h.strings]
  have hnd : (inShard l k).Nodup := h.nodup.filter _
  rw [h.map, hget, if_pos (List.getElem_mem hj'), hnd.idxOf_getElem j hj']

theorem Holds.map_of_not_mem {k : Fin shardCount} {x : String} (h : i.Holds l)
    (hx : x ∉ i.shards[k].strings) : i.shards[k].map.get? x = none := by
  rw [h.map, if_neg]
  rwa [← h.strings, Array.mem_toList_iff]

theorem Holds.len_eq_card (h : i.Holds l) : i.len = l.toFinset.card := by
  rw [len, h.count, ← List.toFinset_card_of_nodup h.nodup]

/-! ### A new interner -/

theorem arriveAll_vocabulary : arriveAll [""] vocabulary = "" :: vocabulary := by decide

/-- A new interner holds the empty string and then the vocabulary. -/
theorem new_holds : ∃ i₀, new = .ok i₀ ∧ i₀.Holds ("" :: vocabulary) := by
  have hfit : ∀ k, (inShard (arriveAll [""] vocabulary) k).length ≤ Name.maxLocal.toNat + 1 :=
    fun k => Nat.le_trans (List.length_filter_le _ _) (by decide)
  obtain ⟨i₀, hrun, hholds⟩ := holds_seeded.internAll_ok vocabulary hfit
  refine ⟨i₀, ?_, arriveAll_vocabulary ▸ hholds⟩
  unfold Interner.new internEvery
  rw [hrun]

/-- From a new interner, for every sequence of strings: interning them in order goes through
exactly when no shard is asked for more than `2 ^ 28` distinct strings. After it, each shard
holds distinct strings, all of that shard, and its map sends the string at each position to
that position and nothing else anywhere; the count is the number of strings the shards hold,
and the number of distinct strings that arrived, the empty string and the vocabulary included.
Every string is handed a name that looks up to it, whose shard is the string's and whose
position counts the distinct strings of that shard that arrived before it first did (so the
empty string is position 0 of shard 0); and two names are equal as 32-bit numbers exactly when
their strings are equal. -/
theorem new_internAll_store (ss : List String) :
    ∃ i₀, Interner.new = .ok i₀ ∧
      ((∃ i ns, i₀.internAll ss = (i, .ok ns)) ↔
        ∀ k : Fin shardCount,
          ((("" :: vocabulary) ++ ss).filter (shardFor · == k)).toFinset.card ≤
            Name.maxLocal.toNat + 1) ∧
      ∀ i ns, i₀.internAll ss = (i, .ok ns) →
        (∀ k : Fin shardCount, i.shards[k].strings.toList.Nodup ∧
          (∀ x ∈ i.shards[k].strings, shardFor x = k) ∧
          (∀ (j : Nat) (hj : j < i.shards[k].strings.size),
            i.shards[k].map.get? i.shards[k].strings[j] = some j.toUInt32) ∧
          ∀ x, x ∉ i.shards[k].strings → i.shards[k].map.get? x = none) ∧
        i.len = ∑ k : Fin shardCount, i.shards[k].strings.size ∧
        i.len = (("" :: vocabulary) ++ ss).toFinset.card ∧
        ns.length = ss.length ∧
        (∀ s n, (s, n) ∈ ss.zip ns →
          i.lookup n = .ok s ∧ n.shard = shardFor s ∧
          n.localIndex =
            (((("" :: vocabulary) ++ ss).takeWhile (· != s)).filter
              (shardFor · == shardFor s)).toFinset.card) ∧
        ∀ s n t m, (s, n) ∈ ss.zip ns → (t, m) ∈ ss.zip ns → (n.raw = m.raw ↔ s = t) := by
  obtain ⟨i₀, hnew, h₀⟩ := new_holds
  refine ⟨i₀, hnew, ?_, ?_⟩
  · exact h₀.internAll_ok_iff ss
  · intro i ns hrun
    -- a run that went through handed out the names of the strings in the final arrival list
    obtain ⟨-, rfl, h⟩ := h₀.of_internAll hrun
    have hzip : ∀ s n, (s, n) ∈ ss.zip (ss.map (nameIn (arriveAll ("" :: vocabulary) ss))) →
        s ∈ ss ∧ n = nameIn (arriveAll ("" :: vocabulary) ss) s := by
      intro s n hsn
      rw [← List.map_prod_left_eq_zip, List.mem_map] at hsn
      obtain ⟨a, ha, he⟩ := hsn
      cases he
      exact ⟨ha, rfl⟩
    refine ⟨fun k => ⟨h.nodup_strings k, fun x => h.shardFor_of_mem, fun j => h.map_getElem k,
      fun x => h.map_of_not_mem⟩, h.count_eq_sum, ?_, by simp, ?_, ?_⟩
    · rw [h.len_eq_card, toFinset_arriveAll]
    · intro s n hsn
      obtain ⟨hs, rfl⟩ := hzip s n hsn
      have hidx := idxOf_inShard_arriveAll h₀.nodup ss s
      refine ⟨h.lookup_nameIn (mem_arriveAll_of_mem hs), h.shard_nameIn (mem_arriveAll_of_mem hs), ?_⟩
      rw [h.localIndex_nameIn (mem_arriveAll_of_mem hs)]
      exact hidx
    · intro s n t m hsn htm
      obtain ⟨hs, rfl⟩ := hzip s n hsn
      obtain ⟨ht, rfl⟩ := hzip t m htm
      rw [← h.nameIn_inj (mem_arriveAll_of_mem hs) (mem_arriveAll_of_mem ht), Name.mk.injEq]

end Interner

end ProgressionIdioms
