import ProgressionIdioms.OutOfRange
/-!
# The string interner

An interner hands out a name for each distinct string. Strings are spread over sixteen shards
by a hash of their first eight bytes; each shard keeps its strings in arrival order, with a map
from each string to its position. A name packs its shard into the top four bits of a 32-bit
number and its position into the low 28, so a shard holds at most `2 ^ 28` strings, and a new
string for a full shard stops the interning. The interner also counts the strings it holds.

A new interner holds the empty string, first in shard 0, and then the vocabulary every
progression-aware pass uses.
-/

namespace ProgressionIdioms

/-- The number of shards names are spread over. -/
def shardCount : Nat := 16

/-- The shard of a string: a hash over its first eight UTF-8 bytes, `h * 31 + b` in
wrapping 32-bit arithmetic, reduced modulo the number of shards. -/
def shardFor (s : String) : Fin shardCount :=
  ⟨(((s.toUTF8.toList.take 8).foldl (fun h b => h * 31 + b.toUInt32) (0 : UInt32)).toNat) %
    shardCount, Nat.mod_lt _ (by decide)⟩

/-- The name of an interned string: the shard in the top four of 32 bits, the position within
the shard in the low 28. -/
structure Name where
  /-- The packed form. -/
  raw : UInt32
deriving DecidableEq, Repr

namespace Name

/-- The largest position a name can hold. -/
def maxLocal : UInt32 := 0x0FFFFFFF

/-- The name of the empty string: position 0 of shard 0. -/
def empty : Name := ⟨0⟩

/-- The name of a position within a shard. -/
def new (shard loc : UInt32) : Name := ⟨(shard <<< 28) ||| loc⟩

/-- The top four bits of 32 name one of the sixteen shards. -/
theorem shardBits_lt (n : Name) : (n.raw >>> 28).toNat < shardCount := by
  have h := n.raw.toNat_lt
  rw [UInt32.toNat_shiftRight, show (28 : UInt32).toNat % 32 = 28 from rfl, Nat.shiftRight_eq_div_pow]
  exact Nat.div_lt_of_lt_mul (by simpa [shardCount] using h)

/-- The shard a name points into: its top four bits. -/
def shard (n : Name) : Fin shardCount := ⟨(n.raw >>> 28).toNat, n.shardBits_lt⟩

/-- The position a name points at within its shard: its low 28 bits. -/
def localIndex (n : Name) : Nat := (n.raw &&& maxLocal).toNat

end Name

/-- The words a new interner knows, after the empty string. -/
def vocabulary : List String :=
  ["rangeTo", "downTo", "until", "step", "indices", "<get-indices>", "size", "<get-size>",
   "checkProgressionStep", "toInt", "toLong", "toChar", "core", "ranges", "collections"]

/-- A map from strings to positions: each key answers the value it was last inserted with. -/
structure PositionMap where
  /-- The insertions, the latest first. -/
  insertions : List (String × UInt32)
deriving Repr

namespace PositionMap

/-- The map with no keys. -/
def empty : PositionMap := ⟨[]⟩

/-- The value of a key, if it has one. -/
def get? (m : PositionMap) (k : String) : Option UInt32 :=
  (m.insertions.find? (·.1 == k)).map (·.2)

/-- Gives a key a value. -/
def insert (m : PositionMap) (k : String) (v : UInt32) : PositionMap := ⟨(k, v) :: m.insertions⟩

@[simp]
theorem get?_empty (k : String) : empty.get? k = none := rfl

@[simp]
theorem get?_insert (m : PositionMap) (k : String) (v : UInt32) (x : String) :
    (m.insert k v).get? x = if k = x then some v else m.get? x := by
  by_cases h : k = x <;> simp [get?, insert, h]

end PositionMap

/-- One shard of an interner: its strings in arrival order and the position of each. -/
structure InternShard where
  /-- The position of each string of the shard. -/
  map : PositionMap
  /-- The strings, in arrival order. -/
  strings : Array String
deriving Repr

namespace InternShard

/-- A shard with no strings. -/
def new : InternShard := ⟨.empty, #[]⟩

/-- A shard holding only the empty string. -/
def withEmpty : InternShard := ⟨PositionMap.empty.insert "" 0, #[""]⟩

end InternShard

/-- Why interning stopped. -/
inductive InternError where
  /-- A new string for a shard that already holds as many strings as names can point at. -/
  | shardOverflow (shardIdx count : Nat)
deriving DecidableEq, Repr

/-- The message reported when interning stops. -/
def InternError.message : InternError → String
  | .shardOverflow k n =>
    "interner shard " ++ toString k ++ " exceeded capacity: " ++ toString n ++
      " strings, max is " ++ toString Name.maxLocal.toNat

/-- A string interner: sixteen shards and the number of strings they hold. -/
structure Interner where
  /-- The shards. -/
  shards : Vector InternShard shardCount
  /-- The number of strings interned, the empty string included. -/
  totalCount : Nat
deriving Repr

namespace Interner

/-- The interner holding only the empty string, first in shard 0. -/
def seeded : Interner :=
  ⟨Vector.ofFn fun k => if k.val = 0 then .withEmpty else .new, 1⟩

/-- Interns a string. A string its shard holds keeps its name. A new one goes last in its
shard, unless the shard already holds a string at every position a name can point at; then
interning stops and the interner is unchanged. -/
def intern (i : Interner) (s : String) : Except InternError (Interner × Name) :=
  let k := shardFor s
  let shard := i.shards[k]
  match shard.map.get? s with
  | some loc => pure (i, .new k.val.toUInt32 loc)
  | none =>
    let count := shard.strings.size
    -- the position must fit in 32 bits and in the 28 bits a name keeps for it
    if count ≤ Name.maxLocal.toNat then
      let loc := count.toUInt32
      let shard' : InternShard := ⟨shard.map.insert s loc, shard.strings.push s⟩
      pure (⟨i.shards.set k shard', i.totalCount + 1⟩, .new k.val.toUInt32 loc)
    else throw (.shardOverflow k count)

/-- The string a name stands for: the string at the name's position in its shard. A position
past the end of the shard is a read past the end. -/
def lookup (i : Interner) (n : Name) : Except OutOfRange String :=
  let strings := i.shards[n.shard].strings
  match strings[n.localIndex]? with
  | some s => .ok s
  | none => .error ⟨strings.size, n.localIndex⟩

/-- The number of strings interned, the empty string included. -/
def len (i : Interner) : Nat := i.totalCount

/-- Interns strings in order, with their names. The first string that overflows its shard stops
the rest; the strings interned before it stay. -/
def internAll (i : Interner) : List String → Interner × Except InternError (List Name)
  | [] => (i, .ok [])
  | s :: ss =>
    match i.intern s with
    | .error e => (i, .error e)
    | .ok (i', n) =>
      let (i'', ns) := i'.internAll ss
      (i'', (n :: ·) <$> ns)

/-- The interner after interning strings in order, or why it stopped. -/
def internEvery (i : Interner) (ss : List String) : Except InternError Interner :=
  match i.internAll ss with
  | (i', .ok _) => .ok i'
  | (_, .error e) => .error e

/-- A new interner: the empty string, then the vocabulary. -/
def new : Except InternError Interner := seeded.internEvery vocabulary

end Interner

end ProgressionIdioms
