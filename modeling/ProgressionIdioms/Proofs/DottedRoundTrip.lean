import ProgressionIdioms.Names.Dotted
import ProgressionIdioms.Proofs.InternerStore
import Mathlib.Data.List.TakeWhile
/-!
# Reading and displaying qualified names

A dotted path is cut at every dot, except that the empty path has no segments at all; joining
the segments with dots gives the path back whatever it holds (empty segments, a leading or
trailing dot, a lone dot). A path with `d` dots has `d + 1` segments, and its innermost segment
is what follows its last dot.

Reading a path as a qualified name interns its segments in order. In an interner that holds
an arrival list, every name handed out looks up to its segment in the interner that reading
leaves and in every later one, so displaying the name gives the path back, and two paths read
one after the other give equal names exactly when they are equal
(`QualifiedName.parse_roundTrip`).
-/

namespace ProgressionIdioms

/-! ## Cutting a list at a separator -/

section Cut

variable {α : Type} [BEq α]

/-- Cutting at a separator gives one piece more than there are separators. -/
theorem length_splitOn (a : α) (xs : List α) : (xs.splitOn a).length = xs.count a + 1 := by
  induction xs with
  | nil => simp
  | cons x xs ih =>
    rw [List.splitOn_cons_eq_if_modifyHead, List.count_cons]
    split <;> simp_all

/-- The last piece of a cut is what follows the last separator. -/
theorem getLast_splitOn [LawfulBEq α] (a : α) (xs : List α) :
    (xs.splitOn a).getLast (List.splitOn_ne_nil a xs) = (xs.reverse.takeWhile (· != a)).reverse := by
  -- read backwards, the list is its last piece and then, if there is one, the last separator
  have hsplit : xs.reverse = xs.reverse.takeWhile (· != a) ++ xs.reverse.dropWhile (· != a) :=
    List.takeWhile_append_dropWhile.symm
  have hpiece : a ∉ (xs.reverse.takeWhile (· != a)).reverse := fun ha => by
    simpa using List.mem_takeWhile_imp (List.mem_reverse.mp ha)
  have hhead : ∀ b rest, xs.reverse.dropWhile (· != a) = b :: rest → b = a := fun b rest h => by
    simpa [h] using @List.head_dropWhile_not _ (· != a) xs.reverse (by simp [h])
  generalize xs.reverse.takeWhile (· != a) = piece at hsplit hpiece ⊢
  rcases hdrop : xs.reverse.dropWhile (· != a) with _ | ⟨b, rest⟩
  · -- no separator at all: the list is one piece
    have hxs : xs = piece.reverse := by
      rw [← List.reverse_reverse xs, hsplit, hdrop, List.append_nil]
    subst hxs
    simp only [List.splitOn_eq_singleton hpiece, List.getLast_singleton]
  · have hxs : xs = rest.reverse ++ a :: piece.reverse := by
      rw [← List.reverse_reverse xs, hsplit, hdrop, hhead b rest hdrop]
      simp
    subst hxs
    simp only [List.splitOn_append_cons_self, List.splitOn_eq_singleton hpiece]
    simp

end Cut

/-! ## The segments of a path -/

namespace DottedName

variable {p q : String}

theorem parse_eq_of_ne_empty (h : p ≠ "") :
    parse p = ⟨(p.toList.splitOn '.').map String.ofList⟩ := by
  simp [parse, h]

theorem segments_parse_eq_nil_iff : (parse p).segments = [] ↔ p = "" := by
  by_cases h : p = ""
  · simp [h, parse]
  · simp [parse_eq_of_ne_empty h, h]

/-- Joining the segments with dots gives the path. -/
theorem intercalate_segments_parse (p : String) : ".".intercalate (parse p).segments = p := by
  by_cases h : p = ""
  · simp [h, parse]
  · rw [parse_eq_of_ne_empty h, ← String.toList_inj, String.toList_intercalate, List.map_map]
    simp [Function.comp_def, show ".".toList = ['.'] from rfl]

theorem segments_parse_inj : (parse p).segments = (parse q).segments ↔ p = q := by
  constructor
  · intro h
    rw [← intercalate_segments_parse p, h, intercalate_segments_parse]
  · rintro rfl
    rfl

theorem length_segments_parse (p : String) :
    (parse p).segments.length = if p = "" then 0 else p.toList.count '.' + 1 := by
  by_cases h : p = ""
  · simp [h, parse]
  · simp [parse_eq_of_ne_empty h, h, length_splitOn]

/-- The innermost segment is what follows the last dot, or the whole path when it has none. -/
theorem last?_parse (p : String) :
    (parse p).last? =
      if p = "" then none else some (String.ofList (p.toList.reverse.takeWhile (· != '.')).reverse) := by
  by_cases h : p = ""
  · simp [h, parse, last?]
  · rw [parse_eq_of_ne_empty h, last?, if_neg h, List.getLast?_map,
      List.getLast?_eq_some_getLast (List.splitOn_ne_nil _ _), getLast_splitOn]
    rfl

end DottedName

/-! ## Looking names up -/

namespace Interner

variable {i : Interner} {l : List String}

/-- Looking up, one by one, the names of strings a holding interner holds gives the strings
back. -/
theorem Holds.mapM_lookup_nameIn (h : i.Holds l) {ts : List String} (hts : ∀ t ∈ ts, t ∈ l) :
    (ts.map (nameIn l)).mapM i.lookup = .ok ts := by
  induction ts with
  | nil => rfl
  | cons t ts ih =>
    rw [List.map_cons, List.mapM_cons, h.lookup_nameIn (hts t List.mem_cons_self),
      ih fun u hu => hts u (List.mem_cons_of_mem t hu)]
    rfl

/-- Names handed out from an arrival list stay the names of their strings after more strings
arrive. -/
theorem map_nameIn_arriveAll {ts ss : List String} (hts : ∀ t ∈ ts, t ∈ l) :
    ts.map (nameIn (arriveAll l ss)) = ts.map (nameIn l) :=
  List.map_congr_left fun t ht => nameIn_arriveAll_of_mem (hts t ht)

end Interner

/-! ## Reading and displaying a qualified name -/

namespace QualifiedName

variable {i : Interner} {l : List String}

theorem parse_eq_ok_iff {i' : Interner} {p : String} {q : QualifiedName} :
    parse i p = (i', .ok q) ↔ i.internAll (DottedName.parse p).segments = (i', .ok q.segments) := by
  unfold parse
  rcases i.internAll (DottedName.parse p).segments with ⟨i₁, e | ns⟩
  · simp [Functor.map, Except.map]
  · cases q
    simp [Functor.map, Except.map]

/-- A name read from a path displays as the path in every interner that holds its segments
at the places they had. -/
theorem display_map_nameIn {i' : Interner} {L : List String} (h : i'.Holds L) (p : String)
    (hseg : ∀ t ∈ (DottedName.parse p).segments, t ∈ L) :
    (⟨(DottedName.parse p).segments.map (nameIn L)⟩ : QualifiedName).display i' = .ok p := by
  rw [display, h.mapM_lookup_nameIn hseg]
  exact congrArg Except.ok (DottedName.intercalate_segments_parse p)

/-- A name read in a holding interner is made of the names its segments have in the arrival
list reading leaves, and the interner reading leaves holds that list. -/
theorem eq_of_parse (h : i.Holds l) {i' : Interner} {p : String} {q : QualifiedName}
    (hrun : parse i p = (i', .ok q)) :
    q = ⟨(DottedName.parse p).segments.map (nameIn (arriveAll l (DottedName.parse p).segments))⟩ ∧
      i'.Holds (arriveAll l (DottedName.parse p).segments) := by
  obtain ⟨-, hq, h'⟩ := h.of_internAll (parse_eq_ok_iff.mp hrun)
  obtain ⟨qs⟩ := q
  cases hq
  exact ⟨rfl, h'⟩

/-- Two paths read one after the other give equal names exactly when they are the same path. -/
theorem eq_iff_of_parse_parse (h : i.Holds l) {i' i'' : Interner} {p p' : String}
    {q q' : QualifiedName} (hrun : parse i p = (i', .ok q)) (hrun' : parse i' p' = (i'', .ok q')) :
    q = q' ↔ p = p' := by
  obtain ⟨rfl, h'⟩ := eq_of_parse h hrun
  obtain ⟨rfl, h''⟩ := eq_of_parse h' hrun'
  -- the first name keeps the names of its segments after the second reading
  have hsame : (DottedName.parse p).segments.map (nameIn (arriveAll
      (arriveAll l (DottedName.parse p).segments) (DottedName.parse p').segments)) =
      (DottedName.parse p).segments.map (nameIn (arriveAll l (DottedName.parse p).segments)) :=
    Interner.map_nameIn_arriveAll fun _ => mem_arriveAll_of_mem
  constructor
  · -- both names display in the interner the second reading leaves
    intro heq
    have hdisplay := display_map_nameIn h'' p
      fun _ ht => mem_arriveAll.mpr (.inl (mem_arriveAll_of_mem ht))
    rw [hsame, heq, display_map_nameIn h'' p' fun _ => mem_arriveAll_of_mem] at hdisplay
    exact (Except.ok.inj hdisplay).symm
  · rintro rfl
    exact congrArg mk hsame.symm

/-- For every interner that holds an arrival list (every interner a program builds from a new
one) and every path: reading the path goes through exactly when its segments fit their shards.
Then the name read displays as the path in the interner reading leaves; it has no segments
exactly for the empty path and otherwise one more than the path's dots; its innermost segment
looks up to what follows the last dot, and is absent exactly for the empty path; and a second
path read afterwards gives an equal name exactly when it is the same path. -/
theorem parse_roundTrip (i : Interner) (l : List String) (h : i.Holds l) (p : String) :
    ((∃ i' q, parse i p = (i', .ok q)) ↔
      ∀ k, ((l ++ (DottedName.parse p).segments).filter (shardFor · == k)).toFinset.card ≤
        Name.maxLocal.toNat + 1) ∧
    ∀ i' q, parse i p = (i', .ok q) →
      q.display i' = .ok p ∧
      (q.segments = [] ↔ p = "") ∧
      q.segments.length = (if p = "" then 0 else p.toList.count '.' + 1) ∧
      q.last?.map i'.lookup =
        (if p = "" then none
         else some (.ok (String.ofList (p.toList.reverse.takeWhile (· != '.')).reverse))) ∧
      ∀ p' i'' q', parse i' p' = (i'', .ok q') → (q = q' ↔ p = p') := by
  refine ⟨?_, ?_⟩
  · -- reading goes through exactly when interning the segments does
    rw [← h.internAll_ok_iff]
    constructor
    · rintro ⟨i', q, hrun⟩
      exact ⟨i', q.segments, parse_eq_ok_iff.mp hrun⟩
    · rintro ⟨i', ns, hrun⟩
      exact ⟨i', ⟨ns⟩, parse_eq_ok_iff.mpr hrun⟩
  · intro i' q hrun
    obtain ⟨rfl, h'⟩ := eq_of_parse h hrun
    refine ⟨display_map_nameIn h' p fun _ => mem_arriveAll_of_mem, ?_, ?_, ?_,
      fun p' i'' q' hrun' => eq_iff_of_parse_parse h hrun hrun'⟩
    · rw [List.map_eq_nil_iff, DottedName.segments_parse_eq_nil_iff]
    · rw [List.length_map, DottedName.length_segments_parse]
    · -- the innermost name looks up to the innermost segment, which the interner holds
      have hlast : (DottedName.parse p).last?.map (i'.lookup ∘ nameIn (arriveAll l
          (DottedName.parse p).segments)) = (DottedName.parse p).last?.map Except.ok :=
        Option.map_congr fun t ht => h'.lookup_nameIn (mem_arriveAll_of_mem (List.mem_of_getLast? ht))
      rw [last?, List.getLast?_map, Option.map_map, ← DottedName.last?, hlast,
        DottedName.last?_parse]
      split <;> rfl

/-- Reading a path of two segments into the seeded interner: it goes through, and the name
displays as the path. -/
theorem parse_roundTrip_core_ranges : Interner.seeded.Holds [""] ∧
    ∃ i' q, parse Interner.seeded "core.ranges" = (i', .ok q) ∧
      q.display i' = .ok "core.ranges" ∧ q.segments.length = 2 := by
  obtain ⟨hfits, hread⟩ := parse_roundTrip Interner.seeded [""] Interner.holds_seeded "core.ranges"
  have hlen : ([""] ++ (DottedName.parse "core.ranges").segments).length = 3 := by
    simp [DottedName.length_segments_parse]
  obtain ⟨i', q, hrun⟩ := hfits.mpr fun k =>
    (List.toFinset_card_le _).trans ((List.length_filter_le _ _).trans (hlen ▸ by decide))
  obtain ⟨hdisplay, -, hlength, -⟩ := hread i' q hrun
  exact ⟨Interner.holds_seeded, i', q, hrun, hdisplay, by simpa using hlength⟩

end QualifiedName

end ProgressionIdioms
