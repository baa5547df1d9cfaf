import Tidehunter.Index.FlatBuffer
import Tidehunter.Index.Cursor

/-!
# Searching a flat buffer

The readers of a table look into the flat buffer by binary search: for one key, and for the
entry behind a cursor in either direction. In a buffer with ascending keys they give what the
sorted map of its entries gives.
-/

namespace Tidehunter.Index.Flat

open Library Wal

/-! ## The readers -/

/-- The entry of a key. -/
def flatBinarySearch (flat : Bytes) (keySize : Option Nat) (key : Bytes) :
    Option IndexWalPosition :=
  if flat.isEmpty then none
  else
    let idx := flatLowerBound flat keySize key
    if flatCount flat keySize ≤ idx then none
    else
      let found := flatEntryAt flat keySize idx
      if found.1 = key then some found.2 else none

/-- The first entry with a key above the cursor. -/
def flatNextForward (flat : Bytes) (keySize : Option Nat) (prev : Option Bytes) :
    Option FlatEntry :=
  if flat.isEmpty then none
  else
    let idx := match prev with
      | some key => flatUpperBound flat keySize key
      | none => 0
    if flatCount flat keySize ≤ idx then none else some (flatEntryAt flat keySize idx)

/-- The last entry with a key below the cursor. -/
def flatNextReverse (flat : Bytes) (keySize : Option Nat) (prev : Option Bytes) :
    Option FlatEntry :=
  if flat.isEmpty then none
  else
    let count := match prev with
      | some key => flatLowerBound flat keySize key
      | none => flatCount flat keySize
    if count = 0 then none else some (flatEntryAt flat keySize (count - 1))

def flatNext (flat : Bytes) (keySize : Option Nat) : Direction → Option Bytes → Option FlatEntry
  | .forward => flatNextForward flat keySize
  | .backward => flatNextReverse flat keySize

/-! ## Entries by their place -/

@[simp]
theorem length_flatIter (flat : Bytes) (keySize : Option Nat) :
    (flatIter flat keySize).length = flatCount flat keySize := by
  rw [flatIter, List.length_map, List.length_range]

theorem flatCount_of_isEmpty {flat : Bytes} (nothing : flat.isEmpty = true)
    (keySize : Option Nat) : flatCount flat keySize = 0 := by
  unfold flatCount
  rw [if_pos nothing]

theorem flatIter_of_isEmpty {flat : Bytes} (nothing : flat.isEmpty = true)
    (keySize : Option Nat) : flatIter flat keySize = [] := by
  rw [flatIter, flatCount_of_isEmpty nothing, List.range_zero, List.map_nil]

theorem getElem?_flatIter {flat : Bytes} {keySize : Option Nat} {idx : Nat}
    (inside : idx < flatCount flat keySize) :
    (flatIter flat keySize)[idx]? = some (flatEntryAt flat keySize idx) := by
  rw [flatIter, List.getElem?_map, List.getElem?_range inside, Option.map_some]

section Sorted

variable {flat : Bytes} {keySize : Option Nat}

/-- The keys of a buffer ascend. -/
def Ascending (flat : Bytes) (keySize : Option Nat) : Prop :=
  (flatIter flat keySize).Pairwise fun first second => first.1 < second.1

/-- The sorted map of the entries. -/
def flatMap (flat : Bytes) (keySize : Option Nat) (ascending : Ascending flat keySize) :
    SortedMap Bytes IndexWalPosition :=
  ⟨flatIter flat keySize, ascending⟩

variable (ascending : Ascending flat keySize)

include ascending in
/-- Bisection by a test on the keys that holds on a front part. -/
theorem splitsAt_bisect {front : Bytes → Bool}
    (downward : ∀ first second, first ≤ second → front second = true → front first = true) :
    SplitsAt (flatIter flat keySize) (fun key => front key = true)
      (bisect (fun mid => front (flatEntryAt flat keySize mid).1) (flatCount flat keySize)) := by
  have bounds := @bisect_spec (fun mid => front (flatEntryAt flat keySize mid).1)
    (flatCount flat keySize) fun first second order inside holds =>
      downward _ _ (le_of_place_le ascending (getElem?_flatIter (by omega))
        (getElem?_flatIter inside) order) holds
  refine ⟨by rw [length_flatIter]; exact bounds.1, fun index binding found => ?_⟩
  have inside : index < flatCount flat keySize := by
    rw [← length_flatIter]
    exact (List.getElem?_eq_some_iff.mp found).1
  rw [getElem?_flatIter inside] at found
  obtain rfl := Option.some.inj found
  exact bounds.2 index inside

include ascending in
theorem splitsAt_flatLowerBound (target : Bytes) :
    SplitsAt (flatIter flat keySize) (fun key => key < target)
      (flatLowerBound flat keySize target) := by
  have splits := @splitsAt_bisect flat keySize ascending (fun key => decide (key < target)) (by
    intro first second order below
    exact decide_eq_true (order.trans_lt (of_decide_eq_true below)))
  simp only [decide_eq_true_eq] at splits
  exact splits

include ascending in
theorem splitsAt_flatUpperBound (target : Bytes) :
    SplitsAt (flatIter flat keySize) (fun key => key ≤ target)
      (flatUpperBound flat keySize target) := by
  have splits := @splitsAt_bisect flat keySize ascending (fun key => decide (key ≤ target)) (by
    intro first second order below
    exact decide_eq_true (order.trans (of_decide_eq_true below)))
  simp only [decide_eq_true_eq] at splits
  exact splits

/-! ## The readers give what the sorted map gives -/

theorem entries_flatMap : (flatMap flat keySize ascending).entries = flatIter flat keySize := rfl

theorem lookup_flatMap_of_isEmpty (nothing : flat.isEmpty = true) (key : Bytes) :
    (flatMap flat keySize ascending).lookup key = none := by
  refine Option.eq_none_iff_forall_ne_some.mpr fun value bound => ?_
  have member := SortedMap.mem_entries_of_lookup bound
  rw [entries_flatMap, flatIter_of_isEmpty nothing] at member
  cases member

theorem flatBinarySearch_eq (key : Bytes) :
    flatBinarySearch flat keySize key = (flatMap flat keySize ascending).lookup key := by
  have splits := splitsAt_flatLowerBound ascending key
  unfold flatBinarySearch
  split
  · rename_i nothing
    exact (lookup_flatMap_of_isEmpty ascending nothing key).symm
  · simp only
    split
    · rename_i beyond
      refine Eq.symm (Option.eq_none_iff_forall_ne_some.mpr fun value bound => ?_)
      obtain ⟨index, present⟩ := List.mem_iff_getElem?.mp (SortedMap.mem_entries_of_lookup bound)
      have inside := (List.getElem?_eq_some_iff.mp present).1
      rw [entries_flatMap, length_flatIter] at inside
      exact absurd ((splits.2 index _ present).mp (by omega)) (lt_irrefl key)
    · rename_i inside
      have found := getElem?_flatIter (Nat.lt_of_not_le inside)
      split
      · rename_i same
        have member : (key, (flatEntryAt flat keySize (flatLowerBound flat keySize key)).2) ∈
            flatIter flat keySize := by
          have present := List.mem_of_getElem? found
          rwa [← Prod.mk.eta (p := flatEntryAt flat keySize _), same] at present
        exact (SortedMap.lookup_of_mem_entries member).symm
      · rename_i different
        refine Eq.symm (Option.eq_none_iff_forall_ne_some.mpr fun value bound => ?_)
        obtain ⟨index, present⟩ := List.mem_iff_getElem?.mp (SortedMap.mem_entries_of_lookup bound)
        -- the place of the key would be at or behind the bound, whose key is already greater
        have behind : flatLowerBound flat keySize key ≤ index := by
          by_contra before
          exact lt_irrefl key ((splits.2 index _ present).mp (Nat.lt_of_not_le before))
        have upTo := le_of_place_le ascending found present behind
        have notBelow := mt (splits.2 _ _ found).mpr (Nat.lt_irrefl _)
        exact different (le_antisymm upTo (not_lt.mp notBelow))

theorem nextIn_flatNextForward (prev : Option Bytes) :
    NextIn .forward (Direction.forward.Past prev) (flatMap flat keySize ascending).lookup
      (flatNextForward flat keySize prev) := by
  have read : ∀ place, (if flatCount flat keySize ≤ place then none
      else some (flatEntryAt flat keySize place)) = (flatMap flat keySize ascending).entries[place]? := by
    intro place
    split
    · rename_i beyond
      refine Eq.symm (List.getElem?_eq_none ?_)
      rwa [entries_flatMap, length_flatIter]
    · rename_i inside
      exact (getElem?_flatIter (Nat.lt_of_not_le inside)).symm
  unfold flatNextForward
  split
  · rename_i nothing
    exact fun key _ => lookup_flatMap_of_isEmpty ascending nothing key
  · simp only [read]
    refine SplitsAt.nextIn_forward ?_
    cases prev with
    | none =>
        refine ⟨Nat.zero_le _, fun index binding _ => ⟨fun less => absurd less (Nat.not_lt_zero _),
          fun behind => absurd trivial behind⟩⟩
    | some key =>
        have splits := splitsAt_flatUpperBound ascending key
        refine ⟨splits.1, fun index binding found => (splits.2 index binding found).trans ?_⟩
        exact not_lt.symm

theorem nextIn_flatNextReverse (prev : Option Bytes) :
    NextIn .backward (Direction.backward.Past prev) (flatMap flat keySize ascending).lookup
      (flatNextReverse flat keySize prev) := by
  have read : ∀ place ≤ flatCount flat keySize, (if place = 0 then none
      else some (flatEntryAt flat keySize (place - 1))) =
        if place = 0 then none else (flatMap flat keySize ascending).entries[place - 1]? := by
    intro place bounded
    split
    · rfl
    · exact (getElem?_flatIter (by omega)).symm
  unfold flatNextReverse
  split
  · rename_i nothing
    exact fun key _ => lookup_flatMap_of_isEmpty ascending nothing key
  · cases prev with
    | none =>
        simp only
        rw [read _ (Nat.le_refl _)]
        refine SplitsAt.nextIn_backward ⟨by rw [entries_flatMap, length_flatIter], fun index binding found => ?_⟩
        have inside := (List.getElem?_eq_some_iff.mp found).1
        rw [entries_flatMap, length_flatIter] at inside
        exact iff_of_true inside trivial
    | some key =>
        have splits := splitsAt_flatLowerBound ascending key
        have bounded := splits.1
        rw [length_flatIter] at bounded
        simp only
        rw [read _ bounded]
        exact SplitsAt.nextIn_backward splits

/-- A step through the buffer is a step through its entries. -/
theorem flatNext_eq (direction : Direction) (prev : Option Bytes) :
    flatNext flat keySize direction prev =
      (flatMap flat keySize ascending).next direction prev := by
  refine NextIn.unique ?_ ((flatMap flat keySize ascending).nextIn_next direction prev)
  cases direction with
  | forward => exact nextIn_flatNextForward ascending prev
  | backward => exact nextIn_flatNextReverse ascending prev

end Sorted

/-! ## Round trip -/

/-- A buffer built from a sorted map, in either layout, is read, searched and walked in both
directions as the map is. -/
theorem flat_roundTrip (map : SortedMap Bytes IndexWalPosition) {keySize : Option Nat}
    (fits : ∀ entry ∈ map.entries, Fits keySize entry) :
    (Buildable map.entries keySize ↔ (buildFlatBytes map.entries keySize).isSome = true) ∧
      ∀ flat, buildFlatBytes map.entries keySize = some flat →
        flatIter flat keySize = map.entries ∧
        (∀ key, flatBinarySearch flat keySize key = map.lookup key) ∧
        ∀ direction prev, flatNext flat keySize direction prev = map.next direction prev := by
  obtain ⟨possible, holds⟩ := buildFlatBytes_spec fits
  refine ⟨possible, fun flat built => ?_⟩
  obtain ⟨entries, sorted⟩ := map
  obtain rfl := holds flat built
  exact ⟨rfl, flatBinarySearch_eq sorted, flatNext_eq sorted⟩

/-- A key and a longer one, which was removed. -/
def nestedKeys : SortedMap Bytes IndexWalPosition :=
  ⟨[([1], ⟨9, 4, .modified⟩), ([1, 2], ⟨7, 4, .removed⟩)], by decide⟩

theorem flat_roundTrip_nestedKeys :
    ∃ flat, buildFlatBytes nestedKeys.entries none = some flat ∧
      flatBinarySearch flat none [1, 2] = some ⟨7, 4, .removed⟩ := by
  have fits : ∀ entry ∈ nestedKeys.entries,
      KeyFits entry.1.length none ∧ PositionFits entry.2 := by
    decide
  obtain ⟨possible, reads⟩ := @flat_roundTrip nestedKeys none fun entry member =>
    ⟨(fits entry member).1, (fits entry member).2⟩
  obtain ⟨flat, built⟩ := Option.isSome_iff_exists.mp (possible.mp (by decide +kernel))
  exact ⟨flat, built, (reads flat built).2.1 [1, 2]⟩

end Tidehunter.Index.Flat
