import Tidehunter.Library.Cursor

/-!
# Searching sorted bindings by their place

A search in a list of sorted bindings gives a place: of the key, or where the key would be
inserted. A place that splits the bindings into those behind a cursor and those in front of it
tells the next binding of the cursor.
-/

namespace Tidehunter.Library

universe u v

variable {K : Type u} {V : Type v} [LinearOrder K]

/-! ## Binary search -/

/-- Binary search between two places, both of them included. -/
def binarySearchFrom (bindings : List (K × V)) (key : K) : Nat → Nat → Nat → Option Nat × Nat
  | 0, left, _ => (none, left)
  | fuel + 1, left, right =>
      if left ≤ right then
        let mid := left + (right - left) / 2
        match bindings[mid]? with
        | none => (none, left)
        | some binding =>
            if binding.1 = key then (some mid, left)
            else if binding.1 < key then binarySearchFrom bindings key fuel (mid + 1) right
            else if mid = 0 then (none, left)
            else binarySearchFrom bindings key fuel left (mid - 1)
      else (none, left)

/-- The place of a key and the place it would be inserted at; the second counts only when the
first is not there. -/
def binarySearch (bindings : List (K × V)) (key : K) : Option Nat × Nat :=
  if bindings.isEmpty then (none, 0)
  else binarySearchFrom bindings key (bindings.length + 1) 0 (bindings.length - 1)

/-- What a search has to give. -/
def Located (bindings : List (K × V)) (key : K) : Option Nat × Nat → Prop
  | (some place, _) => ∃ value, bindings[place]? = some (key, value)
  | (none, place) => place ≤ bindings.length ∧
      ∀ index binding, bindings[index]? = some binding →
        (index < place → binding.1 < key) ∧ (place ≤ index → key < binding.1)

/-- Bindings at later places have greater keys. -/
theorem lt_of_place_lt {bindings : List (K × V)}
    (sorted : bindings.Pairwise fun first second => first.1 < second.1) {place later : Nat}
    {first second : K × V} (isFirst : bindings[place]? = some first)
    (isSecond : bindings[later]? = some second) (less : place < later) : first.1 < second.1 := by
  obtain ⟨inFirst, rfl⟩ := List.getElem?_eq_some_iff.mp isFirst
  obtain ⟨inSecond, rfl⟩ := List.getElem?_eq_some_iff.mp isSecond
  exact List.pairwise_iff_getElem.mp sorted place later inFirst inSecond less

theorem le_of_place_le {bindings : List (K × V)}
    (sorted : bindings.Pairwise fun first second => first.1 < second.1) {place later : Nat}
    {first second : K × V} (isFirst : bindings[place]? = some first)
    (isSecond : bindings[later]? = some second) (lessEq : place ≤ later) : first.1 ≤ second.1 := by
  rcases Nat.lt_or_eq_of_le lessEq with less | rfl
  · exact (lt_of_place_lt sorted isFirst isSecond less).le
  · rw [Option.some.inj (isFirst.symm.trans isSecond)]

theorem located_binarySearchFrom {bindings : List (K × V)} {key : K}
    (sorted : bindings.Pairwise fun first second => first.1 < second.1) {fuel left right : Nat}
    (enough : right + 1 - left < fuel) (order : left ≤ right + 1) (inside : right < bindings.length)
    (below : ∀ index binding, bindings[index]? = some binding → index < left → binding.1 < key)
    (above : ∀ index binding, bindings[index]? = some binding → right < index → key < binding.1) :
    Located bindings key (binarySearchFrom bindings key fuel left right) := by
  induction fuel generalizing left right with
  | zero => cases enough
  | succ fuel ih =>
      rw [binarySearchFrom]
      split
      · rename_i lessEq
        have mid : left + (right - left) / 2 < bindings.length := by omega
        have found := List.getElem?_eq_getElem mid
        simp only [found]
        split
        · rename_i same
          exact ⟨_, by rw [found, ← same]⟩
        · split
          · rename_i different less
            refine ih (by omega) (by omega) inside (fun index binding present before => ?_) above
            have upTo := le_of_place_le sorted present found (by omega)
            exact upTo.trans_lt less
          · rename_i different notLess
            have greater : key < (bindings[left + (right - left) / 2]).1 :=
              lt_of_le_of_ne (not_lt.mp notLess) (Ne.symm different)
            split
            · rename_i first
              refine ⟨by omega, fun index binding present => ⟨fun before => by omega, fun _ => ?_⟩⟩
              exact greater.trans_le (le_of_place_le sorted found present (by omega))
            · refine ih (by omega) (by omega) (by omega) below
                (fun index binding present behind => ?_)
              exact greater.trans_le (le_of_place_le sorted found present (by omega))
      · rename_i crossed
        refine ⟨by omega, fun index binding present => ⟨below index binding present, fun behind => ?_⟩⟩
        exact above index binding present (by omega)

/-- Binary search finds a key, or the place it belongs to. -/
theorem located_binarySearch {bindings : List (K × V)}
    (sorted : bindings.Pairwise fun first second => first.1 < second.1) (key : K) :
    Located bindings key (binarySearch bindings key) := by
  unfold binarySearch
  split
  · rename_i nothing
    rw [List.isEmpty_iff.mp nothing]
    exact ⟨Nat.le_refl _, fun _ _ => nofun⟩
  · rename_i something
    have positive : 0 < bindings.length :=
      List.length_pos_iff.mpr fun nothing => something (List.isEmpty_iff.mpr nothing)
    refine located_binarySearchFrom sorted (by omega) (by omega) (by omega)
      (fun _ _ _ before => absurd before (Nat.not_lt_zero _)) (fun index binding present behind => ?_)
    obtain ⟨within, -⟩ := List.getElem?_eq_some_iff.mp present
    omega

/-! ## Bisection -/

/-- The first place at which a test fails, between two places, the second excluded; the test
holds below it. -/
def bisectFrom (test : Nat → Bool) : Nat → Nat → Nat → Nat
  | 0, low, _ => low
  | fuel + 1, low, high =>
      if low < high then
        let mid := (low + high) / 2
        if test mid then bisectFrom test fuel (mid + 1) high else bisectFrom test fuel low mid
      else low

/-- Bisection of the places below a count. -/
def bisect (test : Nat → Bool) (count : Nat) : Nat := bisectFrom test (count + 1) 0 count

theorem bisectFrom_spec {test : Nat → Bool} {count : Nat}
    (downward : ∀ first second, first ≤ second → second < count → test second = true →
      test first = true) {fuel low high : Nat}
    (enough : high - low < fuel) (order : low ≤ high) (inside : high ≤ count)
    (below : ∀ place, place < low → test place = true)
    (above : ∀ place, high ≤ place → place < count → test place = false) :
    bisectFrom test fuel low high ≤ count ∧
      ∀ place, place < count → (place < bisectFrom test fuel low high ↔ test place = true) := by
  induction fuel generalizing low high with
  | zero => cases enough
  | succ fuel ih =>
      rw [bisectFrom]
      split
      · rename_i less
        have mid : (low + high) / 2 < count := by omega
        simp only
        split
        · rename_i holds
          refine ih (by omega) (by omega) inside (fun place before => ?_) above
          exact downward place _ (by omega) mid holds
        · rename_i fails
          refine ih (by omega) (by omega) (by omega) below (fun place behind within => ?_)
          rw [Bool.eq_false_iff]
          exact fun holds => fails (downward _ place behind within holds)
      · rename_i crossed
        refine ⟨by omega, fun place within => ⟨below place, fun holds => ?_⟩⟩
        by_contra behind
        rw [above place (by omega) within] at holds
        cases holds

/-- Bisection finds where a test that holds on a front part stops. -/
theorem bisect_spec {test : Nat → Bool} {count : Nat}
    (downward : ∀ first second, first ≤ second → second < count → test second = true →
      test first = true) :
    bisect test count ≤ count ∧
      ∀ place, place < count → (place < bisect test count ↔ test place = true) :=
  bisectFrom_spec downward (by omega) (Nat.zero_le _) (Nat.le_refl _)
    (fun _ before => absurd before (Nat.not_lt_zero _))
    (fun _ behind within => absurd within (Nat.not_lt.mpr behind))

/-! ## Places that split the bindings -/

/-- The bindings in front of a place are those with a property. -/
def SplitsAt (bindings : List (K × V)) (front : K → Prop) (place : Nat) : Prop :=
  place ≤ bindings.length ∧
    ∀ index binding, bindings[index]? = some binding → (index < place ↔ front binding.1)

namespace SplitsAt

variable {map : SortedMap K V} {prev : Option K} {place : Nat}

/-- In sorted bindings it is enough to look at the two bindings next to the place. -/
theorem of_neighbours {front : K → Prop}
    (downward : ∀ first second, first ≤ second → front second → front first)
    (bounded : place ≤ map.entries.length)
    (before : ∀ binding, 0 < place → map.entries[place - 1]? = some binding → front binding.1)
    (after : ∀ binding, map.entries[place]? = some binding → ¬front binding.1) :
    SplitsAt map.entries front place := by
  refine ⟨bounded, fun index binding found => ⟨fun less => ?_, fun isFront => ?_⟩⟩
  · have within : place - 1 < map.entries.length := by omega
    have present := List.getElem?_eq_getElem within
    exact downward _ _ (le_of_place_le map.sorted found present (by omega))
      (before _ (by omega) present)
  · by_contra behind
    have within : place < map.entries.length := by
      have := (List.getElem?_eq_some_iff.mp found).1
      omega
    have present := List.getElem?_eq_getElem within
    exact after _ present (downward _ _ (le_of_place_le map.sorted present found (by omega)) isFront)

theorem nextIn_forward
    (splits : SplitsAt map.entries (fun key => ¬Direction.forward.Past prev key) place) :
    NextIn .forward (Direction.forward.Past prev) map.lookup map.entries[place]? := by
  cases found : map.entries[place]? with
  | none =>
      intro key past
      refine Option.eq_none_iff_forall_ne_some.mpr fun value bound => ?_
      obtain ⟨index, present⟩ := List.mem_iff_getElem?.mp (SortedMap.mem_entries_of_lookup bound)
      have within := (List.getElem?_eq_some_iff.mp present).1
      have beyond := List.getElem?_eq_none_iff.mp found
      exact ((splits.2 index _ present).mp (by omega)) past
  | some binding =>
      have past : Direction.forward.Past prev binding.1 := by
        by_contra behind
        exact absurd ((splits.2 place _ found).mpr behind) (Nat.lt_irrefl place)
      refine ⟨past, SortedMap.lookup_of_mem_entries (List.mem_of_getElem? found),
        fun other ahead before => Option.eq_none_iff_forall_ne_some.mpr fun value bound => ?_⟩
      obtain ⟨index, present⟩ := List.mem_iff_getElem?.mp (SortedMap.mem_entries_of_lookup bound)
      have notFront : ¬index < place := fun front => (splits.2 index _ present).mp front ahead
      exact absurd before (le_of_place_le map.sorted found present (Nat.not_lt.mp notFront)).not_gt

theorem nextIn_backward
    (splits : SplitsAt map.entries (Direction.backward.Past prev) place) :
    NextIn .backward (Direction.backward.Past prev) map.lookup
      (if place = 0 then none else map.entries[place - 1]?) := by
  split
  · rename_i first
    intro key past
    refine Option.eq_none_iff_forall_ne_some.mpr fun value bound => ?_
    obtain ⟨index, present⟩ := List.mem_iff_getElem?.mp (SortedMap.mem_entries_of_lookup bound)
    have front := (splits.2 index _ present).mpr past
    omega
  · rename_i later
    have within : place - 1 < map.entries.length := by
      have := splits.1
      omega
    have found := List.getElem?_eq_getElem within
    rw [found]
    refine ⟨(splits.2 _ _ found).mp (by omega),
      SortedMap.lookup_of_mem_entries (List.mem_of_getElem? found),
      fun other ahead before => Option.eq_none_iff_forall_ne_some.mpr fun value bound => ?_⟩
    obtain ⟨index, present⟩ := List.mem_iff_getElem?.mp (SortedMap.mem_entries_of_lookup bound)
    have front := (splits.2 index _ present).mpr ahead
    have upTo := le_of_place_le map.sorted present found (by omega)
    exact absurd before upTo.not_gt

end SplitsAt

end Tidehunter.Library
