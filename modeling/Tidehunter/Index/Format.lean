import Tidehunter.Index.Levels
import Tidehunter.Library.Search

/-!
# Index blobs read in place

An unloaded cell reads its blobs without loading them. A format says how: which part of a blob
a step of an iterator reads, what of it is kept for the next step, and what a stored position is
read back as. The header format divides the keys of a cell into micro cells and reads one of
them at a time.
-/

namespace Tidehunter.Index

open Library Wal

variable {K : Type} [LinearOrder K]

theorem id_of_valid (position : WalPosition) (_ : position ≠ WalPosition.invalid) :
    id position = position := rfl

/-- How blobs are read step by step: a step may use what an earlier step on the same blob
kept. -/
structure IndexFormat (K : Type) [LinearOrder K] where
  /-- What a stored position is read back as. -/
  readBack : WalPosition → WalPosition
  readBack_of_valid : ∀ position, position ≠ WalPosition.invalid → readBack position = position
  IterCache : Type
  /-- The position of the blob the cache was read from. -/
  position : IterCache → WalPosition
  /-- The cache is a part of these contents. -/
  Fits : IterCache → SortedMap K WalPosition → Prop
  /-- The format can search among these keys, as it can among the keys of a cell. -/
  Orders : (K → Prop) → Prop
  nextEntryUnloaded : Blob K → Option K → Direction → Option IterCache →
    Option (K × WalPosition) × Option IterCache
  next_eq : ∀ keys, Orders keys → ∀ blob prev direction cache,
    (∀ key ∈ blob.content.keys, keys key) → (∀ key, prev = some key → keys key) →
    (∀ held, cache = some held → position held = blob.position → Fits held blob.content) →
      (nextEntryUnloaded blob prev direction cache).1 =
        (blob.content.next direction prev).map fun found => (found.1, readBack found.2)
  keeps : ∀ keys, Orders keys → ∀ blob prev direction cache,
    (∀ key ∈ blob.content.keys, keys key) → (∀ key, prev = some key → keys key) →
    (∀ held, cache = some held → position held = blob.position → Fits held blob.content) →
      ∀ held, (nextEntryUnloaded blob prev direction cache).2 = some held →
        position held = blob.position ∧ Fits held blob.content

/-- A tombstone of a section with keys of variable length: its length is stored as zero, so it
does not read back as the sentinel. -/
def varlenTombstone : WalPosition := ⟨u64Max, 0⟩

/-- What a position is read back as from a section with keys of variable length. -/
def varlenReadBack (position : WalPosition) : WalPosition :=
  if position = WalPosition.invalid then varlenTombstone else position

theorem varlenReadBack_of_valid (position : WalPosition) (valid : position ≠ WalPosition.invalid) :
    varlenReadBack position = position := if_neg valid

/-! ## Searching a buffer -/

/-- The first place in a direction. -/
def firstInRange (direction : Direction) (count : Nat) : Nat :=
  match direction with
  | .forward => 0
  | .backward => count - 1

/-- Subtraction that fails below zero. -/
def checkedSub (first second : Nat) : Option Nat :=
  if second ≤ first then some (first - second) else none

/-- The entry at a place a search has given. -/
def readPlace (buffer : List (K × WalPosition)) (start : Option Nat) :
    Option (K × WalPosition × Nat) :=
  start.bind fun place => buffer[place]?.map fun found => (found.1, found.2, place)

/-- The entry behind a key in a buffer, with its place. -/
def searchInMicroCellBuffer (buffer : List (K × WalPosition)) (prev : Option K)
    (direction : Direction) : Option (K × WalPosition × Nat) :=
  if buffer.isEmpty then none
  else
    readPlace buffer
      (match prev with
      | none => some (firstInRange direction buffer.length)
      | some prevKey =>
          match direction, binarySearch buffer prevKey with
          | .forward, (some place, _) => some (place + 1)
          | .forward, (none, insertion) => some insertion
          | .backward, (some place, _) => checkedSub place 1
          | .backward, (none, insertion) => checkedSub insertion 1)

/-- The smallest place with a key at or above the target. -/
def flatLowerBoundFrom (buffer : List (K × WalPosition)) (target : K) : Nat → Nat → Nat → Nat
  | 0, low, _ => low
  | fuel + 1, low, high =>
      if low < high then
        let mid := (low + high) / 2
        if buffer[mid]?.any fun found => found.1 < target then
          flatLowerBoundFrom buffer target fuel (mid + 1) high
        else flatLowerBoundFrom buffer target fuel low mid
      else low

def flatVarlenLowerBound (buffer : List (K × WalPosition)) (target : K) : Nat :=
  flatLowerBoundFrom buffer target (buffer.length + 1) 0 buffer.length

/-- The entry behind a key in a buffer with keys of variable length, with its place. -/
def searchInVarlenMicroCellBuffer (buffer : List (K × WalPosition)) (prev : Option K)
    (direction : Direction) : Option (K × WalPosition × Nat) :=
  if buffer.isEmpty then none
  else
    readPlace buffer
      (match prev with
      | none => some (firstInRange direction buffer.length)
      | some prevKey =>
          let bound := flatVarlenLowerBound buffer prevKey
          match direction with
          | .forward =>
              some (if buffer[bound]?.any fun found => found.1 = prevKey then bound + 1 else bound)
          | .backward => checkedSub bound 1)

/-- The entry next to the one returned last. -/
def sequentialNext (buffer : List (K × WalPosition)) (lastReturnedPos : Nat)
    (direction : Direction) : Option (K × WalPosition × Nat) :=
  readPlace buffer
    (match direction with
    | .forward => some (lastReturnedPos + 1)
    | .backward => checkedSub lastReturnedPos 1)

/-- A search in a buffer gives the next binding of the buffer and its place. -/
structure FoundNext (map : SortedMap K WalPosition) (direction : Direction) (prev : Option K)
    (result : Option (K × WalPosition × Nat)) : Prop where
  next : NextIn direction (direction.Past prev) map.lookup
    (result.map fun found => (found.1, found.2.1))
  placed : ∀ found, result = some found → map.entries[found.2.2]? = some (found.1, found.2.1)

section

variable {map : SortedMap K WalPosition} {prev : Option K} {place : Nat}

theorem readPlace_placed {start : Option Nat} {found : K × WalPosition × Nat}
    (read : readPlace map.entries start = some found) :
    map.entries[found.2.2]? = some (found.1, found.2.1) := by
  obtain ⟨place, -, present⟩ := Option.bind_eq_some_iff.mp read
  obtain ⟨binding, here, rfl⟩ := Option.map_eq_some_iff.mp present
  exact here

theorem foundNext_forward
    (splits : SplitsAt map.entries (fun key => ¬Direction.forward.Past prev key) place) :
    FoundNext map .forward prev (readPlace map.entries (some place)) where
  next := by
    have next := splits.nextIn_forward
    cases found : map.entries[place]? with
    | none => simpa [readPlace, found] using next
    | some binding => simpa [readPlace, found] using next
  placed _ read := readPlace_placed read

theorem foundNext_backward
    (splits : SplitsAt map.entries (Direction.backward.Past prev) place) :
    FoundNext map .backward prev (readPlace map.entries (checkedSub place 1)) where
  next := by
    have next := splits.nextIn_backward
    by_cases first : place = 0
    · simpa [readPlace, checkedSub, first] using next
    · rw [if_neg first] at next
      have positive : 1 ≤ place := by omega
      cases found : map.entries[place - 1]? with
      | none => simpa [readPlace, checkedSub, positive, found] using next
      | some binding => simpa [readPlace, checkedSub, positive, found] using next
  placed _ read := readPlace_placed read

/-- The places around a key that is there. -/
theorem splitsAt_of_key {key : K} {value : WalPosition}
    (present : map.entries[place]? = some (key, value)) :
    SplitsAt map.entries (fun other => ¬Direction.forward.Past (some key) other) (place + 1) ∧
      SplitsAt map.entries (Direction.backward.Past (some key)) place := by
  have within := (List.getElem?_eq_some_iff.mp present).1
  refine ⟨⟨within, fun index binding found => ?_⟩, ⟨within.le, fun index binding found => ?_⟩⟩
  · constructor
    · intro before
      exact (le_of_place_le map.sorted found present (by omega)).not_gt
    · intro notPast
      by_contra behind
      exact notPast (lt_of_place_lt map.sorted present found (by omega))
  · constructor
    · intro before
      exact lt_of_place_lt map.sorted found present before
    · intro past
      by_contra behind
      exact absurd past (le_of_place_le map.sorted present found (by omega)).not_gt

/-- The place a key that is not there belongs to. -/
theorem splitsAt_of_insertion {key : K} (bounded : place ≤ map.entries.length)
    (around : ∀ index binding, map.entries[index]? = some binding →
      (index < place → binding.1 < key) ∧ (place ≤ index → key < binding.1)) :
    SplitsAt map.entries (fun other => ¬Direction.forward.Past (some key) other) place ∧
      SplitsAt map.entries (Direction.backward.Past (some key)) place := by
  refine ⟨⟨bounded, fun index binding found => ?_⟩, ⟨bounded, fun index binding found => ?_⟩⟩
  · constructor
    · exact fun before => ((around index binding found).1 before).not_gt
    · intro notPast
      by_contra behind
      exact notPast ((around index binding found).2 (by omega))
  · constructor
    · exact fun before => (around index binding found).1 before
    · intro past
      by_contra behind
      exact absurd past ((around index binding found).2 (by omega)).not_gt

/-- The places at the ends of a buffer. -/
theorem splitsAt_ends : SplitsAt map.entries (fun other => ¬Direction.forward.Past none other) 0 ∧
    SplitsAt map.entries (Direction.backward.Past none) map.entries.length := by
  refine ⟨⟨Nat.zero_le _, fun index binding found => ?_⟩, ⟨Nat.le_refl _, fun index binding found => ?_⟩⟩
  · exact ⟨fun before => absurd before (Nat.not_lt_zero _), fun notPast => absurd trivial notPast⟩
  · exact ⟨fun _ => trivial, fun _ => (List.getElem?_eq_some_iff.mp found).1⟩

theorem foundNext_of_isEmpty (nothing : map.entries.isEmpty = true) (prev : Option K)
    (direction : Direction) : FoundNext map direction prev none where
  next := fun key _ => SortedMap.isEmpty_iff.mp nothing key
  placed := nofun

theorem foundNext_firstInRange (something : ¬map.entries.isEmpty = true) (direction : Direction) :
    FoundNext map direction none
      (readPlace map.entries (some (firstInRange direction map.entries.length))) := by
  cases direction with
  | forward => exact foundNext_forward splitsAt_ends.1
  | backward =>
      have positive : 1 ≤ map.entries.length :=
        List.length_pos_iff.mpr fun nothing => something (List.isEmpty_iff.mpr nothing)
      have last : some (firstInRange .backward map.entries.length) =
          checkedSub map.entries.length 1 := by
        rw [checkedSub, if_pos positive]
        rfl
      rw [last]
      exact foundNext_backward splitsAt_ends.2

theorem foundNext_searchInMicroCellBuffer (map : SortedMap K WalPosition) (prev : Option K)
    (direction : Direction) :
    FoundNext map direction prev (searchInMicroCellBuffer map.entries prev direction) := by
  unfold searchInMicroCellBuffer
  split
  · rename_i nothing
    exact foundNext_of_isEmpty nothing prev direction
  · rename_i something
    cases prev with
    | none => exact foundNext_firstInRange something direction
    | some prevKey =>
        have located := located_binarySearch map.sorted prevKey
        rcases isFound : binarySearch map.entries prevKey with ⟨found, insertion⟩
        rw [isFound] at located
        simp only [isFound]
        cases found with
        | some place =>
            obtain ⟨value, present⟩ := located
            cases direction with
            | forward => exact foundNext_forward (splitsAt_of_key present).1
            | backward => exact foundNext_backward (splitsAt_of_key present).2
        | none =>
            cases direction with
            | forward => exact foundNext_forward (splitsAt_of_insertion located.1 located.2).1
            | backward => exact foundNext_backward (splitsAt_of_insertion located.1 located.2).2

theorem flatLowerBoundFrom_spec {buffer : List (K × WalPosition)} {target : K}
    (sorted : buffer.Pairwise fun first second => first.1 < second.1) {fuel low high : Nat}
    (enough : high - low < fuel) (order : low ≤ high) (inside : high ≤ buffer.length)
    (below : ∀ index found, buffer[index]? = some found → index < low → found.1 < target)
    (above : ∀ index found, buffer[index]? = some found → high ≤ index → target ≤ found.1) :
    flatLowerBoundFrom buffer target fuel low high ≤ buffer.length ∧
      ∀ index found, buffer[index]? = some found →
        (index < flatLowerBoundFrom buffer target fuel low high ↔ found.1 < target) := by
  induction fuel generalizing low high with
  | zero => cases enough
  | succ fuel ih =>
      rw [flatLowerBoundFrom]
      split
      · rename_i less
        have mid : (low + high) / 2 < buffer.length := by omega
        have present := List.getElem?_eq_getElem mid
        simp only [present, Option.any_some, decide_eq_true_eq]
        split
        · rename_i smaller
          refine ih (by omega) (by omega) inside (fun index found here before => ?_) above
          exact (le_of_place_le sorted here present (by omega)).trans_lt smaller
        · rename_i notSmaller
          refine ih (by omega) (by omega) (by omega) below (fun index found here behind => ?_)
          exact (not_lt.mp notSmaller).trans (le_of_place_le sorted present here behind)
      · rename_i crossed
        refine ⟨by omega, fun index found here => ⟨below index found here, fun smaller => ?_⟩⟩
        by_contra behind
        exact absurd smaller (above index found here (by omega)).not_gt

theorem flatVarlenLowerBound_spec (map : SortedMap K WalPosition) (target : K) :
    flatVarlenLowerBound map.entries target ≤ map.entries.length ∧
      ∀ index found, map.entries[index]? = some found →
        (index < flatVarlenLowerBound map.entries target ↔ found.1 < target) := by
  refine flatLowerBoundFrom_spec map.sorted (by omega) (Nat.zero_le _) (Nat.le_refl _)
    (fun _ _ _ before => absurd before (Nat.not_lt_zero _)) (fun index found here behind => ?_)
  exact absurd (List.getElem?_eq_some_iff.mp here).1 (Nat.not_lt.mpr behind)

theorem foundNext_searchInVarlenMicroCellBuffer (map : SortedMap K WalPosition) (prev : Option K)
    (direction : Direction) :
    FoundNext map direction prev (searchInVarlenMicroCellBuffer map.entries prev direction) := by
  unfold searchInVarlenMicroCellBuffer
  split
  · rename_i nothing
    exact foundNext_of_isEmpty nothing prev direction
  · rename_i something
    cases prev with
    | none => exact foundNext_firstInRange something direction
    | some prevKey =>
        obtain ⟨bounded, splits⟩ := flatVarlenLowerBound_spec map prevKey
        cases direction with
        | backward => exact foundNext_backward ⟨bounded, splits⟩
        | forward =>
            simp only
            split
            · rename_i same
              obtain ⟨⟨key, value⟩, present, isKey⟩ := (Option.any_eq_true _ _).mp same
              obtain rfl : key = prevKey := of_decide_eq_true isKey
              exact foundNext_forward (splitsAt_of_key present).1
            · rename_i different
              refine foundNext_forward (splitsAt_of_insertion bounded fun index found here => ?_).1
              refine ⟨(splits index found here).mp, fun behind => ?_⟩
              have notLess : prevKey ≤ found.1 :=
                not_lt.mp fun less => absurd ((splits index found here).mpr less) (by omega)
              refine lt_of_le_of_ne notLess fun same => different ?_
              -- the key is at the bound itself, as every key in front of the place is smaller
              obtain rfl : index = flatVarlenLowerBound map.entries prevKey := by
                by_contra other
                have later : flatVarlenLowerBound map.entries prevKey < index := by omega
                have within := (List.getElem?_eq_some_iff.mp here).1
                have bound := List.getElem?_eq_getElem (later.trans within)
                have smaller := lt_of_place_lt map.sorted bound here later
                rw [← same] at smaller
                exact absurd ((splits _ _ bound).mpr smaller) (by omega)
              rw [here, Option.any_some, same]
              exact decide_eq_true rfl

/-- Next to the entry returned last no search is needed. -/
theorem foundNext_sequentialNext {key : K} {value : WalPosition}
    (present : map.entries[place]? = some (key, value)) (direction : Direction) :
    FoundNext map direction (some key) (sequentialNext map.entries place direction) := by
  cases direction with
  | forward => exact foundNext_forward (splitsAt_of_key present).1
  | backward => exact foundNext_backward (splitsAt_of_key present).2

end

end Tidehunter.Index
