import Tidehunter.Index.Levels
import Mathlib

/-!
# What a table says about one key

Every table operation acts key by key. A table is observed through the marks of a
key's overlay positions (offset, length, and whether the write was a remove) and
through its flat entry. The clean or modified kind of an entry is never observed
by a read, so the marks leave it out.
-/

namespace Tidehunter.Index

open Library Wal

variable {K : Type} [LinearOrder K]

/-! ## Marks -/

/-- An index position without its clean or modified kind. -/
structure Mark where
  offset : Nat
  len : Nat
  removed : Bool
  deriving DecidableEq, Repr

/-- The position a reader gets from a mark; a remove gives the sentinel. -/
def Mark.position (mark : Mark) : WalPosition :=
  if mark.removed then WalPosition.invalid else ⟨mark.offset, mark.len⟩

namespace IndexWalPosition

def mark (position : IndexWalPosition) : Mark :=
  ⟨position.offset, position.len, position.isRemoved⟩

@[simp]
theorem mark_offset (position : IndexWalPosition) : position.mark.offset = position.offset := rfl

theorem intoWalPosition_eq (position : IndexWalPosition) :
    position.intoWalPosition = position.mark.position := by
  cases removed : position.isRemoved with
  | true => simp [intoWalPosition_of_isRemoved removed, Mark.position, mark, removed]
  | false => simp [intoWalPosition_of_not_isRemoved removed, Mark.position, mark, removed]

theorem mark_asCleanModified {position : IndexWalPosition} (present : position.isRemoved = false) :
    position.asCleanModified.mark = position.mark := by
  have kind : position.kind ≠ .removed := by simpa [isRemoved] using present
  simp [mark, asCleanModified, isRemoved, kind]

@[simp]
theorem mark_newModified (position : WalPosition) :
    (newModified position).mark = ⟨position.offset, position.len, false⟩ := rfl

@[simp]
theorem mark_newRemoved (position : WalPosition) :
    (newRemoved position).mark = ⟨position.offset, position.len, true⟩ := rfl

@[simp]
theorem intoWalPosition_newModified (position : WalPosition) :
    (newModified position).intoWalPosition = position := rfl

@[simp]
theorem intoWalPosition_newRemoved (position : WalPosition) :
    (newRemoved position).intoWalPosition = WalPosition.invalid := rfl

@[simp]
theorem intoWalPosition_fromDisk (position : WalPosition) :
    (fromDisk position).intoWalPosition = position := by
  unfold fromDisk
  split
  · rename_i same
    rw [same]
    rfl
  · rfl

end IndexWalPosition

namespace IndexTable

@[simp]
theorem mark_demote (promoteToClean : Bool) (position : IndexWalPosition) :
    (demote promoteToClean position).mark = position.mark := by
  unfold demote
  split
  · rename_i demoted
    simp only [Bool.and_eq_true, Bool.not_eq_true'] at demoted
    exact IndexWalPosition.mark_asCleanModified demoted.2
  · rfl

@[simp]
theorem intoWalPosition_demote (promoteToClean : Bool) (position : IndexWalPosition) :
    (demote promoteToClean position).intoWalPosition = position.intoWalPosition := by
  rw [IndexWalPosition.intoWalPosition_eq, mark_demote, IndexWalPosition.intoWalPosition_eq]

/-- The marks of a key's overlay positions. -/
def overlay (table : IndexTable K) (key : K) : Set Mark :=
  { mark | ∃ positions, table.data.lookup key = some positions ∧
      ∃ position ∈ positions, position.mark = mark }

theorem mem_overlay {table : IndexTable K} {key : K} {mark : Mark} :
    mark ∈ table.overlay key ↔ ∃ positions, table.data.lookup key = some positions ∧
      ∃ position ∈ positions, position.mark = mark := Iff.rfl

/-- The flat entry of a key as a reader sees it. -/
def base (table : IndexTable K) (key : K) : Option WalPosition :=
  (table.flat.lookup key).map IndexWalPosition.intoWalPosition

theorem overlay_eq_empty_iff {table : IndexTable K} {key : K} :
    table.overlay key = ∅ ↔ table.data.lookup key = none := by
  constructor
  · intro nothing
    cases found : table.data.lookup key with
    | none => rfl
    | some positions =>
        have member : positions.latest.mark ∈ table.overlay key :=
          ⟨positions, found, _, positions.latest_mem, rfl⟩
        rw [nothing] at member
        exact member.elim
  · intro absent
    ext mark
    simp [overlay, absent]

theorem overlay_of_lookup_none {table : IndexTable K} {key : K}
    (absent : table.data.lookup key = none) : table.overlay key = ∅ :=
  overlay_eq_empty_iff.mpr absent

/-- A mark is the newest of a set below a frontier. -/
def IsLatestBelow (marks : Set Mark) (frontier : Nat) (mark : Mark) : Prop :=
  mark ∈ marks ∧ mark.offset < frontier ∧
    ∀ other ∈ marks, other.offset < frontier → other.offset ≤ mark.offset

/-! ## Reads in terms of marks -/

theorem getAt_of_no_mark {table : IndexTable K} {key : K} {frontier : Nat}
    (above : ∀ mark ∈ table.overlay key, frontier ≤ mark.offset) :
    table.getAt key frontier = table.base key := by
  have none : table.dataGetLatestProcessed key frontier = none := by
    unfold dataGetLatestProcessed
    cases found : table.data.lookup key with
    | none => rfl
    | some positions =>
        rw [Option.bind_some, AscList.latestWhere_eq_none_iff]
        intro position member
        have high : frontier ≤ position.offset := above position.mark ⟨positions, found, position, member, rfl⟩
        simpa [isProcessed] using high
  simp [getAt, entryAt, none, base]

/-- A read as of a frontier finds the newest overlay position below it, or the flat entry. -/
theorem getAt_cases (table : IndexTable K) (key : K) (frontier : Nat) :
    (∃ mark, IsLatestBelow (table.overlay key) frontier mark ∧
        table.getAt key frontier = some mark.position) ∨
      (∀ mark ∈ table.overlay key, frontier ≤ mark.offset) ∧
        table.getAt key frontier = table.base key := by
  by_cases above : ∀ mark ∈ table.overlay key, frontier ≤ mark.offset
  · exact Or.inr ⟨above, getAt_of_no_mark above⟩
  · push Not at above
    obtain ⟨_, ⟨positions, found, position, member, rfl⟩, below⟩ := above
    cases latest : positions.latestWhere fun other => isProcessed frontier other.offset with
    | none =>
        have rejected := AscList.latestWhere_eq_none_iff.mp latest position member
        rw [isProcessed_iff.mpr (show position.offset < frontier from below)] at rejected
        cases rejected
    | some winner =>
        obtain ⟨present, processed, highest⟩ := AscList.latestWhere_eq_some_iff.mp latest
        refine Or.inl ⟨winner.mark, ⟨⟨positions, found, winner, present, rfl⟩,
          isProcessed_iff.mp processed, ?_⟩, ?_⟩
        · rintro _ ⟨others, alsoFound, other, inside, rfl⟩ less
          cases found.symm.trans alsoFound
          exact IndexWalPosition.offset_le_of_le
            (highest other inside (isProcessed_iff.mpr less))
        · simp [getAt, entryAt, dataGetLatestProcessed, found, latest,
            IndexWalPosition.intoWalPosition_eq]

theorem dataGetLatest_eq_processed {table : IndexTable K} {key : K} {frontier : Nat}
    (below : ∀ mark ∈ table.overlay key, mark.offset < frontier) :
    table.dataGetLatest key = table.dataGetLatestProcessed key frontier := by
  unfold dataGetLatest dataGetLatestProcessed
  cases found : table.data.lookup key with
  | none => rfl
  | some positions =>
      have all : ∀ position ∈ positions, isProcessed frontier position.offset = true := by
        intro position member
        exact isProcessed_iff.mpr (below position.mark ⟨positions, found, position, member, rfl⟩)
      simp [AscList.latestWhere, AscList.filter_eq_self all]

/-- A read with no frontier is a read at any frontier above the overlay. -/
theorem get_eq_getAt {table : IndexTable K} {key : K} {frontier : Nat}
    (below : ∀ mark ∈ table.overlay key, mark.offset < frontier) :
    table.get key = table.getAt key frontier := by
  simp [get, getAt, entry, entryAt, dataGetLatest_eq_processed below]

theorem get_of_no_overlay {table : IndexTable K} {key : K} (nothing : table.overlay key = ∅) :
    table.get key = table.base key := by
  have none := overlay_eq_empty_iff.mp nothing
  simp [get, entry, dataGetLatest, none, base]

/-! ## Empty and decoded tables -/

@[simp]
theorem overlay_empty (key : K) : (empty : IndexTable K).overlay key = ∅ :=
  overlay_of_lookup_none rfl

@[simp]
theorem base_empty (key : K) : (empty : IndexTable K).base key = none := rfl

@[simp]
theorem overlay_deserialize (blob : SortedMap K WalPosition) (key : K) :
    (deserialize blob).overlay key = ∅ :=
  overlay_of_lookup_none rfl

@[simp]
theorem base_deserialize (blob : SortedMap K WalPosition) (key : K) :
    (deserialize blob).base key = blob.lookup key := by
  simp only [base, deserialize, SortedMap.lookup_filterMap]
  cases blob.lookup key <;> simp

theorem lookup_iterCombined (table : IndexTable K) (key : K) :
    table.iterCombined.lookup key = table.entry key := by
  rw [iterCombined, SortedMap.lookup_merge _ _ _ _ rfl]
  rfl

@[simp]
theorem lookup_serialize (table : IndexTable K) (key : K) :
    table.serialize.lookup key = table.get key := by
  rw [serialize, iterWithTombstones, SortedMap.lookup_filterMap, lookup_iterCombined, get]
  cases table.entry key <;> rfl

theorem lookup_iter (table : IndexTable K) (key : K) :
    table.iter.lookup key = readable (table.get key) := by
  rw [iter, SortedMap.lookup_filterMap, lookup_iterCombined, get]
  cases table.entry key <;> rfl

end IndexTable

end Tidehunter.Index
