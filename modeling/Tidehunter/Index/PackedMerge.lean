import Tidehunter.Index.PackedPromote

/-!
# Merging a table over a loaded one

The fresher table is folded into the table read from a blob: its overlay positions one by one
into the overlay, its flat buffer in one walk into the flat buffer. Filtering the overlay
afterwards by a frontier gives the fresher table as of the frontier over the loaded one.
-/

namespace Tidehunter.Index

open Library Wal Flat

namespace PackedTable

/-! ## The code -/

section Overlay

variable {K : Type} [LinearOrder K]

/-- Fold a position into those of its key. -/
def dataInsertSorted (data : SortedMap K DataPositions) (key : K)
    (position : IndexWalPosition) : SortedMap K DataPositions :=
  data.insert key (match data.lookup key with
    | some positions => positions.insert position
    | none => AscList.singleton position)

/-- Fold every overlay position of the fresher table into the overlay. -/
def foldDirtyData (data dirty : SortedMap K DataPositions) (promoteToClean : Bool) :
    SortedMap K DataPositions :=
  dirty.entries.foldl
    (fun data binding =>
      binding.2.toList.foldl
        (fun data position =>
          dataInsertSorted data binding.1 (IndexTable.demote promoteToClean position))
        data)
    data

end Overlay

/-- Walk the fresher flat buffer over the flat buffer. A key taken from it that the fresher
overlay does not hold leaves the overlay. The result carries the dirty entries of the new
buffer; none is the panic of the buffer's writer. -/
def foldDirtyFlat (table dirty : PackedTable) (promoteToClean : Bool) :
    Option (PackedTable × Nat) :=
  let keySize := if table.flat.isEmpty then dirty.keySize else table.keySize
  let fresher := flatIter dirty.flat dirty.keySize
  let merged := layOver (flatIter table.flat keySize)
    (fresher.map fun entry => (entry.1, IndexTable.demote promoteToClean entry.2))
  let keysFromDirty := fresher.filter fun entry => !dirty.data.contains entry.1
  (buildFlatBytes merged keySize).map fun flat =>
    ({ table with
        data := keysFromDirty.foldl (fun data entry => data.erase entry.1) table.data
        flat := flat
        keySize := keySize },
      dirtyEntries merged)

/-- Merge the fresher table `dirty` into `table`. -/
def mergeDirty (table dirty : PackedTable) (promoteToClean : Bool) : Option PackedTable :=
  let folded := { table with data := foldDirtyData table.data dirty.data promoteToClean }
  let flatFolded :=
    if dirty.flat.isEmpty then
      some (folded, dirtyEntries (flatIter folded.flat folded.keySize))
    else foldDirtyFlat folded dirty promoteToClean
  flatFolded.map fun merged =>
    let counted := recountDataStats merged.1.data
    { merged.1 with keyBytes := counted.1, dirtyCount := merged.2 + counted.2 }

/-- Drop the overlay positions at or above the frontier; the flat buffer is kept. -/
def retainProcessed (table : PackedTable) (lastProcessed : Nat) : PackedTable :=
  let retained := { table with
    data := table.data.filterMap fun _ positions =>
      positions.filter fun position => isProcessed lastProcessed position.offset }
  { retained with
    keyBytes := retained.recountStats.1
    dirtyCount := retained.recountStats.2 }

/-! ## The overlay -/

section Overlay

variable {K : Type} [LinearOrder K]

theorem lookup_dataInsertSorted (data : SortedMap K DataPositions) (key other : K)
    (position : IndexWalPosition) :
    (dataInsertSorted data key position).lookup other =
      if other = key then IndexTable.insertSortedAll (data.lookup key) [position]
      else data.lookup other := by
  rw [dataInsertSorted, SortedMap.lookup_insert]
  rfl

/-- Folding the positions of one key. -/
theorem lookup_foldPositions (data : SortedMap K DataPositions) (key other : K)
    (positions : List IndexWalPosition) (promoteToClean : Bool) :
    (positions.foldl (fun data position =>
        dataInsertSorted data key (IndexTable.demote promoteToClean position)) data).lookup other =
      if other = key then
        IndexTable.insertSortedAll (data.lookup key)
          (positions.map (IndexTable.demote promoteToClean))
      else data.lookup other := by
  induction positions generalizing data with
  | nil =>
      by_cases same : other = key
      · rw [if_pos same, same]
        rfl
      · rw [if_neg same]
        rfl
  | cons position rest ih =>
      rw [List.foldl_cons, ih, lookup_dataInsertSorted, lookup_dataInsertSorted, if_pos rfl]
      by_cases same : other = key
      · rw [if_pos same, if_pos same]
        rfl
      · rw [if_neg same, if_neg same, if_neg same]

theorem lookup_foldDirtyData (data dirty : SortedMap K DataPositions) (promoteToClean : Bool)
    (key : K) :
    (foldDirtyData data dirty promoteToClean).lookup key =
      (dirty.lookup key).elim (data.lookup key) fun positions =>
        IndexTable.insertSortedAll (data.lookup key)
          (positions.toList.map (IndexTable.demote promoteToClean)) := by
  obtain ⟨bindings, sorted⟩ := dirty
  induction bindings generalizing data with
  | nil => rfl
  | cons first rest ih =>
      obtain ⟨above, restSorted⟩ := List.pairwise_cons.mp sorted
      have later := ih (first.2.toList.foldl (fun data position =>
        dataInsertSorted data first.1 (IndexTable.demote promoteToClean position)) data) restSorted
      rw [lookup_foldPositions] at later
      refine later.trans ?_
      change (rest.lookup key).elim _ _ = ((first :: rest).lookup key).elim _ _
      rw [SortedMap.lookup_cons_eq]
      by_cases same : key = first.1
      · have absent : rest.lookup key = none := SortedMap.lookup_eq_none_of_lt (same ▸ above)
        rw [absent, if_pos same, if_pos same, same]
        rfl
      · rw [if_neg same, if_neg same]

theorem lookup_foldl_erase {V W : Type} (map : SortedMap K V) (entries : List (K × W)) (key : K) :
    (entries.foldl (fun map entry => map.erase entry.1) map).lookup key =
      if key ∈ entries.map Prod.fst then none else map.lookup key := by
  induction entries generalizing map with
  | nil => rfl
  | cons entry rest ih =>
      rw [List.foldl_cons, ih, SortedMap.lookup_erase, List.map_cons]
      by_cases same : key = entry.1
      · rw [if_pos same, ite_self, if_pos (List.mem_cons.mpr (Or.inl same))]
      · rw [if_neg same]
        by_cases later : key ∈ rest.map Prod.fst
        · rw [if_pos later, if_pos (List.mem_cons_of_mem _ later)]
        · rw [if_neg later, if_neg fun member => (List.mem_cons.mp member).elim same later]

end Overlay

/-! ## The merged table -/

/-- The layout of a merged buffer: an empty table takes over that of the fresher one. -/
def mergedSize (table dirty : PackedTable) : Option Nat :=
  if table.flat.isEmpty then dirty.keySize else table.keySize

/-- The entries of a merged buffer. -/
def mergedEntries (table dirty : PackedTable) (promoteToClean : Bool) : List FlatEntry :=
  layOver (flatIter table.flat (mergedSize table dirty))
    ((flatIter dirty.flat dirty.keySize).map fun entry =>
      (entry.1, IndexTable.demote promoteToClean entry.2))

theorem positionFits_demote {position : IndexWalPosition} (fits : PositionFits position)
    (promoteToClean : Bool) : PositionFits (IndexTable.demote promoteToClean position) := by
  rw [PositionFits, IndexTable.offset_demote, IndexTable.len_demote]
  exact fits

/-- An empty buffer has no entries in either layout. -/
theorem flatIter_mergedSize (table dirty : PackedTable) :
    flatIter table.flat (mergedSize table dirty) = flatIter table.flat table.keySize := by
  unfold mergedSize
  split
  · rename_i nothing
    rw [flatIter_of_isEmpty nothing, flatIter_of_isEmpty nothing]
  · rfl

section Merged

variable {indexKeySize : Option Nat} {table dirty : PackedTable}

/-- Overlay positions folded into a table read from a blob. -/
theorem foldDirtyData_spec (noData : table.data = SortedMap.empty)
    (wellFormed : dirty.WellFormed indexKeySize) (promoteToClean : Bool) {key : Bytes}
    {positions : DataPositions}
    (found : (foldDirtyData table.data dirty.data promoteToClean).lookup key = some positions) :
    KeyOf indexKeySize key ∧ ∀ position ∈ positions, PositionFits position := by
  rw [lookup_foldDirtyData, noData, SortedMap.lookup_empty] at found
  cases held : dirty.data.lookup key with
  | none =>
      rw [held] at found
      cases found
  | some old =>
      rw [held] at found
      refine ⟨wellFormed.dataKeys key old held, fun position member => ?_⟩
      rcases (IndexTable.mem_insertSortedAll found position).mp member with ⟨_, none, _⟩ | folded
      · cases none
      · obtain ⟨original, present, rfl⟩ := List.mem_map.mp folded
        exact positionFits_demote (wellFormed.dataFits key old held original present) promoteToClean

/-- The overlay of the merged table is that of the fresher one. -/
theorem lookup_foldDirtyData_of_noData (noData : table.data = SortedMap.empty)
    (ascending : Ascending table.flat table.keySize)
    (dirtyAscending : Ascending dirty.flat dirty.keySize) (promoteToClean : Bool) (key : Bytes) :
    (foldDirtyData table.data dirty.data promoteToClean).lookup key =
      ((table.toTable ascending).mergeDirty (dirty.toTable dirtyAscending)
        promoteToClean).data.lookup key := by
  have empty : (table.toTable ascending).data = SortedMap.empty := noData
  rw [lookup_foldDirtyData, IndexTable.lookup_data_mergeDirty empty, noData,
    SortedMap.lookup_empty]
  change (dirty.data.lookup key).elim _ _ = (dirty.data.lookup key).bind _
  cases dirty.data.lookup key <;> rfl

/-- Dropping keys that the fresher overlay does not hold changes nothing then. -/
theorem eraseKeys_of_noData (noData : table.data = SortedMap.empty) (promoteToClean : Bool) :
    ((flatIter dirty.flat dirty.keySize).filter fun entry => !dirty.data.contains entry.1).foldl
        (fun data entry => data.erase entry.1)
        (foldDirtyData table.data dirty.data promoteToClean) =
      foldDirtyData table.data dirty.data promoteToClean := by
  refine SortedMap.ext_lookup fun key => ?_
  rw [lookup_foldl_erase]
  split
  · rename_i erased
    obtain ⟨entry, member, rfl⟩ := List.mem_map.mp erased
    have absent := (List.mem_filter.mp member).2
    rw [Bool.not_eq_true', SortedMap.contains, Option.isSome_eq_false_iff,
      Option.isNone_iff_eq_none] at absent
    rw [lookup_foldDirtyData, noData, absent]
    rfl
  · rfl

/-- The entries of the merged buffer: ascending, of the key space, and the fresher entry first. -/
theorem mergedEntries_spec (wellFormed : table.WellFormed indexKeySize)
    (dirtyWellFormed : dirty.WellFormed indexKeySize) (promoteToClean : Bool) :
    mergedEntries table dirty promoteToClean =
        ((table.toTable wellFormed.ascending).mergeDirty
          (dirty.toTable dirtyWellFormed.ascending) promoteToClean).flat.entries ∧
      ∀ entry ∈ mergedEntries table dirty promoteToClean,
        KeyOf indexKeySize entry.1 ∧ PositionFits entry.2 := by
  refine ⟨?_, fun entry member => ?_⟩
  · have demoted : ((flatMap dirty.flat dirty.keySize dirtyWellFormed.ascending).filterMap
        fun _ position => some (IndexTable.demote promoteToClean position)).entries =
          (flatIter dirty.flat dirty.keySize).map fun entry =>
            (entry.1, IndexTable.demote promoteToClean entry.2) :=
      congrFun (List.filterMap_eq_map (f := fun entry : FlatEntry =>
        (entry.1, IndexTable.demote promoteToClean entry.2))) _
    rw [mergedEntries, flatIter_mergedSize, ← demoted]
    refine congrArg SortedMap.entries (@SortedMap.ext_lookup _ _ _
      ((flatMap table.flat table.keySize wellFormed.ascending).laidOver _) _ fun key => ?_)
    rw [SortedMap.lookup_laidOver, SortedMap.lookup_filterMap, IndexTable.lookup_flat_mergeDirty,
      Option.map_eq_bind]
    rfl
  · rcases mem_of_mem_layOver member with old | fresh
    · rw [flatIter_mergedSize] at old
      exact ⟨wellFormed.flatKeys entry old, (fits_of_mem_flatIter old).position⟩
    · obtain ⟨original, present, rfl⟩ := List.mem_map.mp fresh
      exact ⟨dirtyWellFormed.flatKeys original present,
        positionFits_demote (fits_of_mem_flatIter present).position promoteToClean⟩

/-- A merge over a table read from a blob panics only when the new buffer cannot be built. The
merged table is the merge of the overlays and entries, and its counters are right. -/
theorem mergeDirty_spec (wellFormed : table.WellFormed indexKeySize)
    (dirtyWellFormed : dirty.WellFormed indexKeySize) (noData : table.data = SortedMap.empty)
    (promoteToClean : Bool) :
    ((table.mergeDirty dirty promoteToClean).isSome = true ↔ dirty.flat.isEmpty = true ∨
        Buildable (mergedEntries table dirty promoteToClean) (mergedSize table dirty)) ∧
      ∀ merged, table.mergeDirty dirty promoteToClean = some merged →
        ∃ wellFormed' : merged.WellFormed indexKeySize,
          merged.toTable wellFormed'.ascending =
            (table.toTable wellFormed.ascending).mergeDirty
              (dirty.toTable dirtyWellFormed.ascending) promoteToClean ∧ merged.Counted := by
  obtain ⟨entries, parts⟩ := mergedEntries_spec wellFormed dirtyWellFormed promoteToClean
  have data : foldDirtyData table.data dirty.data promoteToClean =
      ((table.toTable wellFormed.ascending).mergeDirty
        (dirty.toTable dirtyWellFormed.ascending) promoteToClean).data :=
    SortedMap.ext_lookup fun key => lookup_foldDirtyData_of_noData noData _ _ promoteToClean key
  have dataParts := fun key positions => @foldDirtyData_spec indexKeySize table dirty noData
    dirtyWellFormed promoteToClean key positions
  by_cases nothing : dirty.flat.isEmpty = true
  · simp only [mergeDirty, nothing, if_true, Option.map_some]
    refine ⟨by simp, fun merged same => ?_⟩
    cases same
    refine ⟨⟨wellFormed.layout, wellFormed.built, wellFormed.ascending, wellFormed.flatKeys,
      fun key positions found => (dataParts key positions found).1,
      fun key positions found => (dataParts key positions found).2⟩, toTable_eq data ?_, rfl⟩
    rw [← entries, mergedEntries, flatIter_mergedSize, flatIter_of_isEmpty nothing, List.map_nil,
      layOver_nil]
  · have layout : mergedSize table dirty = none ∨ mergedSize table dirty = indexKeySize := by
      unfold mergedSize
      split
      · exact dirtyWellFormed.layout
      · exact wellFormed.layout
    have sorted : (mergedEntries table dirty promoteToClean).Pairwise
        fun first second => first.1 < second.1 := entries ▸ SortedMap.sorted _
    have fits : ∀ entry ∈ mergedEntries table dirty promoteToClean,
        Fits (mergedSize table dirty) entry := fun entry member =>
      ⟨(parts entry member).1.fits layout, (parts entry member).2⟩
    have unfolded : table.mergeDirty dirty promoteToClean =
        (buildFlatBytes (mergedEntries table dirty promoteToClean) (mergedSize table dirty)).map
          fun flat => ⟨foldDirtyData table.data dirty.data promoteToClean,
            (recountDataStats (foldDirtyData table.data dirty.data promoteToClean)).1,
            dirtyEntries (mergedEntries table dirty promoteToClean) +
              (recountDataStats (foldDirtyData table.data dirty.data promoteToClean)).2,
            flat, mergedSize table dirty⟩ := by
      simp only [mergeDirty, nothing, foldDirtyFlat]
      simp only [Bool.false_eq_true, if_false, Option.map_map, eraseKeys_of_noData noData]
      rfl
    rw [unfolded, Option.isSome_map]
    refine ⟨by simp only [nothing, Bool.false_eq_true, false_or]; exact
      (buildFlatBytes_spec fits).1.symm, fun merged same => ?_⟩
    obtain ⟨flat, built, rfl⟩ := Option.map_eq_some_iff.mp same
    obtain ⟨wellFormed', rebuilt⟩ := wellFormed_of_built layout built sorted
      (fun entry member => (parts entry member).1) (fun entry member => (parts entry member).2)
      (fun key positions found => (dataParts key positions found).1)
      (fun key positions found => (dataParts key positions found).2)
    refine ⟨wellFormed' _ _, toTable_eq data (rebuilt.trans entries), ?_⟩
    rw [Counted, recountStats]
    simp only [rebuilt]

/-- The filter works on the overlay alone. -/
theorem retainProcessed_spec (wellFormed : table.WellFormed indexKeySize) (frontier : Nat) :
    ∃ wellFormed' : (table.retainProcessed frontier).WellFormed indexKeySize,
      (table.retainProcessed frontier).toTable wellFormed'.ascending =
        (table.toTable wellFormed.ascending).retainProcessed frontier ∧
      (table.retainProcessed frontier).Counted := by
  have kept : ∀ key positions, (table.retainProcessed frontier).data.lookup key = some positions →
      ∃ old, table.data.lookup key = some old ∧ ∀ position ∈ positions, position ∈ old := by
    intro key positions found
    rw [retainProcessed, SortedMap.lookup_filterMap] at found
    obtain ⟨old, held, filtered⟩ := Option.bind_eq_some_iff.mp found
    exact ⟨old, held, fun position member => ((AscList.mem_of_filter_eq_some filtered position).mp member).1⟩
  refine ⟨⟨wellFormed.layout, wellFormed.built, wellFormed.ascending, wellFormed.flatKeys,
    fun key positions found => ?_, fun key positions found position member => ?_⟩, rfl, rfl⟩
  · obtain ⟨old, held, -⟩ := kept key positions found
    exact wellFormed.dataKeys key old held
  · obtain ⟨old, held, inside⟩ := kept key positions found
    exact wellFormed.dataFits key old held position (inside position member)

end Merged

/-- A table read from a blob: the entry of a key and a tombstone. -/
def loadedBlob : PackedTable where
  data := SortedMap.empty
  keyBytes := 0
  dirtyCount := 0
  flat := [5] ++ positionBytes ⟨4, 9, .clean⟩ ++ ([7] ++ positionBytes ⟨u64Max, 0, .removed⟩)
  keySize := some 1

theorem loadedBlob_flat :
    buildFlatBytes (flatIter loadedBlob.flat loadedBlob.keySize) loadedBlob.keySize =
        some loadedBlob.flat ∧
      (flatIter loadedBlob.flat loadedBlob.keySize).Pairwise
        (fun first second => first.1 < second.1) ∧
      ∀ entry ∈ flatIter loadedBlob.flat loadedBlob.keySize, KeyOf (some 1) entry.1 := by
  decide +kernel

theorem wellFormed_loadedBlob : loadedBlob.WellFormed (some 1) where
  layout := Or.inr rfl
  built := loadedBlob_flat.1
  ascending := loadedBlob_flat.2.1
  flatKeys := loadedBlob_flat.2.2
  dataKeys _ _ found := by cases found
  dataFits _ _ found := by cases found

end PackedTable

end Tidehunter.Index
