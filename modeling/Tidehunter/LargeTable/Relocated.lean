import Tidehunter.LargeTable.EntryReads
import Tidehunter.Flusher.Updates

/-!
# A cell under relocation

Relocation reads a cell as of a frontier, and re-points its entries through a
synchronous flush. A reader then finds a key at its copy, or where it was.
-/

namespace Tidehunter.LargeTable

open Library Wal Index Flusher

variable {K : Type} [LinearOrder K]

namespace Entry

/-! ## As-of views -/

theorem mem_iter_entries {table : IndexTable K} {key : K} {position : WalPosition} :
    (key, position) ∈ table.iter.entries ↔ readable (table.get key) = some position := by
  rw [← IndexTable.lookup_iter, SortedMap.lookup_eq_some_iff]

/-- The blobs below `L0` hold a readable key exactly when a reader finds it there. -/
theorem mem_blobs_iff (deep : DeepLevel K) (key : K) {position : WalPosition} :
    (∃ blob ∈ deep.blobs, readable (blob.content.lookup key) = some position) ↔
      deep.view key = some position := by
  cases deep with
  | none => simp [DeepLevel.blobs, DeepLevel.view, DeepLevel.lookup]
  | l1 blob => simp [DeepLevel.blobs, DeepLevel.view, DeepLevel.lookup]
  | sharded shards =>
      simp only [DeepLevel.blobs, DeepLevel.view, DeepLevel.lookup, List.mem_map,
        exists_exists_and_eq_and, readable_eq_some_iff]
      constructor
      · rintro ⟨piece, member, held, valid⟩
        exact ⟨(Shards.lookup_eq_some_iff valid).mpr ⟨piece, member, held⟩, valid⟩
      · rintro ⟨held, valid⟩
        obtain ⟨piece, member, found⟩ := (Shards.lookup_eq_some_iff valid).mp held
        exact ⟨piece, member, found, valid⟩

/-- The top of an as-of view: the processed overlay over the part of `L0` not in memory. -/
theorem get_asOfTop (entry : Entry K) (lastProcessed : Nat) (key : K) :
    ((if entry.state = .unloaded ∨ entry.state = .dirtyUnloaded then entry.levels.loadL0
        else IndexTable.empty).mergeDirtyAndClean
      (entry.data.retainProcessed lastProcessed)).get key =
      (entry.data.getAt key lastProcessed).or
        (if entry.state = .unloaded ∨ entry.state = .dirtyUnloaded then entry.levels.lookupL0 key
        else none) := by
  split
  · rw [IndexTable.mergeDirtyAndClean, IndexTable.get_mergeDirty (data_loadL0 entry.levels),
      base_loadL0, IndexTable.get_retainProcessed]
  · rw [IndexTable.mergeDirtyAndClean, IndexTable.get_mergeDirty rfl, IndexTable.base_empty,
      IndexTable.get_retainProcessed]

/-- An as-of view lists exactly what a checkpoint read at its frontier finds. -/
theorem mem_asOfView_iff {entry : Entry K} (ok : entry.Ok) {lastProcessed : Nat} {key : K}
    {position : WalPosition} :
    (key, position) ∈ entry.asOfView lastProcessed ↔
      entry.getAt key lastProcessed = some position := by
  have top := get_asOfTop entry lastProcessed key
  rw [getAt_eq ok]
  have whole : (entry.data.getAt key lastProcessed).or (entry.beneath key) =
      ((entry.data.getAt key lastProcessed).or
        (if entry.state = .unloaded ∨ entry.state = .dirtyUnloaded then entry.levels.lookupL0 key
        else none)).or (entry.levels.deep.lookup key) := by
    rw [Option.or_assoc]
    congr 1
    unfold beneath
    cases state : entry.state with
    | empty => simp [EntryState.coversL0, ok.emptyLevels state, IndexLevels.new, IndexLevels.lookup,
        IndexLevels.lookupL0]
    | unloaded => rfl
    | loaded => rfl
    | dirtyUnloaded => rfl
    | dirtyLoaded => rfl
  rw [whole, ← top]
  simp only [asOfView, List.mem_append, mem_iter_entries, List.mem_flatten, List.mem_map,
    exists_exists_and_eq_and, List.mem_filter, Bool.not_eq_true', get_load,
    containsKey_eq_false_iff]
  generalize (if entry.state = .unloaded ∨ entry.state = .dirtyUnloaded then entry.levels.loadL0
    else IndexTable.empty).mergeDirtyAndClean (entry.data.retainProcessed lastProcessed) = table
  cases visible : table.entry key with
  | some held => simp [IndexTable.get, visible]
  | none =>
      simp only [IndexTable.get, visible, Option.map_none, Option.none_or, readable_none, reduceCtorEq,
        false_or, and_true]
      exact mem_blobs_iff entry.levels.deep key

/-- The offset of a readable entry is that of the position a reader gets. -/
theorem offset_of_readable {held : IndexWalPosition} {position : WalPosition}
    (found : readable (some held.intoWalPosition) = some position) :
    held.offset = position.offset := by
  obtain ⟨same, valid⟩ := readable_eq_some_iff.mp found
  cases removed : held.isRemoved with
  | true =>
      rw [IndexWalPosition.intoWalPosition_of_isRemoved removed] at same
      cases Option.some.inj same
      cases valid
  | false =>
      rw [IndexWalPosition.intoWalPosition_of_not_isRemoved removed] at same
      cases Option.some.inj same
      rfl

/-- A key that reads below the frontier reads the same as of the frontier. -/
theorem getAt_of_get {entry : Entry K} (ok : entry.Ok) {lastProcessed : Nat} {key : K}
    {position : WalPosition} (found : entry.get key = some position)
    (below : position.offset < lastProcessed) : entry.getAt key lastProcessed = some position := by
  rw [get_eq ok] at found
  rw [getAt_eq ok]
  cases latest : entry.data.data.lookup key with
  | none =>
      rw [IndexTable.get_of_no_overlay (IndexTable.overlay_of_lookup_none latest)] at found
      rw [IndexTable.getAt_of_no_mark (by simp [IndexTable.overlay_of_lookup_none latest])]
      exact found
  | some positions =>
      have isLatest : entry.data.get key = some positions.latest.intoWalPosition := by
        simp [IndexTable.get, IndexTable.entry, IndexTable.dataGetLatest, latest]
      have offset : positions.latest.offset = position.offset := by
        rw [isLatest, Option.some_or] at found
        exact offset_of_readable found
      have processed : ∀ mark ∈ entry.data.overlay key, mark.offset < lastProcessed := by
        rintro mark ⟨held, isHeld, member, inside, rfl⟩
        obtain rfl : positions = held := Option.some.inj (latest.symm.trans isHeld)
        have ordered := IndexWalPosition.offset_le_of_le (AscList.le_latest inside)
        rw [IndexWalPosition.mark_offset]
        omega
      rw [← IndexTable.get_eq_getAt processed]
      exact found

/-! ## Re-pointing -/

/-- The cell's readable position of a key lies at or above the floor, and so does a
tombstone of the key in memory. -/
structure FlooredAt (lowest : Nat) (entry : Entry K) (key : K) : Prop where
  live : ∀ position, entry.get key = some position → lowest ≤ position.offset
  tombstone : ∀ position, entry.data.entry key = some position → position.isRemoved = true →
    lowest ≤ position.offset

/-- A tombstone decoded from `L0` is the sentinel. -/
theorem le_offset_loadL0 {lowest : Nat} (small : lowest ≤ u64Max) {levels : IndexLevels K} {key : K}
    {position : IndexWalPosition} (found : levels.loadL0.flat.lookup key = some position)
    (removed : position.isRemoved = true) : lowest ≤ position.offset := by
  unfold IndexLevels.loadL0 at found
  split at found
  · rename_i blob _
    have isEntry : blob.load.entry key = some position := by
      rw [IndexTable.entry, show blob.load.dataGetLatest key = none from rfl, Option.none_or, found]
    rw [entry_load] at isEntry
    obtain ⟨onDisk, _, rfl⟩ := Option.map_eq_some_iff.mp isEntry
    unfold IndexWalPosition.fromDisk at removed ⊢
    split at removed
    · rename_i sentinel
      rw [if_pos sentinel, sentinel]
      exact small
    · cases removed
  · cases found

theorem tombstone_prepared {lowest : Nat} (small : lowest ≤ u64Max) {entry : Entry K} {key : K}
    (floored : entry.FlooredAt lowest key) {position : IndexWalPosition}
    (found : entry.prepared.data.entry key = some position) (removed : position.isRemoved = true) :
    lowest ≤ position.offset := by
  unfold prepared at found
  split at found
  · exact floored.tombstone position found removed
  · rename_i clean
    unfold maybeLoad at found
    split at found
    · have noData : entry.levels.loadL0.dataGetLatest key = none := by
        simp [IndexTable.dataGetLatest]
      rw [setData, IndexTable.entry, noData, Option.none_or] at found
      exact le_offset_loadL0 small found removed
    · rename_i state
      simp [state, EntryState.isDirty] at clean
    · exact floored.tombstone position found removed

/-- What a flush that covers every write of a key sees of it lies above the floor. -/
theorem floored_flushed {lowest : Nat} (small : lowest ≤ u64Max) {entry : Entry K} (ok : entry.Ok)
    {lastProcessed : Nat} {view : LogView} (frontier_le : lastProcessed ≤ view.lastProcessed)
    {key : K} (covered : entry.prepared.unflushed lastProcessed key = none)
    (floored : entry.FlooredAt lowest key) :
    Floored lowest (entry.prepared.flushed view) entry.levels.deep key := by
  have reads := get_of_flushed (ok_prepared ok) frontier_le covered
  rw [get_prepared ok, levels_prepared] at reads
  have below : ∀ mark ∈ entry.prepared.data.overlay key, mark.offset < view.lastProcessed :=
    fun mark member => lt_of_lt_of_le (overlay_lt_of_covered covered mark member) frontier_le
  refine ⟨fun position visible => ?_, fun absent position deep => ?_⟩
  · cases removed : position.isRemoved with
    | false =>
        cases valid : readable (some position.intoWalPosition) with
        | some real =>
            rw [offset_of_readable valid]
            refine floored.live real ?_
            rw [reads, IndexTable.get, visible]
            exact valid
        | none =>
            -- only the sentinel does not read
            rw [IndexWalPosition.intoWalPosition_of_not_isRemoved removed] at valid
            have sentinel : (⟨position.offset, position.len⟩ : WalPosition) = WalPosition.invalid := by
              by_contra real
              have isRead : readable (some (⟨position.offset, position.len⟩ : WalPosition)) = some _ :=
                readable_eq_some_iff.mpr ⟨rfl, by simpa [WalPosition.isValid] using real⟩
              rw [isRead] at valid
              cases valid
            have offset : position.offset = u64Max := congrArg WalPosition.offset sentinel
            omega
    | true =>
        rw [flushed, entry_flushedTable below, levels_prepared] at visible
        split at visible
        · exact tombstone_prepared small floored visible removed
        · rcases Option.or_eq_some_iff.mp visible with upper | ⟨_, lower⟩
          · obtain ⟨held, isHeld, rfl⟩ := Option.map_eq_some_iff.mp upper
            rw [IndexTable.offset_demote]
            refine tombstone_prepared small floored isHeld ?_
            have same := congrArg Mark.removed (IndexTable.mark_demote true held)
            exact same.symm.trans removed
          · exact le_offset_loadL0 small lower removed
  · refine floored.live position ?_
    rw [reads, IndexTable.get, absent]
    exact deep

/-- A synchronous flush with updates re-points exactly the entries below the threshold,
if what it does not flush is not below it. -/
theorem get_syncFlush_updates {config : KsConfig K} (noCompactor : config.compactor = none)
    {entry : Entry K} (ok : entry.Ok) (idle : entry.pendingLastProcessed = none)
    {updates : RelocationUpdates K} (fresh : updates.Fresh) {lastProcessed : Nat} {view : LogView}
    (frontier_le : lastProcessed ≤ view.lastProcessed) (writer : IndexWriter) {key : K}
    (ahead : ∀ position, entry.get key = some position → lastProcessed ≤ position.offset →
      updates.lastProcessed ≤ position.offset)
    (floored : entry.FlooredAt view.minWalPosition key) :
    (entry.syncFlush config lastProcessed view writer (.updates updates)).2.get key =
      (entry.get key).map (RelocationUpdates.movedPosition updates.lastProcessed
        (RelocationUpdates.target updates.updates key)) := by
  obtain ⟨loaded, prepares, table⟩ := prepareSyncFlush_relocation ok idle
    (show (RelocationFlush.updates updates : RelocationFlush K) ≠ .none from nofun)
  rw [syncFlush, prepares]
  simp only [handleCommand_updates, table]
  rw [get_finishSyncFlush]
  cases unflushed : entry.prepared.unflushed lastProcessed key with
  | some position =>
      have reads := (get_prepared ok key).symm.trans (get_of_unflushed (ok_prepared ok) unflushed)
      rw [reads, Option.some_or]
      cases real : readable (some position) with
      | none => rfl
      | some found =>
          obtain ⟨latest, isLatest, rfl⟩ := Option.map_eq_some_iff.mp unflushed
          have high : lastProcessed ≤ latest.offset := by
            simpa using (Option.filter_eq_some_iff.mp isLatest).2
          have offset := offset_of_readable real
          have notBelow : ¬ found.offset < updates.lastProcessed :=
            Nat.not_lt.mpr (ahead found (reads.trans real) (by omega))
          cases RelocationUpdates.target updates.updates key <;>
            simp [RelocationUpdates.movedPosition, notBelow]
  | none =>
      have small : view.minWalPosition ≤ u64Max := view.min_le_current.trans view.current_le
      have seen := floored_flushed small ok frontier_le unflushed floored
      obtain ⟨moved, stays⟩ := applyRelocation_spec config fresh noCompactor small writer
        (entry.prepared.flushed view) entry.levels seen
      have reads := get_of_flushed (ok_prepared ok) frontier_le unflushed
      rw [get_prepared ok, levels_prepared] at reads
      rw [Option.none_or, reads, ← moved]
      exact view_writeFiltered_of_floored noCompactor view _ [] stays

/-! ## Flushes that move nothing -/

/-- The levels a flush writes for a key it covers read as the cell did. -/
theorem view_flush_of_floored {config : KsConfig K} (noCompactor : config.compactor = none)
    {entry : Entry K} (dirty : entry.state.isDirty = true) {lastProcessed : Nat} {view : LogView}
    (frontier_le : lastProcessed ≤ view.lastProcessed) (writer : IndexWriter)
    (relocatePositions : List WalPosition) {key : K}
    (covered : entry.unflushed lastProcessed key = none)
    (floored : entry.FlooredAt view.minWalPosition key) :
    (writeFiltered config view writer ((entry.flushed view).retainAbovePosition view.minWalPosition)
      entry.levels relocatePositions).2.view key = entry.get key := by
  have small : view.minWalPosition ≤ u64Max := view.min_le_current.trans view.current_le
  have isPrepared : entry.prepared = entry := by simp [prepared, dirty]
  have seen := floored_flushed small (ok_of_isDirty dirty) frontier_le
    (show entry.prepared.unflushed lastProcessed key = none by rw [isPrepared, covered]) floored
  rw [isPrepared] at seen
  rw [get_of_flushed (ok_of_isDirty dirty) frontier_le covered]
  exact view_writeFiltered_of_floored noCompactor view writer relocatePositions seen

/-- Run an asynchronous flush from its request to its completion, with nothing between. -/
def runFlush (config : KsConfig K) (lastProcessed : Nat) (view : LogView) (writer : IndexWriter)
    (entry : Entry K) (kind : FlushKind K) : IndexWriter × Entry K :=
  let requested := { entry with pendingLastProcessed := some lastProcessed }
  match handleCommand config view writer kind .none with
  | (writer, none) => (writer, requested)
  | (writer, some (original, newLevels)) =>
      match kind with
      | .flush _ _ _ _ =>
          (writer, (requested.updateFlushedIndex config original entry.version newLevels).getD requested)
      | .forceRelocate _ _ => (writer, (requested.updateRelocatedPosition newLevels).getD requested)

/-- A flush that keeps the table in memory leaves the level below `L0` as it read. -/
theorem deep_view_flush_of_floored {config : KsConfig K} (noCompactor : config.compactor = none)
    {entry : Entry K} (dirty : entry.state.isDirty = true) (covers : entry.state.coversL0 = true)
    {view : LogView} (writer : IndexWriter) (relocatePositions : List WalPosition) {key : K}
    (absent : entry.data.get key = none) (floored : entry.FlooredAt view.minWalPosition key) :
    (writeFiltered config view writer ((entry.flushed view).retainAbovePosition view.minWalPosition)
      entry.levels relocatePositions).2.deep.view key = entry.levels.deep.view key := by
  have noEntry := Option.map_eq_none_iff.mp absent
  rw [IndexTable.entry, Option.or_eq_none_iff] at noEntry
  have covered : entry.unflushed view.lastProcessed key = none := by
    rw [unflushed, noEntry.1]
    rfl
  have whole := view_flush_of_floored noCompactor dirty (le_refl _) writer relocatePositions covered
    floored
  rw [get_eq (ok_of_isDirty dirty), absent, Option.none_or, beneath, covers, if_pos rfl] at whole
  rcases deep_writeFiltered config view writer
    ((entry.flushed view).retainAbovePosition view.minWalPosition) entry.levels relocatePositions
    key with same | same
  · rw [same, whole]
    rfl
  · exact same

theorem runFlush_flush (config : KsConfig K) {entry : Entry K} (dirty : entry.state.isDirty = true)
    (lastProcessed : Nat) (view : LogView) (writer : IndexWriter)
    (relocatePositions : List WalPosition) :
    (entry.runFlush config lastProcessed view writer
      (.flush entry.data entry.levels entry.state.coversL0 relocatePositions)).2 =
      clearAfterFlush config
        { entry with lastProcessed := lastProcessed, pendingLastProcessed := none }
        (writeFiltered config view writer
          ((entry.flushed view).retainAbovePosition view.minWalPosition) entry.levels
          relocatePositions).2 lastProcessed := by
  rw [runFlush, handleCommand_flush]
  simp [updateFlushedIndex, dirty, flushed]

/-- An asynchronous flush of a dirty cell changes no read of a key above the floor. -/
theorem get_runFlush_flush {config : KsConfig K} (noCompactor : config.compactor = none)
    {entry : Entry K} (dirty : entry.state.isDirty = true) {lastProcessed : Nat} {view : LogView}
    (frontier_le : lastProcessed ≤ view.lastProcessed) (writer : IndexWriter)
    (relocatePositions : List WalPosition) {key : K}
    (floored : entry.FlooredAt view.minWalPosition key) :
    (entry.runFlush config lastProcessed view writer
      (.flush entry.data entry.levels entry.state.coversL0 relocatePositions)).2.get key =
      entry.get key := by
  rw [runFlush_flush config dirty]
  cases kept : entry.state.isLoaded && config.unloadingDisabled with
  | false =>
      refine (get_clearAfterFlush_of_evicted config
        { entry with lastProcessed := lastProcessed, pendingLastProcessed := none } kept _ _ key).trans ?_
      change readable ((entry.unflushed lastProcessed key).or _) = _
      cases unflushed : entry.unflushed lastProcessed key with
      | some position => rw [get_of_unflushed (ok_of_isDirty dirty) unflushed, Option.some_or]
      | none =>
          exact view_flush_of_floored noCompactor dirty frontier_le writer relocatePositions
            unflushed floored
  | true =>
      have loaded : entry.state.isLoaded = true := (Bool.and_eq_true _ _ ▸ kept).1
      have covers : entry.state.coversL0 = true := by
        cases state : entry.state <;> simp_all [EntryState.isDirty, EntryState.isLoaded,
          EntryState.coversL0]
      refine (get_clearAfterFlush_of_kept config
        { entry with lastProcessed := lastProcessed, pendingLastProcessed := none } kept _ _ key).trans ?_
      rw [get_eq (ok_of_isDirty dirty), beneath, covers, if_pos rfl]
      refine readable_or_congr fun absent => ?_
      exact deep_view_flush_of_floored noCompactor dirty covers writer relocatePositions absent
        floored

/-- The one table a forced relocation makes of the blobs of an unsharded cell. -/
def collapsed (levels : IndexLevels K) : IndexTable K :=
  (mergeForFlush (.forceRelocate levels [])).1

theorem mark_entry_collapsed {levels : IndexLevels K} (whole : levels.deep.isSharded = false)
    (key : K) :
    (collapsed levels).data = SortedMap.empty ∧
      ((collapsed levels).entry key).map IndexWalPosition.mark =
        (levels.lookup key).map fun position => (IndexWalPosition.fromDisk position).mark := by
  obtain ⟨l0, deep⟩ := levels
  have base : ∃ table : IndexTable K, table.data = SortedMap.empty ∧
      (∀ other, table.flat.lookup other = (deep.lookup other).map IndexWalPosition.fromDisk) ∧
      collapsed ⟨none, deep⟩ = table ∧
      ∀ blob, collapsed ⟨some blob, deep⟩ = table.mergeDirtyAndClean blob.load := by
    cases deep with
    | none => exact ⟨IndexTable.empty, rfl, fun _ => rfl, rfl, fun _ => rfl⟩
    | l1 blob => exact ⟨blob.load, rfl, fun other => entry_load blob other, rfl, fun _ => rfl⟩
    | sharded shards => cases whole
  obtain ⟨table, noData, under, bare, merged⟩ := base
  cases l0 with
  | none =>
      rw [bare]
      refine ⟨noData, ?_⟩
      rw [IndexTable.entry, IndexTable.dataGetLatest, noData, under, IndexLevels.lookup]
      simp [IndexLevels.lookupL0, Function.comp_def]
  | some blob =>
      rw [merged]
      refine ⟨SortedMap.ext_lookup fun other => ?_, ?_⟩
      · rw [IndexTable.mergeDirtyAndClean, IndexTable.lookup_data_mergeDirty noData]
        rfl
      · rw [IndexTable.mergeDirtyAndClean, IndexTable.entry_mergeDirty noData, entry_load, under,
          IndexLevels.lookup, IndexLevels.lookupL0]
        cases found : blob.content.lookup key with
        | some position => simp [found]
        | none => simp [found, Function.comp_def]

/-- The one blob of a collapsed cell reads as its levels did. -/
theorem view_writeLevels_collapsed {config : KsConfig K} (noCompactor : config.compactor = none)
    (view : LogView) (writer : IndexWriter) {levels : IndexLevels K}
    (whole : levels.deep.isSharded = false) {key : K}
    (above : ∀ position, levels.view key = some position → view.minWalPosition ≤ position.offset) :
    (writeLevels config view writer true (((collapsed levels).retainProcessed
      view.lastProcessed).retainAbovePosition view.minWalPosition) IndexLevels.new).2.view key =
      levels.view key := by
  have small : view.minWalPosition ≤ u64Max := view.min_le_current.trans view.current_le
  obtain ⟨noData, marks⟩ := mark_entry_collapsed whole key
  have processed : ((collapsed levels).retainProcessed view.lastProcessed).entry key =
      (collapsed levels).entry key := by
    refine IndexTable.entry_retainProcessed ?_
    rw [IndexTable.overlay_of_lookup_none (by rw [noData, SortedMap.lookup_empty])]
    exact nofun
  have kept : (((collapsed levels).retainProcessed view.lastProcessed).retainAbovePosition
      view.minWalPosition).get key = levels.lookup key := by
    rw [get_retainAbovePosition_of_le, IndexTable.get, processed]
    · cases found : levels.lookup key with
      | none => simpa [found] using marks
      | some position =>
          rw [found] at marks
          obtain ⟨held, isHeld, same⟩ := Option.map_eq_some_iff.mp marks
          rw [isHeld, Option.map_some, IndexWalPosition.intoWalPosition_eq, same,
            ← IndexWalPosition.intoWalPosition_eq, IndexWalPosition.intoWalPosition_fromDisk]
    · intro held isHeld
      rw [processed] at isHeld
      rw [isHeld] at marks
      obtain ⟨position, found, same⟩ := Option.map_eq_some_iff.mp marks.symm
      have offset := congrArg Mark.offset same
      rw [IndexWalPosition.mark_offset, IndexWalPosition.mark_offset] at offset
      rw [← offset]
      refine le_offset_fromDisk small fun real isReal => above real ?_
      rw [IndexLevels.view, found, isReal]
  rw [view_writeLevels]
  simp only [deepestTable, Bool.not_true, Bool.false_and, Bool.false_eq_true, if_false]
  rw [runCompactor_of_no_compactor noCompactor, kept]
  simp [IndexLevels.new, DeepLevel.lookup, IndexLevels.view]

/-- The blobs of a cell written again read as they did. -/
theorem view_forceRelocate {config : KsConfig K} (noCompactor : config.compactor = none)
    (view : LogView) (writer : IndexWriter) (levels : IndexLevels K)
    (relocatePositions : List WalPosition) :
    ∃ newWriter original newLevels,
      handleCommand config view writer (.forceRelocate levels relocatePositions) .none =
          (newWriter, some (original, newLevels)) ∧
        ∀ key, (∀ position, levels.view key = some position →
            view.minWalPosition ≤ position.offset) →
          newLevels.view key = levels.view key := by
  obtain ⟨l0, deep⟩ := levels
  cases deep with
  | sharded shards =>
      exact ⟨(relocateInLevels config writer ⟨l0, .sharded shards⟩ relocatePositions).1,
        IndexTable.empty, (relocateInLevels config writer ⟨l0, .sharded shards⟩ relocatePositions).2,
        rfl, fun key _ => view_relocateInLevels config writer _ relocatePositions key⟩
  | none =>
      exact ⟨_, _, _, rfl, fun key above =>
        view_writeLevels_collapsed noCompactor view writer rfl above⟩
  | l1 blob =>
      exact ⟨_, _, _, rfl, fun key above =>
        view_writeLevels_collapsed noCompactor view writer rfl above⟩

/-- A forced relocation leaves a clean cell unloaded over its new levels. -/
theorem runFlush_forceRelocate {config : KsConfig K} {entry : Entry K} (ok : entry.Ok)
    (clean : entry.state.isDirty = false) (nonempty : entry.state ≠ .empty) {lastProcessed : Nat}
    {view : LogView} {writer newWriter : IndexWriter} {relocatePositions : List WalPosition}
    {original : IndexTable K} {newLevels : IndexLevels K}
    (handled : handleCommand config view writer (.forceRelocate entry.levels relocatePositions)
      .none = (newWriter, some (original, newLevels))) :
    ∃ version, (entry.runFlush config lastProcessed view writer
      (.forceRelocate entry.levels relocatePositions)).2 =
        ⟨.unloaded, newLevels, IndexTable.empty, version, lastProcessed, none⟩ := by
  rw [runFlush, handled]
  cases state : entry.state with
  | empty => exact absurd state nonempty
  | unloaded =>
      refine ⟨entry.version, ?_⟩
      simp [updateRelocatedPosition, ok.unloadedData state]
  | loaded =>
      refine ⟨entry.version + 1, ?_⟩
      simp [updateRelocatedPosition, setData]
  | dirtyUnloaded => simp [state, EntryState.isDirty] at clean
  | dirtyLoaded => simp [state, EntryState.isDirty] at clean

end Entry

end Tidehunter.LargeTable
