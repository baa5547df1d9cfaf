import Tidehunter.LargeTable.Relocated

/-!
# Cells at rest

Between operations a cell has no flush in flight, what its readers see lies at or above
the floor of the log, and the levels of a clean cell cover it. Every flush keeps this.
-/

namespace Tidehunter.LargeTable

open Library Wal Index Flusher

variable {K : Type} [LinearOrder K]

namespace Entry

/-- A cell at rest over a log whose oldest file starts at `lowest`. -/
structure Quiescent (lowest : Nat) (entry : Entry K) : Prop where
  ok : entry.Ok
  idle : entry.pendingLastProcessed = none
  floored : ∀ key, entry.FlooredAt lowest key
  covered : entry.state.isDirty = false → ∀ key, entry.levels.view key = entry.get key

theorem ok_fromSnapshotData (levels : IndexLevels K) (lastProcessed : Nat) :
    (fromSnapshotData levels lastProcessed).Ok := by
  refine ⟨fun _ => rfl, fun isEmpty => ?_, fun _ => rfl⟩
  change levels = _
  obtain ⟨l0, deep⟩ := levels
  cases l0 with
  | some blob => cases isEmpty
  | none =>
      cases deep with
      | none => rfl
      | l1 blob => cases isEmpty
      | sharded shards => cases isEmpty

/-- A cell read back from a snapshot shows what its levels hold. -/
theorem probe_fromSnapshotData (levels : IndexLevels K) (lastProcessed : Nat)
    (found : Option WalPosition) (key : K) :
    (fromSnapshotData levels lastProcessed).probe found key = levels.view key := by
  unfold fromSnapshotData
  cases isEmpty : levels.isEmpty with
  | true =>
      have nothing := (ok_fromSnapshotData levels lastProcessed).emptyLevels (by
        simp [fromSnapshotData, isEmpty])
      change levels = _ at nothing
      rw [nothing]
      rfl
  | false => rfl

theorem quiescent_fromSnapshotData {lowest : Nat} {levels : IndexLevels K} {lastProcessed : Nat}
    (floor : ∀ key position, levels.view key = some position → lowest ≤ position.offset) :
    (fromSnapshotData levels lastProcessed).Quiescent lowest where
  ok := ok_fromSnapshotData levels lastProcessed
  idle := rfl
  floored key := by
    refine ⟨fun position found => floor key position ?_, nofun⟩
    rw [← found, get, probe_fromSnapshotData]
  covered _ key := (probe_fromSnapshotData levels lastProcessed _ key).symm

theorem eq_empty_of_isEmpty {table : IndexTable K} (nothing : table.isEmpty = true) :
    table = IndexTable.empty := by
  obtain ⟨data, flat⟩ := table
  simp only [IndexTable.isEmpty, Bool.and_eq_true, SortedMap.isEmpty_iff] at nothing
  have noData : data = SortedMap.empty := SortedMap.ext_lookup fun key => by
    rw [nothing.1 key, SortedMap.lookup_empty]
  have noFlat : flat = SortedMap.empty := SortedMap.ext_lookup fun key => by
    rw [nothing.2 key, SortedMap.lookup_empty]
  rw [noData, noFlat]
  rfl

/-! ## Installing levels -/

theorem ok_clearAfterFlush (config : KsConfig K) (entry : Entry K) (newLevels : IndexLevels K)
    (lastProcessed : Nat) : (clearAfterFlush config entry newLevels lastProcessed).Ok := by
  unfold clearAfterFlush
  split
  · split
    · exact ⟨nofun, nofun, nofun⟩
    · split <;> exact ⟨nofun, nofun, nofun⟩
  · simp only
    split
    · rename_i nothing
      exact ⟨nofun, nofun, fun _ => eq_empty_of_isEmpty nothing⟩
    · exact ⟨nofun, nofun, nofun⟩

theorem pending_clearAfterFlush (config : KsConfig K) (entry : Entry K) (newLevels : IndexLevels K)
    (lastProcessed : Nat) :
    (clearAfterFlush config entry newLevels lastProcessed).pendingLastProcessed =
      entry.pendingLastProcessed := by
  unfold clearAfterFlush
  split
  · split
    · rfl
    · split <;> rfl
  · rfl

theorem levels_clearAfterFlush (config : KsConfig K) (entry : Entry K) (newLevels : IndexLevels K)
    (lastProcessed : Nat) :
    (clearAfterFlush config entry newLevels lastProcessed).levels = newLevels := by
  unfold clearAfterFlush
  split
  · split
    · rfl
    · split <;> rfl
  · rfl

theorem lastProcessed_clearAfterFlush (config : KsConfig K) (entry : Entry K)
    (newLevels : IndexLevels K) (lastProcessed : Nat) :
    (clearAfterFlush config entry newLevels lastProcessed).lastProcessed = entry.lastProcessed := by
  unfold clearAfterFlush
  split
  · split
    · rfl
    · split <;> rfl
  · rfl

theorem state_clearAfterFlush (config : KsConfig K) (entry : Entry K) (newLevels : IndexLevels K)
    (lastProcessed : Nat) :
    (clearAfterFlush config entry newLevels lastProcessed).state ≠ .empty := by
  unfold clearAfterFlush
  split
  · split
    · nofun
    · split <;> nofun
  · simp only
    split <;> nofun

/-- A cell is clean after a flush only if the flush covered every write in memory. -/
theorem covered_of_clean {config : KsConfig K} {entry : Entry K} {newLevels : IndexLevels K}
    {lastProcessed : Nat}
    (clean : (clearAfterFlush config entry newLevels lastProcessed).state.isDirty = false) (key : K) :
    entry.unflushed lastProcessed key = none := by
  have processed : (∀ mark ∈ entry.data.overlay key, mark.offset < lastProcessed) →
      entry.unflushed lastProcessed key = none := by
    intro below
    rw [unflushed, Option.map_eq_none_iff]
    cases latest : entry.data.dataGetLatest key with
    | none => rfl
    | some position =>
        obtain ⟨positions, found, rfl⟩ := Option.map_eq_some_iff.mp latest
        have offset := below _ ⟨positions, found, _, positions.latest_mem, rfl⟩
        simpa [Option.filter] using offset
  unfold clearAfterFlush at clean
  split at clean
  · split at clean
    · cases clean
    · rename_i none
      refine processed (IndexTable.hasUnprocessed_eq_false_iff.mp ?_ key)
      simpa using none
  · simp only at clean
    split at clean
    · rename_i nothing
      rw [unflushed, ← get_retainUnprocessed]
      exact get_of_isEmpty nothing key
    · cases clean

/-- A visible entry of the cleared table is one of the flushed table, or was cleaned. -/
theorem tombstone_clearAfterFlush {config : KsConfig K} {entry : Entry K}
    {newLevels : IndexLevels K} {lastProcessed : Nat} {key : K} {position : IndexWalPosition}
    (found : (clearAfterFlush config entry newLevels lastProcessed).data.entry key = some position)
    (removed : position.isRemoved = true) : entry.data.entry key = some position := by
  unfold clearAfterFlush at found
  split at found
  · split at found
    · exact found
    · split at found
      · rw [IndexTable.isRemoved_of_entry_cleanSelf found] at removed
        cases removed
      · exact found
  · have latest : (entry.data.retainUnprocessed lastProcessed).entry key =
        (entry.data.dataGetLatest key).filter fun held => lastProcessed ≤ held.offset := by
      rw [IndexTable.entry, IndexTable.dataGetLatest_retainUnprocessed]
      exact Option.or_none
    change (entry.data.retainUnprocessed lastProcessed).entry key = some position at found
    rw [latest] at found
    rw [IndexTable.entry, (Option.filter_eq_some_iff.mp found).1, Option.some_or]

/-! ## Flushes keep a cell at rest -/

theorem pending_prepared (entry : Entry K) :
    entry.prepared.pendingLastProcessed = entry.pendingLastProcessed := by
  unfold prepared maybeLoad
  split
  · rfl
  · split <;> rfl

/-- The cell whose table `finishSyncFlush` clears. -/
def rebased (config : KsConfig K) (lastProcessed : Nat) (entry : Entry K)
    (newLevels : IndexLevels K) : Entry K :=
  if config.unloadingDisabled && entry.state.isLoaded then
    { entry with lastProcessed := lastProcessed }.setData
      (entry.data.rebaseOnAsOf newLevels.loadL0 lastProcessed)
  else { entry with lastProcessed := lastProcessed }

theorem finishSyncFlush_eq (config : KsConfig K) (lastProcessed : Nat) (entry : Entry K)
    (newLevels : IndexLevels K) :
    finishSyncFlush config lastProcessed entry newLevels =
      clearAfterFlush config (rebased config lastProcessed entry newLevels) newLevels
        lastProcessed := rfl

theorem unflushed_rebased (config : KsConfig K) (lastProcessed : Nat) (entry : Entry K)
    (newLevels : IndexLevels K) (key : K) :
    (rebased config lastProcessed entry newLevels).unflushed lastProcessed key =
      entry.unflushed lastProcessed key := by
  unfold rebased
  split
  · rw [unflushed, unflushed]
    change ((((entry.data.rebaseOnAsOf newLevels.loadL0 lastProcessed).dataGetLatest key).filter
      fun position => lastProcessed ≤ position.offset).map IndexWalPosition.intoWalPosition) = _
    rw [IndexTable.dataGetLatest_rebaseOnAsOf (data_loadL0 newLevels), Option.filter_filter]
    simp
  · rfl

theorem tombstone_rebased {lowest : Nat} (small : lowest ≤ u64Max) {config : KsConfig K}
    {lastProcessed : Nat} {entry : Entry K} {newLevels : IndexLevels K} {key : K}
    (floored : ∀ position, entry.data.entry key = some position → position.isRemoved = true →
      lowest ≤ position.offset) {position : IndexWalPosition}
    (found : (rebased config lastProcessed entry newLevels).data.entry key = some position)
    (removed : position.isRemoved = true) : lowest ≤ position.offset := by
  unfold rebased at found
  split at found
  · change (entry.data.rebaseOnAsOf newLevels.loadL0 lastProcessed).entry key = some position at found
    rw [IndexTable.entry, IndexTable.dataGetLatest_rebaseOnAsOf (data_loadL0 newLevels),
      IndexTable.flat_rebaseOnAsOf, Option.or_eq_some_iff] at found
    rcases found with upper | ⟨_, lower⟩
    · refine floored position ?_ removed
      rw [IndexTable.entry, (Option.filter_eq_some_iff.mp upper).1, Option.some_or]
    · exact le_offset_loadL0 small lower removed
  · exact floored position found removed

/-- Levels installed by a synchronous flush leave the cell at rest. -/
theorem quiescent_finishSyncFlush {lowest : Nat} (small : lowest ≤ u64Max) (config : KsConfig K)
    (lastProcessed : Nat) {entry : Entry K} (newLevels : IndexLevels K)
    (idle : entry.pendingLastProcessed = none)
    (tombstones : ∀ key position, entry.data.entry key = some position →
      position.isRemoved = true → lowest ≤ position.offset)
    (live : ∀ key position, (finishSyncFlush config lastProcessed entry newLevels).get key =
      some position → lowest ≤ position.offset) :
    (finishSyncFlush config lastProcessed entry newLevels).Quiescent lowest where
  ok := ok_clearAfterFlush config _ newLevels lastProcessed
  idle := by
    rw [finishSyncFlush_eq, pending_clearAfterFlush, rebased]
    split <;> exact idle
  floored key := by
    refine ⟨live key, fun position found removed => ?_⟩
    exact tombstone_rebased small (tombstones key) (tombstone_clearAfterFlush found removed) removed
  covered clean key := by
    rw [finishSyncFlush_eq] at clean
    have nothing := covered_of_clean clean key
    rw [unflushed_rebased] at nothing
    rw [get_finishSyncFlush, nothing, Option.none_or, finishSyncFlush_eq, levels_clearAfterFlush]
    rfl

/-- Re-pointing a cell at rest leaves it at rest. -/
theorem Quiescent.syncFlush_updates {config : KsConfig K} (noCompactor : config.compactor = none)
    {view : LogView} {entry : Entry K} (rest : entry.Quiescent view.minWalPosition)
    {updates : RelocationUpdates K} (fresh : updates.Fresh) {lastProcessed : Nat}
    (ahead : ∀ key position, entry.get key = some position → lastProcessed ≤ position.offset →
      updates.lastProcessed ≤ position.offset)
    (frontier_le : lastProcessed ≤ view.lastProcessed) (writer : IndexWriter) :
    (entry.syncFlush config lastProcessed view writer (.updates updates)).2.Quiescent
      view.minWalPosition := by
  have small : view.minWalPosition ≤ u64Max := view.min_le_current.trans view.current_le
  have live : ∀ key position,
      (entry.syncFlush config lastProcessed view writer (.updates updates)).2.get key =
        some position → view.minWalPosition ≤ position.offset := by
    intro key position found
    rw [get_syncFlush_updates noCompactor rest.ok rest.idle fresh frontier_le writer (ahead key)
      (rest.floored key)] at found
    obtain ⟨old, isOld, rfl⟩ := Option.map_eq_some_iff.mp found
    exact ((rest.floored key).live old isOld).trans
      (RelocationUpdates.offset_le_movedPosition fresh key old)
  obtain ⟨loaded, prepares, _⟩ := prepareSyncFlush_relocation rest.ok rest.idle
    (show (RelocationFlush.updates updates : RelocationFlush K) ≠ .none from nofun)
  rw [syncFlush, prepares] at live ⊢
  exact quiescent_finishSyncFlush small config lastProcessed _
    ((pending_prepared entry).trans rest.idle)
    (fun key position found removed => tombstone_prepared small (rest.floored key) found removed) live

/-- An asynchronous flush leaves a cell at rest. -/
theorem Quiescent.runFlush_flush {config : KsConfig K} (noCompactor : config.compactor = none)
    {view : LogView} {entry : Entry K} (rest : entry.Quiescent view.minWalPosition)
    (dirty : entry.state.isDirty = true) {lastProcessed : Nat}
    (frontier_le : lastProcessed ≤ view.lastProcessed) (writer : IndexWriter)
    (relocatePositions : List WalPosition) :
    (entry.runFlush config lastProcessed view writer
      (.flush entry.data entry.levels entry.state.coversL0 relocatePositions)).2.Quiescent
        view.minWalPosition := by
  have same : ∀ key, (entry.runFlush config lastProcessed view writer
      (.flush entry.data entry.levels entry.state.coversL0 relocatePositions)).2.get key =
        entry.get key := fun key =>
    get_runFlush_flush noCompactor dirty frontier_le writer relocatePositions (rest.floored key)
  have fresh : ∀ key, entry.unflushed lastProcessed key = none → _ := fun key covered =>
    view_flush_of_floored noCompactor dirty frontier_le writer relocatePositions covered
      (rest.floored key)
  rw [Entry.runFlush_flush config dirty] at same ⊢
  generalize (writeFiltered config view writer ((entry.flushed view).retainAbovePosition
    view.minWalPosition) entry.levels relocatePositions).2 = newLevels at same fresh ⊢
  refine ⟨ok_clearAfterFlush _ _ _ _, pending_clearAfterFlush _ _ _ _,
    fun key => ⟨fun position found => ?_, fun position found removed => ?_⟩, fun clean key => ?_⟩
  · rw [same key] at found
    exact (rest.floored key).live position found
  · have held := tombstone_clearAfterFlush found removed
    exact (rest.floored key).tombstone position held removed
  · have nothing := covered_of_clean clean key
    rw [same key, levels_clearAfterFlush]
    exact fresh key nothing

/-- A forced relocation of a clean cell leaves it at rest and changes no read. -/
theorem Quiescent.runFlush_forceRelocate {config : KsConfig K}
    (noCompactor : config.compactor = none) {view : LogView} {entry : Entry K}
    (rest : entry.Quiescent view.minWalPosition) (clean : entry.state.isDirty = false)
    (nonempty : entry.state ≠ .empty) (lastProcessed : Nat) (writer : IndexWriter)
    (relocatePositions : List WalPosition) :
    (entry.runFlush config lastProcessed view writer
        (.forceRelocate entry.levels relocatePositions)).2.Quiescent view.minWalPosition ∧
      ∀ key, (entry.runFlush config lastProcessed view writer
        (.forceRelocate entry.levels relocatePositions)).2.get key = entry.get key := by
  obtain ⟨newWriter, original, newLevels, handled, views⟩ := view_forceRelocate noCompactor view
    writer entry.levels relocatePositions
  obtain ⟨version, result⟩ := Entry.runFlush_forceRelocate rest.ok clean nonempty handled
  have same : ∀ key, newLevels.view key = entry.get key := by
    intro key
    rw [views key fun position found => (rest.floored key).live position
      (rest.covered clean key ▸ found), rest.covered clean key]
  rw [result]
  refine ⟨⟨⟨nofun, nofun, fun _ => rfl⟩, rfl, fun key => ⟨fun position found => ?_, nofun⟩,
    fun _ _ => rfl⟩, same⟩
  exact (rest.floored key).live position ((same key).symm.trans found)

end Entry

end Tidehunter.LargeTable
