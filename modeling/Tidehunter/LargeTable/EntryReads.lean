import Tidehunter.LargeTable.Entry
import Tidehunter.Flusher.Result

/-!
# Reads of a cell across a flush

What a reader of one key finds in a cell after a flush installed its levels: a write
that the flush did not cover, or what the new levels hold.
-/

namespace Tidehunter.LargeTable

open Library Wal Index Flusher

variable {K : Type} [LinearOrder K]

namespace Entry

/-- An empty cell holds nothing, and an unloaded cell nothing in memory. -/
structure Ok (entry : Entry K) : Prop where
  emptyData : entry.state = .empty → entry.data = IndexTable.empty
  emptyLevels : entry.state = .empty → entry.levels = IndexLevels.new
  unloadedData : entry.state = .unloaded → entry.data = IndexTable.empty

/-- A cell with no flush in flight. -/
structure Settled (K : Type) [LinearOrder K] where
  entry : Entry K
  ok : entry.Ok
  idle : entry.pendingLastProcessed = none

theorem flushKind_eq_some {entry : Entry K} {positions : List WalPosition} {kind : FlushKind K}
    (isKind : entry.flushKind positions = some kind) :
    entry.state.isDirty = true ∧
      kind = .flush entry.data entry.levels entry.state.coversL0 positions := by
  unfold flushKind at isKind
  cases state : entry.state with
  | empty => simp [state] at isKind
  | unloaded => simp [state] at isKind
  | loaded => simp [state] at isKind
  | dirtyUnloaded =>
      simp only [state, Option.some.injEq] at isKind
      exact ⟨rfl, isKind.symm⟩
  | dirtyLoaded =>
      simp only [state, Option.some.injEq] at isKind
      exact ⟨rfl, isKind.symm⟩

theorem flushKind_eq_none {entry : Entry K} {positions : List WalPosition}
    (isKind : entry.flushKind positions = none) : entry.state.isDirty = false := by
  unfold flushKind at isKind
  cases state : entry.state <;> simp_all [EntryState.isDirty]

theorem get_table_empty (key : K) : (IndexTable.empty : IndexTable K).get key = none := rfl

/-- A read looks in memory first and then at the levels beneath. -/
theorem get_eq {entry : Entry K} (ok : entry.Ok) (key : K) :
    entry.get key = readable ((entry.data.get key).or (entry.beneath key)) := by
  unfold get probe
  split
  · rename_i state
    rw [ok.emptyData state, get_table_empty, Option.none_or, beneath, ok.emptyLevels state, state]
    rfl
  · rename_i state
    rw [ok.unloadedData state, get_table_empty, Option.none_or]
  · rfl
  · rfl
  · rfl

theorem getAt_eq {entry : Entry K} (ok : entry.Ok) (key : K) (frontier : Nat) :
    entry.getAt key frontier = readable ((entry.data.getAt key frontier).or (entry.beneath key)) := by
  unfold getAt probe
  split
  · rename_i state
    rw [ok.emptyData state, beneath, ok.emptyLevels state, state]
    rfl
  · rename_i state
    rw [ok.unloadedData state]
    rfl
  · rfl
  · rfl
  · rfl

/-- The write of a key that a flush up to a frontier leaves in memory. -/
def unflushed (entry : Entry K) (lastProcessed : Nat) (key : K) : Option WalPosition :=
  ((entry.data.dataGetLatest key).filter fun position => lastProcessed ≤ position.offset).map
    IndexWalPosition.intoWalPosition

/-- A write that is not flushed is what a reader sees. -/
theorem get_of_unflushed {entry : Entry K} (ok : entry.Ok) {lastProcessed : Nat} {key : K}
    {position : WalPosition} (kept : entry.unflushed lastProcessed key = some position) :
    entry.get key = readable (some position) := by
  obtain ⟨latest, isLatest, rfl⟩ := Option.map_eq_some_iff.mp kept
  have newest := (Option.filter_eq_some_iff.mp isLatest).1
  rw [get_eq ok, IndexTable.get, IndexTable.entry, newest]
  rfl

/-! ## Loading -/

/-- The cell a synchronous flush for relocation works on: a clean cell is loaded first. -/
def prepared (entry : Entry K) : Entry K := if entry.state.isDirty then entry else entry.maybeLoad

theorem ok_maybeLoad {entry : Entry K} (ok : entry.Ok) : entry.maybeLoad.Ok := by
  unfold maybeLoad
  split
  · exact ⟨nofun, nofun, nofun⟩
  · exact ⟨nofun, nofun, nofun⟩
  · exact ok

theorem ok_prepared {entry : Entry K} (ok : entry.Ok) : entry.prepared.Ok := by
  unfold prepared
  split
  · exact ok
  · exact ok_maybeLoad ok

/-- Loading changes no read. -/
theorem get_maybeLoad {entry : Entry K} (ok : entry.Ok) (key : K) :
    entry.maybeLoad.get key = entry.get key := by
  rw [get_eq (ok_maybeLoad ok), get_eq ok]
  unfold maybeLoad
  split
  · rename_i state
    simp [ok.unloadedData state, get_table_empty, beneath, state, EntryState.coversL0, setData,
      IndexLevels.lookup]
  · rename_i state
    simp [beneath, state, EntryState.coversL0, setData, IndexLevels.lookup,
      IndexTable.mergeDirtyNoClean, IndexTable.get_mergeDirty (data_loadL0 entry.levels),
      Option.or_assoc]
  · rfl

theorem get_prepared {entry : Entry K} (ok : entry.Ok) (key : K) :
    entry.prepared.get key = entry.get key := by
  unfold prepared
  split
  · rfl
  · exact get_maybeLoad ok key

@[simp]
theorem levels_prepared (entry : Entry K) : entry.prepared.levels = entry.levels := by
  unfold prepared maybeLoad
  split
  · rfl
  · split <;> rfl

/-! ## Flush commands -/

theorem flushKind_of_isDirty {entry : Entry K} (dirty : entry.state.isDirty = true)
    (relocatePositions : List WalPosition) :
    entry.flushKind relocatePositions =
      some (.flush entry.data entry.levels entry.state.coversL0 relocatePositions) := by
  unfold flushKind
  cases state : entry.state <;> simp_all [EntryState.isDirty, EntryState.coversL0]

theorem flushKind_of_not_isDirty {entry : Entry K} (clean : entry.state.isDirty = false)
    (relocatePositions : List WalPosition) : entry.flushKind relocatePositions = none := by
  unfold flushKind
  cases state : entry.state <;> simp_all [EntryState.isDirty]

theorem ok_of_isDirty {entry : Entry K} (dirty : entry.state.isDirty = true) : entry.Ok where
  emptyData state := by simp [state, EntryState.isDirty] at dirty
  emptyLevels state := by simp [state, EntryState.isDirty] at dirty
  unloadedData state := by simp [state, EntryState.isDirty] at dirty

/-- The table of a cell that a flush writes, as of the frontier it reads. -/
def flushed (entry : Entry K) (view : LogView) : IndexTable K :=
  flushedTable view entry.data entry.levels entry.state.coversL0

/-- A flush for relocation writes the table of the prepared cell. -/
theorem prepareSyncFlush_relocation {entry : Entry K} (ok : entry.Ok)
    (idle : entry.pendingLastProcessed = none) {relocation : RelocationFlush K}
    (moves : relocation ≠ .none) :
    ∃ loaded, entry.prepareSyncFlush relocation =
        some (entry.prepared, .flush entry.prepared.data entry.levels loaded []) ∧
      ∀ view, flushedTable view entry.prepared.data entry.levels loaded =
        entry.prepared.flushed view := by
  unfold prepareSyncFlush
  cases dirty : entry.state.isDirty with
  | true =>
      rw [flushKind_of_isDirty dirty]
      exact ⟨entry.state.coversL0, by simp [prepared, dirty],
        fun view => by simp [prepared, dirty, flushed]⟩
  | false =>
      rw [flushKind_of_not_isDirty dirty]
      have isPrepared : entry.prepared = entry.maybeLoad := by simp [prepared, dirty]
      refine ⟨true, ?_, fun view => ?_⟩
      · rw [← isPrepared]
        cases relocation with
        | none => exact absurd rfl moves
        | updates updates => simp
        | cutoff position => simp
      · rw [isPrepared]
        cases state : entry.state with
        | empty =>
            have same : entry.maybeLoad = entry := by simp [maybeLoad, idle, state]
            rw [same, flushed, ok.emptyData state, ok.emptyLevels state, state]
            rfl
        | unloaded => simp [maybeLoad, idle, state, flushed, EntryState.coversL0, setData]
        | loaded => simp [maybeLoad, idle, state, flushed, EntryState.coversL0]
        | dirtyUnloaded => simp [state, EntryState.isDirty] at dirty
        | dirtyLoaded => simp [state, EntryState.isDirty] at dirty

/-- Without an unflushed write, every write of the key in memory is below the frontier. -/
theorem overlay_lt_of_covered {entry : Entry K} {lastProcessed : Nat} {key : K}
    (covered : entry.unflushed lastProcessed key = none) :
    ∀ mark ∈ entry.data.overlay key, mark.offset < lastProcessed := by
  rintro mark ⟨positions, found, position, member, rfl⟩
  have latest : ¬ lastProcessed ≤ positions.latest.offset := by
    have rejected := Option.map_eq_none_iff.mp covered
    simpa [IndexTable.dataGetLatest, found, Option.filter] using rejected
  have ordered := IndexWalPosition.offset_le_of_le (AscList.le_latest member)
  simp only [IndexWalPosition.mark_offset]
  omega

/-- A key without an unflushed write reads through the flushed table. -/
theorem get_of_flushed {entry : Entry K} (ok : entry.Ok) {lastProcessed : Nat} {view : LogView}
    (frontier_le : lastProcessed ≤ view.lastProcessed) {key : K}
    (covered : entry.unflushed lastProcessed key = none) :
    entry.get key = readable (((entry.flushed view).get key).or (entry.levels.deep.lookup key)) := by
  have below : ∀ mark ∈ entry.data.overlay key, mark.offset < view.lastProcessed :=
    fun mark member => lt_of_lt_of_le (overlay_lt_of_covered covered mark member) frontier_le
  rw [get_eq ok, IndexTable.get_eq_getAt below, flushed, get_flushedTable, beneath]
  cases entry.state.coversL0 with
  | true => simp
  | false => simp [IndexLevels.lookup, Option.or_assoc]

/-! ## Installing levels -/

theorem get_retainUnprocessed (table : IndexTable K) (lastProcessed : Nat) (key : K) :
    (table.retainUnprocessed lastProcessed).get key =
      ((table.dataGetLatest key).filter fun position => lastProcessed ≤ position.offset).map
        IndexWalPosition.intoWalPosition := by
  have flat : (table.retainUnprocessed lastProcessed).flat.lookup key = none := rfl
  rw [IndexTable.get, IndexTable.entry, IndexTable.dataGetLatest_retainUnprocessed, flat,
    Option.or_none]

theorem get_of_isEmpty {table : IndexTable K} (nothing : table.isEmpty = true) (key : K) :
    table.get key = none := by
  simp only [IndexTable.isEmpty, Bool.and_eq_true, SortedMap.isEmpty_iff] at nothing
  simp [IndexTable.get, IndexTable.entry, IndexTable.dataGetLatest, nothing.1 key, nothing.2 key]

theorem get_clearAfterFlush_of_evicted (config : KsConfig K) (entry : Entry K)
    (evicted : (entry.state.isLoaded && config.unloadingDisabled) = false)
    (newLevels : IndexLevels K) (lastProcessed : Nat) (key : K) :
    (clearAfterFlush config entry newLevels lastProcessed).get key =
      readable ((entry.unflushed lastProcessed key).or (newLevels.lookup key)) := by
  unfold clearAfterFlush
  simp only [evicted, Bool.false_eq_true, if_false]
  by_cases nothing : (entry.data.retainUnprocessed lastProcessed).isEmpty = true
  · have none : entry.unflushed lastProcessed key = none := by
      rw [unflushed, ← get_retainUnprocessed]
      exact get_of_isEmpty nothing key
    simp [nothing, get, probe, beneath, EntryState.coversL0, none]
  · simp [nothing, get, probe, beneath, EntryState.coversL0, setData, unflushed,
      get_retainUnprocessed]

/-- A cell that keeps its table reads on from it. -/
theorem get_clearAfterFlush_of_kept (config : KsConfig K) (entry : Entry K)
    (kept : (entry.state.isLoaded && config.unloadingDisabled) = true)
    (newLevels : IndexLevels K) (lastProcessed : Nat) (key : K) :
    (clearAfterFlush config entry newLevels lastProcessed).get key =
      readable ((entry.data.get key).or (newLevels.deep.lookup key)) := by
  unfold clearAfterFlush
  simp only [kept, if_true]
  split
  · rfl
  · split
    · rename_i nothingBelow
      have deep : newLevels.deep.lookup key = none := by
        cases below : newLevels.deep with
        | none => rfl
        | l1 blob => simp [below, DeepLevel.isNone] at nothingBelow
        | sharded shards => simp [below, DeepLevel.isNone] at nothingBelow
      simp [get, probe, beneath, EntryState.coversL0, setData, deep,
        IndexTable.readable_get_cleanSelf]
    · rfl

theorem get_finishSyncFlush (config : KsConfig K) (entry : Entry K) (newLevels : IndexLevels K)
    (lastProcessed : Nat) (key : K) :
    (finishSyncFlush config lastProcessed entry newLevels).get key =
      readable ((entry.unflushed lastProcessed key).or (newLevels.lookup key)) := by
  unfold finishSyncFlush
  cases kept : config.unloadingDisabled && entry.state.isLoaded with
  | false =>
      simp only [kept, Bool.false_eq_true, if_false]
      rw [get_clearAfterFlush_of_evicted _ _ (by simpa [Bool.and_comm] using kept)]
      rfl
  | true =>
      simp only [kept, if_true]
      rw [get_clearAfterFlush_of_kept _ _ (by simpa [Bool.and_comm, setData] using kept)]
      have rebased : (entry.data.rebaseOnAsOf newLevels.loadL0 lastProcessed).get key =
          (entry.unflushed lastProcessed key).or (newLevels.lookupL0 key) := by
        rw [IndexTable.get, IndexTable.entry,
          IndexTable.dataGetLatest_rebaseOnAsOf (data_loadL0 newLevels), IndexTable.flat_rebaseOnAsOf,
          Option.map_or, ← base_loadL0]
        rfl
      simp only [setData, rebased, Option.or_assoc]
      rfl

end Entry

end Tidehunter.LargeTable
