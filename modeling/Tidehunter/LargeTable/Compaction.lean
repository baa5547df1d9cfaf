import Tidehunter.LargeTable.Uncovered

/-!
# Compaction over a sequence of flushes

The compactor of a key space runs on whichever table a flush writes. On a new `L0`
over a deeper level it can drop the entry that shadows an older one.
-/

namespace Tidehunter.LargeTable

open Library Wal Index Flusher

variable {K V : Type} [LinearOrder K]

inductive FlushMode where
  | sync
  | async
  deriving DecidableEq, Repr

/-- A flush with what it reads from the log: the frontier when it is requested, and its
view of the log when it runs. -/
structure FlushRequest where
  mode : FlushMode
  lastProcessed : Nat
  view : LogView
  frontier_le : lastProcessed ≤ view.lastProcessed

namespace Entry

/-- Run a flush of the cell to its end. A cell with a flush in flight is left alone. -/
def flushOnce (config : KsConfig K) (request : FlushRequest) (writer : IndexWriter)
    (entry : Entry K) : IndexWriter × Entry K :=
  match entry.pendingLastProcessed, request.mode with
  | some _, _ => (writer, entry)
  | none, .sync => entry.syncFlush config request.lastProcessed request.view writer .none
  | none, .async =>
      match entry.flushKind [] with
      | none => (writer, entry)
      | some kind =>
          let requested := { entry with pendingLastProcessed := some request.lastProcessed }
          match handleCommand config request.view writer kind .none with
          | (writer, none) => (writer, requested)
          | (writer, some (original, newLevels)) =>
              (writer, (requested.updateFlushedIndex config original entry.version
                newLevels).getD requested)

/-- Whether a flush lets go of the table in memory. -/
def evicts (config : KsConfig K) (entry : Entry K) : FlushMode → Bool
  | .sync => true
  | .async => !(entry.state.isLoaded && config.unloadingDisabled)

/-- What a flush of a dirty cell writes. -/
def writeFlushed (config : KsConfig K) (view : LogView) (writer : IndexWriter) (entry : Entry K) :
    IndexWriter × IndexLevels K :=
  writeFiltered config view writer
    ((entry.flushed view).retainAbovePosition view.minWalPosition) entry.levels []

theorem flushOnce_of_clean {entry : Entry K} (clean : entry.state.isDirty = false)
    (config : KsConfig K) (request : FlushRequest) (writer : IndexWriter) :
    (entry.flushOnce config request writer).2 = entry := by
  unfold flushOnce
  split
  · rfl
  · rw [syncFlush, prepareSyncFlush, flushKind_of_not_isDirty clean]
  · rw [flushKind_of_not_isDirty clean]

theorem flushOnce_sync {entry : Entry K} (dirty : entry.state.isDirty = true)
    (idle : entry.pendingLastProcessed = none) (config : KsConfig K) {request : FlushRequest}
    (mode : request.mode = .sync) (writer : IndexWriter) :
    (entry.flushOnce config request writer).2 =
      finishSyncFlush config request.lastProcessed entry
        (entry.writeFlushed config request.view writer).2 := by
  unfold flushOnce
  rw [idle, mode]
  simp only
  rw [syncFlush, prepareSyncFlush, flushKind_of_isDirty dirty]
  rfl

theorem flushOnce_async {entry : Entry K} (dirty : entry.state.isDirty = true)
    (idle : entry.pendingLastProcessed = none) (config : KsConfig K) {request : FlushRequest}
    (mode : request.mode = .async) (writer : IndexWriter) :
    (entry.flushOnce config request writer).2 =
      clearAfterFlush config { entry with lastProcessed := request.lastProcessed }
        (entry.writeFlushed config request.view writer).2 request.lastProcessed := by
  unfold flushOnce
  rw [idle, mode]
  simp only
  rw [flushKind_of_isDirty dirty]
  change (updateFlushedIndex config { entry with pendingLastProcessed := some request.lastProcessed }
    entry.data entry.version (entry.writeFlushed config request.view writer).2).getD _ = _
  simp [updateFlushedIndex, dirty, ← idle]

theorem view_writeFlushed (config : KsConfig K) (view : LogView) (writer : IndexWriter)
    (entry : Entry K) (key : K) :
    (entry.writeFlushed config view writer).2.view key =
      writtenView config view (entry.flushed view) view.minWalPosition entry.levels.deep key :=
  view_writeFiltered config view writer _ entry.levels [] key

/-- A flush of the cell uncovers an older entry of a key: it lets go of the table in
memory, no later write of the key stays there, and the compactor or the offset filter
drops the entry that shadowed the older one. -/
def Uncovers (config : KsConfig K) (request : FlushRequest) (entry : Entry K)
    (read : WalPosition → Option V) (key : K) : Prop :=
  entry.state.isDirty = true ∧ entry.pendingLastProcessed = none ∧
    entry.evicts config request.mode = true ∧ entry.unflushed request.lastProcessed key = none ∧
    (CompactorUncovers config request.view (entry.flushed request.view) request.view.minWalPosition
        entry.levels.deep key read read ∨
      FilterUncovers config request.view (entry.flushed request.view) request.view.minWalPosition
        entry.levels.deep key read read)

/-- A key reads, once its table in memory is gone, through the levels of the flush. -/
theorem sameOrAbsent_of_evicted {config : KsConfig K} {request : FlushRequest} {entry : Entry K}
    {writer : IndexWriter} (read : WalPosition → Option V) {key : K} (ok : entry.Ok) {after : Entry K}
    (result : after.get key = readable ((entry.unflushed request.lastProcessed key).or
      ((entry.writeFlushed config request.view writer).2.lookup key))) :
    SameOrAbsent ((entry.get key).bind read) ((after.get key).bind read) ↔
      (entry.unflushed request.lastProcessed key = none →
        ¬ (CompactorUncovers config request.view (entry.flushed request.view)
            request.view.minWalPosition entry.levels.deep key read read ∨
          FilterUncovers config request.view (entry.flushed request.view)
            request.view.minWalPosition entry.levels.deep key read read)) := by
  cases unflushed : entry.unflushed request.lastProcessed key with
  | some position =>
      rw [result, unflushed, get_of_unflushed ok unflushed]
      simp [SameOrAbsent]
  | none =>
      have iff := sameOrAbsent_writtenView_iff config request.view (entry.flushed request.view) _
        entry.levels.deep key read read (fun _ => Or.inr rfl) (le_refl _)
      rw [result, unflushed, Option.none_or, get_of_flushed ok request.frontier_le unflushed]
      rw [← view_writeFlushed config request.view writer entry key] at iff
      simp only [not_or, forall_const]
      exact iff

/-- A cell that keeps its table reads on as before, whatever the compactor dropped. -/
theorem sameOrAbsent_of_kept {config : KsConfig K} {request : FlushRequest} {entry : Entry K}
    (dirty : entry.state.isDirty = true) (loaded : entry.state.isLoaded = true)
    {writer : IndexWriter} (read : WalPosition → Option V) {key : K} {after : Entry K}
    (result : after.get key = readable ((entry.data.get key).or
      ((entry.writeFlushed config request.view writer).2.deep.lookup key))) :
    SameOrAbsent ((entry.get key).bind read) ((after.get key).bind read) := by
  have covers : entry.state.coversL0 = true := by
    cases state : entry.state <;> simp_all [EntryState.isDirty, EntryState.isLoaded,
      EntryState.coversL0]
  rw [result, get_eq (ok_of_isDirty dirty), beneath, covers]
  cases found : entry.data.get key with
  | some position => exact Or.inl rfl
  | none =>
      have absent : (entry.flushed request.view).get key = none := by
        have noEntry := Option.map_eq_none_iff.mp found
        rw [IndexTable.entry, Option.or_eq_none_iff] at noEntry
        have noData : entry.data.data.lookup key = none := by
          simpa [IndexTable.dataGetLatest] using noEntry.1
        rw [flushed, get_flushedTable, covers]
        simp [IndexTable.getAt, IndexTable.entryAt, IndexTable.dataGetLatestProcessed, noData,
          noEntry.2]
      have noEntry : (entry.flushed request.view).entry key = none := Option.map_eq_none_iff.mp absent
      have iff := sameOrAbsent_writtenView_iff config request.view (entry.flushed request.view) _
        entry.levels.deep key read read (fun _ => Or.inr rfl) (le_refl _)
      have shown := iff.mpr
        ⟨by simp [CompactorUncovers, IndexTable.entry_retainAbovePosition_of_none noEntry],
          by simp [FilterUncovers, noEntry]⟩
      rw [valueBefore, absent, Option.none_or, ← view_writeFlushed config request.view writer] at shown
      simp only [Option.none_or, if_true]
      rcases deep_writeFiltered config request.view writer
        ((entry.flushed request.view).retainAbovePosition request.view.minWalPosition) entry.levels []
        key with whole | same
      · rw [← show _ = (entry.writeFlushed config request.view writer).2.view key from whole] at shown
        exact shown
      · exact Or.inl (congrArg (Option.bind · read) same)

/-- After a flush a key reads as before or absent exactly when the flush uncovers
nothing beneath it. -/
theorem flushOnce_sameOrAbsent_iff (config : KsConfig K) (request : FlushRequest)
    (writer : IndexWriter) (entry : Entry K) (read : WalPosition → Option V) (key : K) :
    SameOrAbsent ((entry.get key).bind read)
        (((entry.flushOnce config request writer).2.get key).bind read) ↔
      ¬ Uncovers config request entry read key := by
  cases dirty : entry.state.isDirty with
  | false =>
      rw [flushOnce_of_clean dirty]
      simp [SameOrAbsent, Uncovers, dirty]
  | true =>
      cases idle : entry.pendingLastProcessed with
      | some pending =>
          have unchanged : (entry.flushOnce config request writer).2 = entry := by
            unfold flushOnce
            rw [idle]
          rw [unchanged]
          simp [SameOrAbsent, Uncovers, idle]
      | none =>
          have ok := ok_of_isDirty dirty
          cases mode : request.mode with
          | sync =>
              have result := get_finishSyncFlush config entry
                (entry.writeFlushed config request.view writer).2 request.lastProcessed key
              rw [← flushOnce_sync dirty idle config mode writer] at result
              rw [sameOrAbsent_of_evicted read ok result]
              simp [Uncovers, dirty, idle, mode, evicts]
          | async =>
              cases kept : entry.state.isLoaded && config.unloadingDisabled with
              | false =>
                  have result := get_clearAfterFlush_of_evicted config
                    { entry with lastProcessed := request.lastProcessed } kept
                    (entry.writeFlushed config request.view writer).2 request.lastProcessed key
                  rw [← flushOnce_async dirty idle config mode writer] at result
                  rw [sameOrAbsent_of_evicted read ok result]
                  simp [Uncovers, dirty, idle, mode, evicts, kept]
              | true =>
                  have loaded : entry.state.isLoaded = true := (Bool.and_eq_true _ _ ▸ kept).1
                  have result := get_clearAfterFlush_of_kept config
                    { entry with lastProcessed := request.lastProcessed } kept
                    (entry.writeFlushed config request.view writer).2 request.lastProcessed key
                  rw [← flushOnce_async dirty idle config mode writer] at result
                  have same := sameOrAbsent_of_kept dirty loaded read result
                  simp [same, Uncovers, mode, evicts, kept]

end Entry

/-! ## Sequences of flushes -/

/-- What happens to a cell: a write, with the frontier at that moment, or a flush. -/
inductive CellEvent (K : Type) where
  | write (frontier : Nat) (key : K) (isModified : Bool) (position : WalPosition)
  | flush (request : FlushRequest)

/-- A flush in a sequence: what was asked, and the cell before and after it. -/
structure FlushStep (K : Type) [LinearOrder K] where
  request : FlushRequest
  before : Entry K
  after : Entry K

/-- The flushes of a sequence of events. A write that panics ends the sequence. -/
def flushSteps (config : KsConfig K) :
    List (CellEvent K) → IndexWriter → Entry K → List (FlushStep K)
  | [], _, _ => []
  | .write frontier key isModified position :: rest, writer, entry =>
      match entry.write frontier key isModified position with
      | some written => flushSteps config rest writer written
      | none => []
  | .flush request :: rest, writer, entry =>
      let (writer, after) := entry.flushOnce config request writer
      ⟨request, entry, after⟩ :: flushSteps config rest writer after

/-- A step of a sequence is one flush of the cell it starts from. -/
theorem after_of_mem_flushSteps {config : KsConfig K} {events : List (CellEvent K)}
    {writer : IndexWriter} {entry : Entry K} {step : FlushStep K}
    (member : step ∈ flushSteps config events writer entry) :
    ∃ writer, step.after = (step.before.flushOnce config step.request writer).2 := by
  induction events generalizing writer entry with
  | nil => cases member
  | cons event rest ih =>
      cases event with
      | write frontier key isModified position =>
          rw [flushSteps] at member
          split at member
          · exact ih member
          · cases member
      | flush request =>
          rw [flushSteps] at member
          rcases List.mem_cons.mp member with rfl | later
          · exact ⟨writer, rfl⟩
          · exact ih later

/-- A key space whose compactor retains no key. -/
def dropAll : KsConfig Nat where
  l0MaxEntries := 8
  autoShardThreshold := none
  serializedLen content := 40 * content.size
  compactor := some fun _ => []
  unloadingDisabled := false

/-- Key 1 was written at 10, which is in `L1`, and again at 100, which is in memory. -/
def overwritten : Entry Nat where
  state := .dirtyUnloaded
  levels := ⟨none, .l1 ⟨⟨0, 50⟩, SortedMap.empty.insert 1 ⟨10, 20⟩⟩⟩
  data := ⟨SortedMap.empty.insert 1 (AscList.singleton (IndexWalPosition.newModified ⟨100, 20⟩)),
    SortedMap.empty⟩
  version := 1
  lastProcessed := 50
  pendingLastProcessed := none

def flushAll : FlushRequest where
  mode := .sync
  lastProcessed := 200
  view := ⟨200, 0, 200, by decide, by decide⟩
  frontier_le := by decide

end Tidehunter.LargeTable
