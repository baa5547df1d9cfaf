import Tidehunter.Flusher.Command

/-!
# One cell of the large table

An entry holds a cell's in-memory table over its levels on disk. It is clean or
dirty, and loaded when the table also holds the contents of `L0`. `lastProcessed` is
the frontier the levels are known to cover; an asynchronous flush keeps the frontier
it was requested at in `pendingLastProcessed` until it completes.

The table is shared copy-on-write in the source. Its identity is modelled by a
version that every change of the table advances.
-/

namespace Tidehunter.LargeTable

open Library Wal Index Flusher

variable {K : Type} [LinearOrder K]

inductive EntryState where
  | empty
  | unloaded
  | loaded
  | dirtyUnloaded
  | dirtyLoaded
  deriving DecidableEq, Repr

namespace EntryState

def markDirty : EntryState → EntryState
  | .empty => .dirtyLoaded
  | .loaded => .dirtyLoaded
  | .dirtyLoaded => .dirtyLoaded
  | .unloaded => .dirtyUnloaded
  | .dirtyUnloaded => .dirtyUnloaded

/-- An empty cell counts as loaded: nothing of it is on disk. -/
def isLoaded : EntryState → Bool
  | .empty => true
  | .loaded => true
  | .dirtyLoaded => true
  | .unloaded => false
  | .dirtyUnloaded => false

def isDirty : EntryState → Bool
  | .dirtyLoaded => true
  | .dirtyUnloaded => true
  | .empty => false
  | .unloaded => false
  | .loaded => false

/-- The table holds the contents of `L0`, so reads go from it to the levels below `L0`. -/
def coversL0 : EntryState → Bool
  | .loaded => true
  | .dirtyLoaded => true
  | .empty => false
  | .unloaded => false
  | .dirtyUnloaded => false

end EntryState

structure Entry (K : Type) [LinearOrder K] where
  state : EntryState
  levels : IndexLevels K
  data : IndexTable K
  version : Nat
  lastProcessed : Nat
  pendingLastProcessed : Option Nat

namespace Entry

/-- A cell nothing was written to. -/
def new : Entry K := ⟨.empty, IndexLevels.new, IndexTable.empty, 0, 0, none⟩

instance : Inhabited (Entry K) := ⟨new⟩

/-- A cell as the control region recorded it. -/
def fromSnapshotData (levels : IndexLevels K) (lastProcessed : Nat) : Entry K :=
  { new with
    state := if levels.isEmpty then .empty else .unloaded
    levels := levels
    lastProcessed := lastProcessed }

/-- Replace the table. -/
def setData (entry : Entry K) (data : IndexTable K) : Entry K :=
  { entry with data := data, version := entry.version + 1 }

/-! ## Reads -/

/-- What the levels that a read still has to walk hold for a key. -/
def beneath (entry : Entry K) (key : K) : Option WalPosition :=
  if entry.state.coversL0 then entry.levels.deep.lookup key else entry.levels.lookup key

/-- Combine the answer of the in-memory table with the levels beneath it. -/
def probe (entry : Entry K) (found : Option WalPosition) (key : K) : Option WalPosition :=
  match entry.state with
  | .empty => none
  | .unloaded => readable (entry.beneath key)
  | .loaded => readable (found.or (entry.beneath key))
  | .dirtyUnloaded => readable (found.or (entry.beneath key))
  | .dirtyLoaded => readable (found.or (entry.beneath key))

def get (entry : Entry K) (key : K) : Option WalPosition := entry.probe (entry.data.get key) key

/-- Checkpoint read as of a frontier. -/
def getAt (entry : Entry K) (key : K) (lastProcessed : Nat) : Option WalPosition :=
  entry.probe (entry.data.getAt key lastProcessed) key

/-! ## Writes -/

/-- Note a write: the levels no longer cover the cell from its offset on. On the first
write of a cell the frontier bounds the writes still in flight. -/
def markDirty (entry : Entry K) (frontier : Nat) (position : WalPosition) : Entry K :=
  { entry with
    lastProcessed := match entry.state with
      | .empty => min position.offset frontier
      | .unloaded => min entry.lastProcessed position.offset
      | .loaded => min entry.lastProcessed position.offset
      | .dirtyUnloaded => min entry.lastProcessed position.offset
      | .dirtyLoaded => min entry.lastProcessed position.offset
    state := entry.state.markDirty }

/-- Record a write of a key; none is the panic on a repeated offset. -/
def write (entry : Entry K) (frontier : Nat) (key : K) (isModified : Bool)
    (position : WalPosition) : Option (Entry K) :=
  let written := if isModified then entry.data.insert key position
    else entry.data.remove key position
  written.map fun result => (entry.markDirty frontier position).setData result.1

/-- Drain the replayed writes of the cell, in log order, into a fresh entry: those below
the start of a torn batch, and of each key the latest. -/
def applyReplayBuffer (entry : Entry K) (buffer : List (K × IndexWalPosition))
    (cutoff : Option Nat) : Entry K :=
  match buffer.filter (fun write => cutoff.all fun cut => write.2.offset < cut) with
  | [] => entry
  | first :: rest =>
      ({ entry with
        lastProcessed := match entry.state with
          | .empty => first.2.offset
          | .unloaded => entry.lastProcessed
          | .loaded => entry.lastProcessed
          | .dirtyUnloaded => entry.lastProcessed
          | .dirtyLoaded => entry.lastProcessed
        state := entry.state.markDirty } : Entry K).setData
        ⟨SortedMap.empty, SortedMap.empty.insertAll (first :: rest)⟩

/-! ## Loading -/

/-- Fold `L0` into the table of an unloaded cell. No-op while a flush is in flight. -/
def maybeLoad (entry : Entry K) : Entry K :=
  match entry.pendingLastProcessed, entry.state with
  | none, .unloaded => { entry.setData entry.levels.loadL0 with state := .loaded }
  | none, .dirtyUnloaded =>
      { entry.setData (entry.levels.loadL0.mergeDirtyNoClean entry.data) with
        state := .dirtyLoaded }
  | _, _ => entry

/-! ## Flushing -/

/-- The flush command of a dirty cell. -/
def flushKind (entry : Entry K) (relocatePositions : List WalPosition) : Option (FlushKind K) :=
  match entry.state with
  | .dirtyUnloaded => some (.flush entry.data entry.levels false relocatePositions)
  | .dirtyLoaded => some (.flush entry.data entry.levels true relocatePositions)
  | .empty => none
  | .unloaded => none
  | .loaded => none

/-- Install the levels of a finished flush and drop from the table what they cover. -/
def clearAfterFlush (config : KsConfig K) (entry : Entry K) (newLevels : IndexLevels K)
    (lastProcessed : Nat) : Entry K :=
  if entry.state.isLoaded && config.unloadingDisabled then
    if entry.data.hasUnprocessed lastProcessed then
      { entry with levels := newLevels, state := .dirtyLoaded }
    else if newLevels.deep.isNone then
      { entry.setData entry.data.cleanSelf with levels := newLevels, state := .loaded }
    else { entry with levels := newLevels, state := .loaded }
  else
    let data := entry.data.retainUnprocessed lastProcessed
    { entry.setData data with
      levels := newLevels
      state := if data.isEmpty then .unloaded else .dirtyUnloaded }

/-- The cell and the command of a synchronous flush. A clean cell is flushed only for
relocation, loaded first. -/
def prepareSyncFlush (entry : Entry K) (relocation : RelocationFlush K) :
    Option (Entry K × FlushKind K) :=
  match entry.flushKind [] with
  | some kind => some (entry, kind)
  | none =>
      match relocation with
      | .none => none
      | .updates _ => some (entry.maybeLoad, .flush entry.maybeLoad.data entry.maybeLoad.levels true [])
      | .cutoff _ => some (entry.maybeLoad, .flush entry.maybeLoad.data entry.maybeLoad.levels true [])

/-- Install the levels of a synchronous flush. A cell that stays in memory takes its
processed entries over from the new `L0`. -/
def finishSyncFlush (config : KsConfig K) (lastProcessed : Nat) (entry : Entry K)
    (newLevels : IndexLevels K) : Entry K :=
  let entry := { entry with lastProcessed := lastProcessed }
  let entry := if config.unloadingDisabled && entry.state.isLoaded then
      entry.setData (entry.data.rebaseOnAsOf newLevels.loadL0 lastProcessed)
    else entry
  clearAfterFlush config entry newLevels lastProcessed

/-- Flush now, under the row lock. -/
def syncFlush (config : KsConfig K) (lastProcessed : Nat) (view : LogView) (writer : IndexWriter)
    (entry : Entry K) (relocation : RelocationFlush K) : IndexWriter × Entry K :=
  match entry.prepareSyncFlush relocation with
  | none => (writer, entry)
  | some (entry, kind) =>
      match handleCommand config view writer kind relocation with
      | (writer, none) => (writer, entry)
      | (writer, some (_, newLevels)) =>
          (writer, finishSyncFlush config lastProcessed entry newLevels)

/-- Complete an asynchronous flush of the table `original`, taken at `version`. -/
def updateFlushedIndex (config : KsConfig K) (entry : Entry K) (original : IndexTable K)
    (version : Nat) (newLevels : IndexLevels K) : Option (Entry K) :=
  match entry.pendingLastProcessed with
  | none => none
  | some pending =>
      if entry.state.isDirty then
        let entry := { entry with lastProcessed := pending, pendingLastProcessed := none }
        if entry.version = version then some (clearAfterFlush config entry newLevels pending)
        else
          some { entry.setData (entry.data.unmergeFlushed original pending) with
            levels := newLevels, state := .dirtyUnloaded }
      else none

/-- Complete a forced relocation of the blobs of a clean cell. -/
def updateRelocatedPosition (entry : Entry K) (newLevels : IndexLevels K) : Option (Entry K) :=
  match entry.pendingLastProcessed with
  | none => none
  | some pending =>
      let committed := { entry with lastProcessed := pending, pendingLastProcessed := none }
      let moved := { committed with levels := newLevels }
      match entry.state with
      | .unloaded => some moved
      | .loaded => some { moved.setData IndexTable.empty with state := .unloaded }
      | .dirtyUnloaded => some moved
      | .dirtyLoaded =>
          if newLevels.deep.isSharded || entry.levels.deep.isNone then some moved
          else
            let data := entry.data.retainUnprocessed pending
            some { moved.setData data with
              state := if data.isEmpty then .unloaded else .dirtyUnloaded }
      | .empty => none

/-! ## As-of view -/

/-- Every key of the cell with its position as of a frontier, tombstones left out. -/
def asOfView (entry : Entry K) (lastProcessed : Nat) : List (K × WalPosition) :=
  let overlay := entry.data.retainProcessed lastProcessed
  let base := if entry.state = .unloaded ∨ entry.state = .dirtyUnloaded then entry.levels.loadL0
    else IndexTable.empty
  let top := base.mergeDirtyAndClean overlay
  top.iter.entries ++
    (entry.levels.deep.blobs.map fun blob =>
      blob.load.iter.entries.filter fun binding => !top.containsKey binding.1).flatten

end Entry

end Tidehunter.LargeTable
