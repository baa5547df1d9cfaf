import Tidehunter.Db.Replay
import Tidehunter.Relocation.Copies
import Tidehunter.Relocation.Rebuild

/-!
# WAL-based relocation

The run scans the log for the position up to which it may reclaim. It then walks the
cells: it copies the records below that position, or cuts the cell off if its key space
has a filter. A rebuild stores the new index before the log is reclaimed.
-/

namespace Tidehunter.Db

open Library Wal Index Flusher LargeTable

/-! ## The target -/

/-- The first frame behind the limit, or at which a filter stops the run. None is the
panic on a batch in one frame. -/
def scanTerminal (config : Config) (upperLimit : Nat) : List (Nat × WalEntry) → Option Nat
  | [] => some 0
  | (offset, entry) :: rest =>
      if upperLimit ≤ offset then some offset
      else
        match entry with
        | .record ks key value _ =>
            if (config.keySpaces ks).decide key value = .stopRelocation then some offset
            else scanTerminal config upperLimit rest
        | .remove _ _ => scanTerminal config upperLimit rest
        | .batchStart _ => scanTerminal config upperLimit rest
        | .compressedBatch _ _ => none
        | .dropCells _ _ _ _ => scanTerminal config upperLimit rest

/-- The most that one run may reclaim. -/
def maxTargetPosition (db : Db) : Nat :=
  db.log.minWalPosition + max
    ((db.lastProcessed - db.log.minWalPosition) * db.config.relocationMaxReclaimPct / 100)
    db.log.layout.walFileSize

/-- The position to reclaim up to: the start of a file. -/
def targetPosition (db : Db) (terminalPosition : Nat) : Nat :=
  let position := min terminalPosition db.maxTargetPosition
  position - position % db.log.layout.walFileSize

/-! ## The cells -/

def batchSize (batch : List (Bytes × Bytes)) : Nat :=
  (batch.map fun record => WalEntry.recordLen record.1 record.2 + crcHeaderLength).sum

/-- Copy the records of a cell below the target, in batches of bounded size. -/
def relocateEntries (ref : CellReference) (target : Nat) :
    List (Bytes × WalPosition) → List (Bytes × Bytes) → Db → Option Db
  | [], batch, db => db.writeRelocatedBatch ref batch target
  | (key, position) :: rest, batch, db =>
      if position.offset < target then
        match readRecordForIndexedKey (db.keySpaces ref.keyspace) db.log position key with
        | none => relocateEntries ref target rest batch db
        | some record =>
            if db.config.relocationBatchMaxBytes ≤ batchSize (batch ++ [record]) then
              match db.writeRelocatedBatch ref (batch ++ [record]) target with
              | none => none
              | some db => relocateEntries ref target rest [] db
            else relocateEntries ref target rest (batch ++ [record]) db
      else relocateEntries ref target rest batch db

def relocateCell (lastProcessed terminal target : Nat) (db : Db) (ref : CellReference) : Option Db :=
  if (db.keySpaces ref.keyspace).relocationFilter.isSome then
    some (db.syncFlushForRelocation ref (.cutoff terminal))
  else relocateEntries ref target ((db.cells ref).asOfView lastProcessed) [] db

/-- The walk over the cells. -/
def relocateCells (lastProcessed terminal target : Nat) : List CellReference → Db → Option Db
  | [], db => some db
  | ref :: rest, db =>
      match relocateCell lastProcessed terminal target db ref with
      | none => none
      | some db => relocateCells lastProcessed terminal target rest db

/-! ## The run -/

/-- Store the new index, then reclaim. -/
def finishRelocation (target : Nat) (mapped : List Nat) (db : Db) : Db :=
  let db := db.rebuildControlRegionFrom target
  { db with log := db.log.gc (min target db.controlRegion.lastPosition) mapped }

/-- A WAL-based relocation run. None is a panic; one is that it does not support batches
in one frame. -/
def walBasedRelocation (db : Db) (mapped : List Nat) : Option Db :=
  if db.batchCodec then none
  else
    match scanTerminal db.config db.lastProcessed (replayFrames db.log db.log.minWalPosition) with
    | none => none
    | some terminal =>
        let target := db.targetPosition terminal
        if target < db.log.layout.walFileSize + db.log.minWalPosition then some db
        else
          (relocateCells db.lastProcessed terminal target db.cellRefs db).map
            (finishRelocation target mapped)

/-! ## The target is below the frontier -/

theorem targetPosition_le_terminal (db : Db) (terminal : Nat) :
    db.targetPosition terminal ≤ terminal :=
  (Nat.sub_le _ _).trans (min_le_left _ _)

end Tidehunter.Db
