import Tidehunter.Db.Records
import Tidehunter.LargeTable.Quiescent

/-!
# The database

A database is a set of cells over the value log, the index log and the stored control
region. The functions of this module run on a database without writes in flight.
-/

namespace Tidehunter

open Library Wal Index Flusher LargeTable

namespace Db

/-- A cell of a key space, as relocation walks them. -/
structure CellReference where
  keyspace : Nat
  cell : Nat
  deriving DecidableEq, Repr

/-- The last stored snapshot: where replay starts, and of each cell its levels and the
frontier they cover. -/
structure ControlRegion where
  lastPosition : Nat
  levels : CellReference → IndexLevels Bytes
  lastProcessed : CellReference → Nat

/-- The saved progress of an index-based relocation. -/
structure WatermarkData where
  nextToProcess : Option CellReference
  highestWalPosition : Nat
  upperLimit : Nat
  targetPosition : Option Nat
  deriving DecidableEq, Repr

/-- How far the log may be reclaimed after a run. -/
def WatermarkData.gcWatermark (data : WatermarkData) : Nat :=
  let watermark := min data.highestWalPosition data.upperLimit
  match data.targetPosition with
  | some target => min watermark target
  | none => watermark

/-- The key spaces and the settings that relocation reads. -/
structure Config where
  keySpaces : Nat → KeySpaceDesc
  batchCodec : Bool
  relocationMaxReclaimPct : Nat
  relocationBatchMaxBytes : Nat
  indexMinOccupancyPct : Nat

end Db

structure Db where
  config : Db.Config
  /-- The cells in the order relocation walks them. -/
  cellRefs : List Db.CellReference
  cells : Db.CellReference → Entry Bytes
  log : Log
  /-- The frontier a held checkpoint keeps. -/
  latch : Option Nat
  lastProcessed : Nat
  indexWriter : IndexWriter
  controlRegion : Db.ControlRegion
  watermarks : Db.WatermarkData

namespace Db

def keySpaces (db : Db) (ks : Nat) : KeySpaceDesc := db.config.keySpaces ks

def batchCodec (db : Db) : Bool := db.config.batchCodec

/-! ## Reading -/

/-- The cell and the index key of a user key. -/
def locate (db : Db) (ks : Nat) (key : Bytes) : Option (CellReference × Bytes) :=
  ((db.keySpaces ks).reduceKey key).map fun indexKey =>
    (⟨ks, (db.keySpaces ks).cellId indexKey⟩, indexKey)

def get (db : Db) (ks : Nat) (key : Bytes) : Option Bytes :=
  (db.locate ks key).bind fun place =>
    ((db.cells place.1).get place.2).bind
      (readRecordCheckKey (db.keySpaces ks) db.batchCodec db.log key)

/-- What a flush that runs now reads from the log. -/
def logView (db : Db) : LogView :=
  ⟨db.lastProcessed, db.log.minWalPosition, db.log.position, db.log.minWalPosition_le_position,
    db.log.position_le⟩

/-! ## Relocated copies -/

/-- Write relocated records to the log one by one. -/
def writeRelocatedBatchIntoWal (ks : Nat) : List (Bytes × Bytes) → Log →
    Option (Log × List WalPosition)
  | [], log => some (log, [])
  | (key, value) :: rest, log =>
      match log.append (.record ks key value true) with
      | none => none
      | some (log, position) =>
          (writeRelocatedBatchIntoWal ks rest log).map fun result => (result.1, position :: result.2)

/-- Flush a cell now, with an instruction of a relocation run. -/
def syncFlushForRelocation (db : Db) (ref : CellReference) (relocation : RelocationFlush Bytes) : Db :=
  let (writer, entry) := (db.cells ref).syncFlush (db.keySpaces ref.keyspace).config
    db.lastProcessed db.logView db.indexWriter relocation
  { db with cells := Function.update db.cells ref entry, indexWriter := writer }

/-- Wait until everything allocated so far is processed. -/
def waitProcessed (db : Db) : Db := { db with lastProcessed := db.latch.getD db.log.position }

/-- Write the copies of a cell's records and re-point its index to them, where it still
points below the threshold. None is a panic. -/
def writeRelocatedBatch (db : Db) (ref : CellReference) (records : List (Bytes × Bytes))
    (threshold : Nat) : Option Db :=
  if records.isEmpty then some db
  else
    match writeRelocatedBatchIntoWal ref.keyspace records db.log,
      records.mapM fun record => (db.keySpaces ref.keyspace).reduceKey record.1 with
    | some (log, positions), some reducedKeys =>
        let db := waitProcessed { db with log := log }
        some (db.syncFlushForRelocation ref (.updates ⟨threshold, reducedKeys.zip positions⟩))
    | _, _ => none

/-! ## A database at rest -/

/-- The frame an index position names. -/
def PointsAt (log : Log) (position : WalPosition) (entry : WalEntry) : Prop :=
  log.read position = some entry ∧ position = WalPosition.ofEntry position.offset entry

/-- A batch holds at most one operation for an index key. -/
def Deduplicated (ks : KeySpaceDesc) (body : List BatchOp) : Prop :=
  body.Pairwise fun first second => first.ks = ks.id → second.ks = ks.id →
    ks.reduceKey first.key ≠ ks.reduceKey second.key

/-- A database with no write, flush or batch in flight. Every position that the index
shows, now or as of an earlier frontier, names a record of its key. -/
structure AtRest (db : Db) : Prop where
  rest : ∀ ref, (db.cells ref).Quiescent db.log.minWalPosition
  listed : ∀ ref, (db.cells ref).state ≠ .empty → ref ∈ db.cellRefs
  nodup : db.cellRefs.Nodup
  frontier : db.lastProcessed ≤ db.latch.getD db.log.position
  latched : db.latch.getD db.log.position ≤ db.log.position
  ids : ∀ ks, (db.keySpaces ks).id = ks
  noCompactor : ∀ ks, (db.keySpaces ks).config.compactor = none
  records : ∀ ref key position, (db.cells ref).get key = some position →
    ref.cell = (db.keySpaces ref.keyspace).cellId key ∧
    ∃ frame, PointsAt db.log position frame ∧
      ∃ record, readRecordForIndexedKey (db.keySpaces ref.keyspace) db.log position key = some record
  indexed : ∀ ref key frontier position record, (db.cells ref).getAt key frontier = some position →
    readRecordForIndexedKey (db.keySpaces ref.keyspace) db.log position key = some record →
    (db.keySpaces ref.keyspace).reduceKey record.1 = some key
  plain : db.batchCodec = false → ∀ offset inner len,
    db.log.frames.lookup offset ≠ some (.compressedBatch inner len)
  deduplicated : ∀ offset inner len, db.log.frames.lookup offset = some (.compressedBatch inner len) →
    ∀ ks, Deduplicated (db.keySpaces ks) inner

end Db

end Tidehunter
