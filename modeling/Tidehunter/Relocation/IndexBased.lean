import Tidehunter.Relocation.Batch

/-!
# Index-based relocation

The run walks the cells in order. Of each cell it reads the index as of the run's
limit, copies the records that the relocation filter keeps, and re-points the index. It
then reclaims the log up to the highest position it saw.
-/

namespace Tidehunter.Db

open Library Wal Index Flusher LargeTable

/-- How many cells are processed between two looks at the command channel. -/
def numIterationsInBatch : Nat := 1000

/-- How many cells are processed between two saves of the watermark. -/
def numIterationsTillSave : Nat := 100000

/-! ## One cell -/

/-- The records to copy and the highest position seen in a cell. -/
structure CellProcessingContext where
  batch : List (Bytes × Bytes)
  highestWalPosition : Nat
  deriving DecidableEq, Repr

namespace CellProcessingContext

def new : CellProcessingContext := ⟨[], 0⟩

def addEntryToRelocate (context : CellProcessingContext) (key value : Bytes)
    (position : WalPosition) : CellProcessingContext :=
  ⟨context.batch ++ [(key, value)], max context.highestWalPosition position.offset⟩

def markEntryRemoved (context : CellProcessingContext) (position : WalPosition) :
    CellProcessingContext :=
  { context with highestWalPosition := max context.highestWalPosition position.offset }

end CellProcessingContext

/-- The answer of a key space's filter on a record; no filter keeps everything. -/
def KeySpaceDesc.decide (ks : KeySpaceDesc) (key value : Bytes) : Decision :=
  match ks.relocationFilter with
  | some filter => filter key value
  | none => .keep

/-- Go through the entries of a cell. A filter that stops ends the walk of this cell. -/
def processEntries (ks : KeySpaceDesc) (log : Log) (effectiveLimit : Nat) :
    List (Bytes × WalPosition) → CellProcessingContext → CellProcessingContext
  | [], context => context
  | (key, position) :: rest, context =>
      if effectiveLimit ≤ position.offset then processEntries ks log effectiveLimit rest context
      else
        match readRecordForIndexedKey ks log position key with
        | none => processEntries ks log effectiveLimit rest (context.markEntryRemoved position)
        | some (_, value) =>
            match ks.decide key value with
            | .keep =>
                processEntries ks log effectiveLimit rest
                  (context.addEntryToRelocate key value position)
            | .remove =>
                processEntries ks log effectiveLimit rest (context.markEntryRemoved position)
            | .stopRelocation => context

def processSingleCell (db : Db) (ref : CellReference) (effectiveLimit : Nat) :
    CellProcessingContext :=
  processEntries (db.keySpaces ref.keyspace) db.log effectiveLimit
    ((db.cells ref).asOfView effectiveLimit) CellProcessingContext.new

/-! ## The run -/

/-- What a run is asked for: its target, when its command channel tells it to stop, and
the files that are mapped when it reclaims. -/
structure IndexRun where
  targetPosition : Option Nat
  cancelled : Nat → Bool
  mapped : List Nat

def IndexRun.effectiveLimit (run : IndexRun) (upperLimit : Nat) : Nat :=
  match run.targetPosition with
  | some target => min target upperLimit
  | none => upperLimit

/-- The loop over the cells, with the count of cells processed and the highest position
seen so far. -/
def indexLoop (run : IndexRun) (upperLimit : Nat) :
    List CellReference → Nat → Nat → Db → Option (Db × Nat)
  | [], _, highest, db => some (db, highest)
  | ref :: rest, count, highest, db =>
      if count % numIterationsInBatch = 0 ∧ run.cancelled count then some (db, highest)
      else
        let db := if count % numIterationsInBatch = 0 ∧ count % numIterationsTillSave = 0 then
            { db with watermarks := ⟨some ref, highest, upperLimit, run.targetPosition⟩ }
          else db
        let context := processSingleCell db ref (run.effectiveLimit upperLimit)
        match db.writeRelocatedBatch ref context.batch (run.effectiveLimit upperLimit) with
        | none => none
        | some db =>
            indexLoop run upperLimit rest (count + 1) (max highest context.highestWalPosition) db

/-- The cells a run starts from: all of them, or those from the saved watermark on. -/
def startCells (db : Db) (targetPosition : Option Nat) : List CellReference :=
  match db.watermarks.nextToProcess with
  | some ref =>
      if db.watermarks.targetPosition = targetPosition then
        db.cellRefs.dropWhile fun other => other ≠ ref
      else db.cellRefs
  | none => db.cellRefs

/-- An index-based relocation run. -/
def indexBasedRelocation (db : Db) (run : IndexRun) : Option Db :=
  match indexLoop run db.lastProcessed (startCells db run.targetPosition) 0 0 db with
  | none => none
  | some (later, highest) =>
      let watermarks : WatermarkData := ⟨none, highest, db.lastProcessed, run.targetPosition⟩
      some { later with
        watermarks := watermarks
        log := later.log.gc (min watermarks.gcWatermark later.controlRegion.lastPosition) run.mapped }

/-! ## What a run does, in terms of the database before it -/

/-- The cells a run processes before it is cancelled. -/
def visitedFrom (run : IndexRun) : List CellReference → Nat → List CellReference
  | [], _ => []
  | ref :: rest, count =>
      if count % numIterationsInBatch = 0 ∧ run.cancelled count then []
      else ref :: visitedFrom run rest (count + 1)

def visited (db : Db) (run : IndexRun) : List CellReference :=
  visitedFrom run (startCells db run.targetPosition) 0

/-- The highest position below the limit in some cells. -/
def highestOf (db : Db) (effectiveLimit : Nat) (refs : List CellReference) (start : Nat) : Nat :=
  refs.foldl
    (fun highest ref => max highest (processSingleCell db ref effectiveLimit).highestWalPosition) start

/-- The point up to which a run reclaims the log. -/
def reclaimPoint (db : Db) (run : IndexRun) : Nat :=
  let limit := run.effectiveLimit db.lastProcessed
  let watermarks : WatermarkData :=
    ⟨none, highestOf db limit (visited db run) 0, db.lastProcessed, run.targetPosition⟩
  min watermarks.gcWatermark db.controlRegion.lastPosition

end Tidehunter.Db
