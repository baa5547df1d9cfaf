import Tidehunter.LargeTable.Entry
import Tidehunter.Index.TableView

/-!
# A cell and the work on it

Besides its entry, a cell has a bloom filter, a table of batch operations that wait for
their transaction, and work under way: a flush between its request and its completion, and
promotions into the flat buffer that were computed outside the row lock.

A step is one use of the row lock, or less: applying a committed batch operation is a step of
its own. What a thread has read from the published frontier while it held the lock, and then
applied the committed operations for, is kept as `settled`.
-/

namespace Tidehunter.LargeTable

open Library Wal Index Flusher

variable {K : Type} [LinearOrder K]

/-! ## Batches and filters -/

inductive TransactionStatus where
  | pending
  | committed
  | reverted
  deriving DecidableEq, Repr

/-- A batch operation that waits for its transaction. -/
structure PendingUpdate (K : Type) where
  key : K
  isModified : Bool
  position : WalPosition
  transaction : Nat
  deriving DecidableEq, Repr

/-- The operation as the cell records it once it is applied. -/
def PendingUpdate.op (update : PendingUpdate K) : K × Mark :=
  (update.key, ⟨update.position.offset, update.position.len, !update.isModified⟩)

/-- A bloom filter finds what was inserted. -/
structure BloomFilter (K : Type) where
  Filter : Type
  new : Filter
  insert : Filter → K → Filter
  contains : Filter → K → Bool
  contains_insert : ∀ filter key, contains (insert filter key) key = true
  contains_of_contains : ∀ filter key other, contains filter key = true →
    contains (insert filter other) key = true

/-! ## State -/

/-- A flush under way: its command, the version of the table it was made from, and what it
returned. -/
structure FlushJob (K : Type) [LinearOrder K] where
  kind : FlushKind K
  version : Nat
  outcome : Option (IndexTable K × IndexLevels K)

/-- A table captured to be promoted into its flat buffer. -/
structure Promotion (K : Type) [LinearOrder K] where
  data : IndexTable K
  version : Nat
  threshold : Nat

structure Cell (K : Type) [LinearOrder K] (blooms : BloomFilter K) where
  entry : Entry K
  bloom : Option blooms.Filter
  pending : List (PendingUpdate K)
  job : Option (FlushJob K)
  promotions : List (Promotion K)
  /-- The operations applied since the cell was last empty, newest first. -/
  applied : List (K × Mark)
  /-- The frontier read last under the row lock. -/
  settled : Nat
  /-- The frontier read last for the cell, under the lock or by the flusher. -/
  shown : Nat

namespace Cell

variable {blooms : BloomFilter K}

def new (bloom : Option blooms.Filter) : Cell K blooms := ⟨Entry.new, bloom, [], none, [], [], 0, 0⟩

/-! ## Reads -/

/-- The bloom filter rules the key out. -/
def bloomFilterNotFound (cell : Cell K blooms) (key : K) : Bool :=
  cell.bloom.any fun filter => !blooms.contains filter key

/-- The position of a key in the index. -/
def get (cell : Cell K blooms) (key : K) : Option WalPosition :=
  if cell.bloomFilterNotFound key then none else cell.entry.get key

/-- The position of a key as of a frontier. -/
def getCheckpoint (cell : Cell K blooms) (key : K) (lastProcessed : Nat) : Option WalPosition :=
  if cell.bloomFilterNotFound key then none else cell.entry.getAt key lastProcessed

/-! ## Writes -/

/-- Record a write; none is the panic on a repeated offset. The first write of a cell reads the
frontier. -/
def write (cell : Cell K blooms) (frontier : Nat) (key : K) (isModified : Bool)
    (position : WalPosition) : Option (Cell K blooms) :=
  (cell.entry.write frontier key isModified position).map fun entry =>
    { cell with
      entry := entry
      bloom := if isModified then cell.bloom.map fun filter => blooms.insert filter key
        else cell.bloom
      applied := (key, ⟨position.offset, position.len, !isModified⟩) :: cell.applied
      shown := if cell.entry.state = .empty then max cell.shown frontier else cell.shown }

/-- Add a batch operation that waits for its transaction. -/
def addPending (cell : Cell K blooms) (update : PendingUpdate K) : Cell K blooms :=
  { cell with pending := cell.pending ++ [update] }

/-- Apply the committed batch operations and forget the reverted ones. -/
def promotePending (cell : Cell K blooms) (frontier : Nat) (status : Nat → TransactionStatus) :
    Option (Cell K blooms) :=
  (cell.pending.filter fun update => status update.transaction = .committed).foldlM
    (fun current update => current.write frontier update.key update.isModified update.position)
    { cell with pending := cell.pending.filter fun update => status update.transaction = .pending }

/-- A get of a key: what is committed is applied first. None is a panic. -/
def lookup (cell : Cell K blooms) (frontier : Nat) (status : Nat → TransactionStatus) (key : K) :
    Option (Option WalPosition) :=
  (cell.promotePending frontier status).map fun promoted => promoted.get key

/-- Drop everything the cell holds, except for its pending batch operations. -/
def clear (cell : Cell K blooms) : Cell K blooms :=
  { cell with
    entry :=
      { cell.entry.setData IndexTable.empty with
        state := .empty
        levels := IndexLevels.new
        lastProcessed := 0 }
    bloom := cell.bloom.map fun _ => blooms.new
    applied := [] }

/-- Remove the entry of the cell; the next use of the cell makes a new one. Its table is not the
one of the removed entry, whatever was captured of that. -/
def removeEntry (cell : Cell K blooms) : Cell K blooms :=
  { cell with
    entry := { Entry.new with version := cell.entry.version + 1 }
    bloom := cell.bloom.map fun _ => blooms.new
    pending := []
    applied := [] }

/-! ## Work -/

inductive Work where
  /-- Apply a committed batch operation. -/
  | promote (index : Nat)
  /-- Forget an operation of a reverted batch. -/
  | discard (index : Nat)
  /-- Read the published frontier; what was committed by then is applied. -/
  | observe (lastProcessed : Nat)
  /-- Capture the table for a promotion into its flat buffer. -/
  | capture
  /-- Put a promoted table back, unless the table has changed. -/
  | install (index : Nat)
  | load
  /-- Request a flush of a dirty cell; some blobs are to be written again. -/
  | requestFlush (relocatePositions : List WalPosition)
  /-- Request that some blobs of a clean cell are written again. -/
  | requestForceRelocate (relocatePositions : List WalPosition)
  /-- The flusher runs the command. -/
  | execute (view : LogView) (writer : IndexWriter)
  | complete
  | syncFlush (view : LogView) (writer : IndexWriter)
  /-- A snapshot records the cell: a clean one is known to be covered. -/
  | snapshot

/-- What the flusher reads of the log in a step. -/
def Work.view : Work → Option LogView
  | .execute view _ => some view
  | .syncFlush view _ => some view
  | _ => none

/-- The frontier below which the table may have been promoted. -/
def promoteThreshold (cell : Cell K blooms) : Nat :=
  cell.entry.pendingLastProcessed.getD cell.settled

/-- What a promotion leaves of an entry. -/
def installPromotion (entry : Entry K) (promotion : Promotion K) : Entry K :=
  if promotion.data.shouldPromoteToFlat promotion.threshold &&
      decide (entry.version = promotion.version) then
    entry.setData (promotion.data.promoteToFlatUnconditionally promotion.threshold)
  else entry

/-- The flusher or a writer that flushes reads a frontier at least as new as any before. -/
def canRead (cell : Cell K blooms) (frontier : Nat) (view : LogView) : Bool :=
  decide (cell.shown ≤ view.lastProcessed) && decide (view.lastProcessed ≤ frontier)

/-- One step of the work on a cell, at a published frontier. -/
def work (config : KsConfig K) (frontier : Nat) (status : Nat → TransactionStatus)
    (cell : Cell K blooms) : Work → Option (Cell K blooms)
  | .promote index =>
      cell.pending[index]?.bind fun update =>
        if status update.transaction = .committed then
          { cell with pending := cell.pending.eraseIdx index }.write frontier update.key
            update.isModified update.position
        else none
  | .discard index =>
      cell.pending[index]?.bind fun update =>
        if status update.transaction = .reverted then
          some { cell with pending := cell.pending.eraseIdx index }
        else none
  | .observe lastProcessed =>
      if cell.settled ≤ lastProcessed ∧ lastProcessed ≤ frontier ∧
          ∀ update ∈ cell.pending, status update.transaction = .committed →
            lastProcessed ≤ update.position.offset then
        some { cell with settled := lastProcessed, shown := max cell.shown lastProcessed }
      else none
  | .capture =>
      some { cell with
        promotions := cell.promotions ++
          [⟨cell.entry.data, cell.entry.version, cell.promoteThreshold⟩] }
  | .install index =>
      cell.promotions[index]?.map fun promotion =>
        { cell with
          entry := installPromotion cell.entry promotion
          promotions := cell.promotions.eraseIdx index }
  | .load => some { cell with entry := cell.entry.maybeLoad }
  | .requestFlush relocatePositions =>
      if cell.entry.pendingLastProcessed = none then
        (cell.entry.flushKind relocatePositions).map fun kind =>
          { cell with
            entry := { cell.entry with pendingLastProcessed := some cell.settled }
            job := some ⟨kind, cell.entry.version, none⟩ }
      else none
  | .requestForceRelocate relocatePositions =>
      if cell.entry.pendingLastProcessed = none ∧ cell.entry.state.isDirty = false ∧
          cell.entry.state ≠ .empty then
        some { cell with
          entry := { cell.entry with pendingLastProcessed := some cell.settled }
          job := some
            ⟨.forceRelocate cell.entry.levels relocatePositions, cell.entry.version, none⟩ }
      else none
  | .execute view writer =>
      cell.job.bind fun job =>
        if job.outcome.isNone && cell.canRead frontier view then
          (handleCommand config view writer job.kind .none).2.map fun outcome =>
            { cell with
              job := some { job with outcome := some outcome }
              shown := view.lastProcessed }
        else none
  | .complete =>
      cell.job.bind fun job =>
        job.outcome.bind fun outcome =>
          (match job.kind with
            | .flush _ _ _ _ =>
                cell.entry.updateFlushedIndex config outcome.1 job.version outcome.2
            | .forceRelocate _ _ => cell.entry.updateRelocatedPosition outcome.2).map fun entry =>
              { cell with entry := entry, job := none }
  | .syncFlush view writer =>
      if cell.entry.pendingLastProcessed = none ∧ cell.canRead frontier view = true then
        some { cell with
          entry := (cell.entry.syncFlush config cell.settled view writer .none).2
          shown := view.lastProcessed }
      else none
  | .snapshot =>
      some { cell with
        entry := if cell.entry.state.isDirty || decide (cell.entry.state = .empty) then cell.entry
          else { cell.entry with lastProcessed := cell.settled } }

end Cell

end Tidehunter.LargeTable
