import Tidehunter.Index.Levels
import Tidehunter.Wal.Layout

/-!
# Flush commands

A flush merges a cell's in-memory table with its `L0` blob, filters the result by
the WAL frontier and the lowest live WAL position, and writes it as a new `L0`, or
promotes it into `L1` or the shards when it grew past the threshold. Relocation
passes its index updates, or its cutoff, through the same function.
-/

namespace Tidehunter.Flusher

open Library Wal Index

variable {K : Type} [LinearOrder K]

/-- The settings of a key space that the flusher and the cells read. -/
structure KsConfig (K : Type) [LinearOrder K] where
  l0MaxEntries : Nat
  /-- Blob size above which `L1` is split; `none` when auto-sharding is disabled. -/
  autoShardThreshold : Option Nat
  serializedLen : SortedMap K WalPosition → Nat
  compactor : Option (List K → List K)
  unloadingDisabled : Bool

/-- Whether a serialized table exceeds the auto-shard threshold. -/
def KsConfig.exceedsShardThreshold (config : KsConfig K) (table : IndexTable K) : Bool :=
  config.autoShardThreshold.any fun limit => limit < config.serializedLen table.serialize

/-- Bytes of the frame header and of the entry tag in front of an index blob. -/
def indexFrameOverhead : Nat := 8 + 2

/-- The append position of the index log. -/
structure IndexWriter where
  layout : WalLayout
  position : Nat

/-- Append a table to the index log. -/
def IndexWriter.flush (writer : IndexWriter) (config : KsConfig K) (table : IndexTable K) :
    IndexWriter × Blob K :=
  let content := table.serialize
  let len := config.serializedLen content + indexFrameOverhead
  let lenAligned := writer.layout.align len
  let offset := writer.layout.nextPosition writer.position lenAligned
  ({ writer with position := offset + lenAligned }, ⟨⟨offset, len⟩, content⟩)

@[simp]
theorem IndexWriter.flush_content (writer : IndexWriter) (config : KsConfig K)
    (table : IndexTable K) : (writer.flush config table).2.content = table.serialize := rfl

/-- Index positions moved by a relocation run: compare-and-set commands below a frontier. -/
structure RelocationUpdates (K : Type) where
  lastProcessed : Nat
  updates : List (K × WalPosition)

namespace RelocationUpdates

/-- One compare-and-set: an entry below the run's frontier is re-pointed. -/
def repoint (lastProcessed : Nat) (target : WalPosition) (position : IndexWalPosition) :
    IndexWalPosition :=
  if position.offset < lastProcessed then position.replaceWalPosition target else position

/-- Apply the updates in order; the flag tells whether any entry was re-pointed. -/
def apply (updates : RelocationUpdates K) (table : IndexTable K) : IndexTable K × Bool :=
  updates.updates.foldl
    (fun state update =>
      (state.1.applyUpdate update.1 (repoint updates.lastProcessed update.2),
        state.2 || (state.1.entry update.1).any fun position =>
          position.offset < updates.lastProcessed))
    (table, false)

end RelocationUpdates

inductive RelocationFlush (K : Type) where
  | none
  | updates (updates : RelocationUpdates K)
  | cutoff (position : Nat)

inductive FlushKind (K : Type) [LinearOrder K] where
  | flush (dirty : IndexTable K) (levels : IndexLevels K) (loaded : Bool)
      (relocatePositions : List WalPosition)
  | forceRelocate (levels : IndexLevels K) (relocatePositions : List WalPosition)

/-- What a flush reads from the log while it runs. -/
structure LogView where
  lastProcessed : Nat
  minWalPosition : Nat
  currentWalPosition : Nat
  min_le_current : minWalPosition ≤ currentWalPosition
  current_le : currentWalPosition ≤ u64Max

/-! ## Preparing a deepest level -/

def runCompactor (config : KsConfig K) (table : IndexTable K) : IndexTable K :=
  match config.compactor with
  | some compactor => table.compactWith compactor
  | none => table

/-- Prepare a table that becomes the deepest level of its key range. -/
def processL1Blob (config : KsConfig K) (minWalPosition : Nat) (table : IndexTable K) :
    IndexTable K :=
  (runCompactor config (table.retainAbovePosition minWalPosition)).cleanSelf

/-! ## Splitting -/

/-- The table of one shard, built from readable bindings. -/
def buildShardTable (entries : List (K × WalPosition)) : IndexTable K where
  data := SortedMap.empty.insertAll
    (entries.map fun binding => (binding.1, AscList.singleton (IndexWalPosition.newModified binding.2)))
  flat := SortedMap.empty

/-- Bisect bindings by index until every part is small enough or a single binding. -/
def splitRecursive (config : KsConfig K) (sizeLimit : Nat) (entries : List (K × WalPosition)) :
    List (List (K × WalPosition)) :=
  if _short : entries.length ≤ 1 then
    if entries.isEmpty then [] else [entries]
  else if config.serializedLen (buildShardTable entries).serialize ≤ sizeLimit then [entries]
  else
    splitRecursive config sizeLimit (entries.take (entries.length / 2)) ++
      splitRecursive config sizeLimit (entries.drop (entries.length / 2))
termination_by entries.length
decreasing_by
  · simp only [List.length_take]
    omega
  · simp only [List.length_drop]
    omega

/-- Write parts as shards under their smallest and largest key. -/
def flushShardTables (config : KsConfig K) (writer : IndexWriter) :
    List (List (K × WalPosition)) → IndexWriter × List (K × IndexShard K)
  | [] => (writer, [])
  | part :: rest =>
      match part.head?, part.getLast? with
      | some first, some last =>
          let (writer, blob) := writer.flush config (buildShardTable part)
          let (writer, pieces) := flushShardTables config writer rest
          (writer, (first.1, ⟨blob, last.1⟩) :: pieces)
      | _, _ => flushShardTables config writer rest

/-- Write a promoted `L1`, split into shards when it exceeds the threshold. -/
def writePromotedL1 (config : KsConfig K) (writer : IndexWriter) (table : IndexTable K) :
    IndexWriter × IndexLevels K :=
  match config.autoShardThreshold with
  | some limit =>
      if limit < config.serializedLen table.serialize then
        let (writer, pieces) :=
          flushShardTables config writer (splitRecursive config limit table.iter.entries)
        (writer, ⟨none, DeepLevel.ofPieces pieces⟩)
      else
        let (writer, blob) := writer.flush config table
        (writer, ⟨none, .l1 blob⟩)
  | none =>
      let (writer, blob) := writer.flush config table
      (writer, ⟨none, .l1 blob⟩)

/-! ## Rewriting shards -/

/-- Write one rewritten shard back, as one blob or several; nothing if it is empty. -/
def writeShard (config : KsConfig K) (writer : IndexWriter) (table : IndexTable K) :
    IndexWriter × List (K × IndexShard K) :=
  let entries := table.iter.entries
  match entries.head?, entries.getLast? with
  | some first, some last =>
      if config.exceedsShardThreshold table then
        flushShardTables config writer
          (splitRecursive config (config.autoShardThreshold.getD 0) entries)
      else
        let (writer, blob) := writer.flush config table
        (writer, [(first.1, ⟨blob, last.1⟩)])
  | _, _ => (writer, [])

/-- Rewrite the shards that have work, in key order; the others keep their blobs. -/
def rewriteShards (config : KsConfig K) (minWalPosition : Nat)
    (rewrite : K → IndexTable K → Option (IndexTable K)) (writer : IndexWriter) :
    List (K × IndexShard K) → IndexWriter × List (K × IndexShard K)
  | [] => (writer, [])
  | piece :: rest =>
      match rewrite piece.1 piece.2.blob.load with
      | some table =>
          let (writer, written) :=
            writeShard config writer (processL1Blob config minWalPosition table)
          let (writer, pieces) := rewriteShards config minWalPosition rewrite writer rest
          (writer, written ++ pieces)
      | none =>
          let (writer, pieces) := rewriteShards config minWalPosition rewrite writer rest
          (writer, piece :: pieces)

/-- The shard that takes a key: the last one starting at or below it, else the first. -/
def ownerOf (pieces : List (K × IndexShard K)) (key : K) : Option K :=
  (((pieces.filter fun piece => piece.1 ≤ key).getLast?).or pieces.head?).map Prod.fst

/-- The part of a promoted `L0` that goes to one shard; tombstones get a placeholder
offset at the end of the log. -/
def partitionFor (merged : IndexTable K) (pieces : List (K × IndexShard K))
    (placeholder : WalPosition) (owner : K) : IndexTable K where
  data := merged.iterWithTombstones.filterMap fun key position =>
    if ownerOf pieces key = some owner then
      some (AscList.singleton (if position.isValid then IndexWalPosition.newModified position
        else IndexWalPosition.newRemoved placeholder))
    else none
  flat := SortedMap.empty

/-- Promote into shards: the touched shards are rewritten. -/
def writeShardedPromote (config : KsConfig K) (view : LogView) (writer : IndexWriter)
    (merged : IndexTable K) (shards : Shards K) : IndexWriter × IndexLevels K :=
  let placeholder : WalPosition := ⟨max view.currentWalPosition 1, 1⟩
  let (writer, pieces) := rewriteShards config view.minWalPosition
    (fun owner table =>
      let part := partitionFor merged shards.pieces placeholder owner
      if part.isEmpty then none else some (table.mergeDirtyAndClean part))
    writer shards.pieces
  match Shards.ofPieces pieces with
  | some shards => (writer, ⟨none, .sharded shards⟩)
  | none =>
      let (writer, blob) := writer.flush config IndexTable.empty
      (writer, ⟨none, .l1 blob⟩)

/-- The updates that go to one shard: those of keys it covers and the merged `L0`
does not hold. -/
def shardWork (merged : IndexTable K) (shards : Shards K) (updates : RelocationUpdates K)
    (owner : K) : List (K × WalPosition) :=
  updates.updates.filter fun update =>
    !merged.containsKey update.1 && (shards.shardEntryFor update.1).any fun piece => piece.1 = owner

/-- The rewrite of a shard for its updates; none when none of them applies. -/
def shardRewrite (merged : IndexTable K) (shards : Shards K) (updates : RelocationUpdates K)
    (owner : K) (table : IndexTable K) : Option (IndexTable K) :=
  match shardWork merged shards updates owner with
  | [] => none
  | work =>
      let applied := RelocationUpdates.apply ⟨updates.lastProcessed, work⟩ table
      if applied.2 then some applied.1 else none

/-- Relocation compare-and-set on a sharded cell: keys the merged `L0` holds are
re-pointed there, the others in the shard covering them. -/
def applyRelocationUpdatesSharded (config : KsConfig K) (minWalPosition : Nat)
    (writer : IndexWriter) (merged : IndexTable K) (levels : IndexLevels K) (shards : Shards K)
    (updates : RelocationUpdates K) : IndexWriter × IndexTable K × IndexLevels K :=
  let localUpdates := updates.updates.filter fun update => merged.containsKey update.1
  let merged' := (RelocationUpdates.apply ⟨updates.lastProcessed, localUpdates⟩ merged).1
  if shards.pieces.all fun piece => (shardWork merged shards updates piece.1).isEmpty then
    (writer, merged', levels)
  else
    let (writer, pieces) := rewriteShards config minWalPosition
      (shardRewrite merged shards updates) writer shards.pieces
    (writer, merged', ⟨none, DeepLevel.ofPieces pieces⟩)

/-! ## Moving blobs between index files -/

/-- Write a blob again if its position is listed. -/
def reflushBlob (config : KsConfig K) (relocatePositions : List WalPosition)
    (writer : IndexWriter) (blob : Blob K) : IndexWriter × Blob K :=
  if relocatePositions.contains blob.position then writer.flush config blob.load
  else (writer, blob)

def reflushPieces (config : KsConfig K) (relocatePositions : List WalPosition)
    (writer : IndexWriter) : List (K × IndexShard K) → IndexWriter × List (K × IndexShard K)
  | [] => (writer, [])
  | piece :: rest =>
      let (writer, blob) := reflushBlob config relocatePositions writer piece.2.blob
      let (writer, pieces) := reflushPieces config relocatePositions writer rest
      (writer, (piece.1, ⟨blob, piece.2.maxKey⟩) :: pieces)

/-- Write every listed blob of the levels again, keeping their shape. -/
def relocateInLevels (config : KsConfig K) (writer : IndexWriter) (levels : IndexLevels K)
    (relocatePositions : List WalPosition) : IndexWriter × IndexLevels K :=
  if relocatePositions.isEmpty then (writer, levels)
  else
    let (writer, l0) := match levels.l0 with
      | some blob =>
          let (writer, blob) := reflushBlob config relocatePositions writer blob
          (writer, some blob)
      | none => (writer, none)
    match levels.deep with
    | .none => (writer, ⟨l0, .none⟩)
    | .l1 blob =>
        let (writer, blob) := reflushBlob config relocatePositions writer blob
        (writer, ⟨l0, .l1 blob⟩)
    | .sharded shards =>
        let (writer, pieces) := reflushPieces config relocatePositions writer shards.pieces
        (writer, ⟨l0, DeepLevel.ofPieces pieces⟩)

/-! ## Handling a command -/

/-- The merged `L0` candidate of a command and the levels it goes over. -/
def mergeForFlush : FlushKind K → IndexTable K × IndexLevels K
  | .flush dirty levels loaded _ =>
      (if loaded then dirty else levels.loadL0.mergeDirtyAndClean dirty, levels)
  | .forceRelocate levels _ =>
      let base := match levels.deep with
        | .l1 blob => blob.load
        | .none => IndexTable.empty
        | .sharded _ => IndexTable.empty
      (match levels.l0 with
        | some blob => base.mergeDirtyAndClean blob.load
        | none => base, IndexLevels.new)

/-- Bring the relocation's updates into the merged table and the levels below it. -/
def applyRelocation (config : KsConfig K) (minWalPosition : Nat) (writer : IndexWriter)
    (merged : IndexTable K) (levels : IndexLevels K) :
    RelocationFlush K → IndexWriter × IndexTable K × IndexLevels K
  | .updates updates =>
      match levels.deep with
      | .sharded shards =>
          applyRelocationUpdatesSharded config minWalPosition writer merged levels shards updates
      | .l1 blob => (writer, (updates.apply (blob.load.mergeDirtyAndClean merged)).1, levels)
      | .none => (writer, (updates.apply merged).1, levels)
  | .cutoff _ => (writer, merged, levels)
  | .none => (writer, merged, levels)

/-- The offset filter of a flush: the relocation cutoff, or the lowest live position.
A cutoff that removes nothing ends the flush. -/
def filterByOffset (minWalPosition : Nat) (merged : IndexTable K) :
    RelocationFlush K → Option (IndexTable K)
  | .cutoff cutoff =>
      if (merged.retainAbovePosition cutoff).len = merged.len then none
      else some (merged.retainAbovePosition cutoff)
  | .updates _ => some (merged.retainAbovePosition minWalPosition)
  | .none => some (merged.retainAbovePosition minWalPosition)

def FlushKind.isRelocation : FlushKind K → Bool
  | .flush _ _ _ _ => false
  | .forceRelocate _ _ => true

/-- Write the filtered table: promote it, drop it if empty over a deeper level, or
write it as the new `L0`. -/
def writeLevels (config : KsConfig K) (view : LogView) (writer : IndexWriter)
    (isRelocation : Bool) (merged : IndexTable K) (levels : IndexLevels K) :
    IndexWriter × IndexLevels K :=
  if !isRelocation && decide (config.l0MaxEntries < merged.len) then
    match levels.deep with
    | .sharded shards => writeShardedPromote config view writer merged shards
    | .l1 blob =>
        writePromotedL1 config writer
          (processL1Blob config view.minWalPosition (blob.load.mergeDirtyAndClean merged))
    | .none =>
        writePromotedL1 config writer
          (processL1Blob config view.minWalPosition (IndexTable.empty.mergeDirtyAndClean merged))
  else if merged.isEmpty && !levels.deep.isNone then (writer, ⟨none, levels.deep⟩)
  else
    let compacted := runCompactor config merged
    let settled := if levels.deep.isNone then compacted.cleanSelf else compacted
    let (writer, blob) := writer.flush config settled
    (writer, ⟨some blob, levels.deep⟩)

/-- Run a flush command. The result is the table the command was made from and the
cell's new levels. -/
def handleCommand (config : KsConfig K) (view : LogView) (writer : IndexWriter)
    (kind : FlushKind K) (relocation : RelocationFlush K) :
    IndexWriter × Option (IndexTable K × IndexLevels K) :=
  match kind with
  | .forceRelocate levels@⟨_, .sharded _⟩ relocatePositions =>
      let (writer, levels) := relocateInLevels config writer levels relocatePositions
      (writer, some (IndexTable.empty, levels))
  | _ =>
      let (merged, levels) := mergeForFlush kind
      let original := match kind with
        | .flush dirty _ _ _ => dirty
        | .forceRelocate _ _ => merged
      let (writer, merged, levels) := applyRelocation config view.minWalPosition writer
        (merged.retainProcessed view.lastProcessed) levels relocation
      match filterByOffset view.minWalPosition merged relocation with
      | none => (writer, none)
      | some merged =>
          let (writer, levels) := writeLevels config view writer kind.isRelocation merged levels
          let (writer, levels) := match kind with
            | .flush _ _ _ relocatePositions =>
                relocateInLevels config writer levels relocatePositions
            | .forceRelocate _ _ => (writer, levels)
          (writer, some (original, levels))

end Tidehunter.Flusher
