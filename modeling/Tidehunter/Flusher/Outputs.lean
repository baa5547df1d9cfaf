import Tidehunter.Flusher.Command

/-!
# The blobs of a flushed cell

A flush leaves in the levels of its cell blobs that were there and blobs that it has
written, at or behind the place the index log ended when it started.
-/

namespace Tidehunter.Flusher

open Library Wal Index

variable {K : Type} [LinearOrder K]

/-- From one state of the index log to another, blobs are kept or written. -/
structure Extends (old : List (Blob K)) (before after : IndexWriter) (new : List (Blob K)) : Prop where
  position : before.position ≤ after.position
  blobs : ∀ blob ∈ new, blob ∈ old ∨ before.position ≤ blob.position.offset

/-- The same of what a function returns: the log and something made of blobs. -/
abbrev Leaves (old : List (Blob K)) (before : IndexWriter) {Made : Type}
    (blobsOf : Made → List (Blob K)) (output : IndexWriter × Made) : Prop :=
  Extends old before output.1 (blobsOf output.2)

/-- The blobs of shards. -/
def pieceBlobs (pieces : List (K × IndexShard K)) : List (Blob K) :=
  pieces.map fun piece => piece.2.blob

theorem pieces_ofPieces {pieces : List (K × IndexShard K)} {shards : Shards K}
    (built : Shards.ofPieces pieces = some shards) : shards.pieces = pieces := by
  unfold Shards.ofPieces at built
  split at built <;> cases built
  rfl

theorem blobs_ofPieces (pieces : List (K × IndexShard K)) :
    ∀ blob ∈ (DeepLevel.ofPieces pieces).blobs, blob ∈ pieceBlobs pieces := by
  unfold DeepLevel.ofPieces
  split
  · rename_i shards built
    exact pieces_ofPieces built ▸ fun _ => id
  · exact List.forall_mem_nil _

/-- The levels a command was made from. -/
def FlushKind.levels : FlushKind K → IndexLevels K
  | .flush _ levels _ _ => levels
  | .forceRelocate levels _ => levels

namespace Extends

variable {old new more : List (Blob K)} {before writer after : IndexWriter} (config : KsConfig K)
  (table : IndexTable K) (relocatePositions : List WalPosition)

theorem subset (extension : Extends old before writer new) (fewer : ∀ blob ∈ more, blob ∈ new) :
    Extends old before writer more :=
  ⟨extension.position, fun blob member => extension.blobs blob (fewer blob member)⟩

/-- One part is written after the other. -/
theorem append (front : Extends old before writer new) (back : Extends old before after more) :
    Extends old before after (new ++ more) :=
  ⟨back.position, List.forall_mem_append.mpr ⟨front.blobs, back.blobs⟩⟩

/-- The first blob and the others. -/
theorem uncons {blob : Blob K} (extension : Extends old before writer (blob :: more)) :
    Extends old before writer [blob] ∧ Extends old before writer more := by
  obtain ⟨first, others⟩ := List.forall_mem_cons.mp extension.blobs
  exact ⟨⟨extension.position, List.forall_mem_singleton.mpr first⟩, extension.position, others⟩

theorem flush (extension : Extends old before writer new) :
    Leaves old before (fun blob => [blob]) (writer.flush config table) := by
  have behind := extension.position.trans (writer.layout.le_nextPosition writer.position
    (writer.layout.align (config.serializedLen table.serialize + indexFrameOverhead)))
  exact ⟨behind.trans (Nat.le_add_right _ _), List.forall_mem_singleton.mpr (.inr behind)⟩

/-! ## Writing shards -/

theorem flushShardTables (extension : Extends old before writer new)
    (parts : List (List (K × WalPosition))) :
    Leaves old before pieceBlobs (flushShardTables config writer parts) := by
  induction parts generalizing writer new with
  | nil => exact extension.subset (List.forall_mem_nil _)
  | cons part rest ih =>
      rw [Flusher.flushShardTables]
      split
      · exact (extension.flush config _).append (ih (extension.flush config _))
      · exact ih extension

theorem writeShard (extension : Extends old before writer new) :
    Leaves old before pieceBlobs (writeShard config writer table) := by
  unfold Flusher.writeShard
  simp only
  split
  · split
    · exact extension.flushShardTables config _
    · exact extension.flush config table
  · exact extension.subset (List.forall_mem_nil _)

theorem rewriteShards {pieces : List (K × IndexShard K)}
    (extension : Extends old before writer (pieceBlobs pieces)) (minWalPosition : Nat)
    (rewrite : K → IndexTable K → Option (IndexTable K)) :
    Leaves old before pieceBlobs (rewriteShards config minWalPosition rewrite writer pieces) := by
  induction pieces generalizing writer with
  | nil => exact extension
  | cons piece rest ih =>
      obtain ⟨here, others⟩ := extension.uncons
      rw [Flusher.rewriteShards]
      split
      · rename_i table _
        have front := extension.writeShard config (processL1Blob config minWalPosition table)
        simp only [Leaves, pieceBlobs, List.map_append]
        exact front.append (ih ⟨front.position, others.blobs⟩)
      · exact here.append (ih others)

theorem writePromotedL1 (extension : Extends old before writer new) :
    Leaves old before IndexLevels.blobs (writePromotedL1 config writer table) := by
  unfold Flusher.writePromotedL1
  split
  · split
    · exact (extension.flushShardTables config _).subset (blobs_ofPieces _)
    · exact extension.flush config table
  · exact extension.flush config table

theorem writeShardedPromote {shards : Shards K}
    (extension : Extends old before writer (pieceBlobs shards.pieces)) (view : LogView)
    (merged : IndexTable K) :
    Leaves old before IndexLevels.blobs (writeShardedPromote config view writer merged shards) := by
  unfold Flusher.writeShardedPromote
  simp only
  split
  · rename_i built
    refine (extension.rewriteShards config view.minWalPosition _).subset ?_
    exact pieces_ofPieces built ▸ fun _ => id
  · exact (extension.rewriteShards config view.minWalPosition _).flush config _

/-! ## Relocation -/

theorem reflushBlob {blob : Blob K} (extension : Extends old before writer [blob]) :
    Leaves old before (fun blob => [blob]) (reflushBlob config relocatePositions writer blob) := by
  unfold Flusher.reflushBlob
  split
  · exact extension.flush config _
  · exact extension

theorem reflushPieces {pieces : List (K × IndexShard K)}
    (extension : Extends old before writer (pieceBlobs pieces)) :
    Leaves old before pieceBlobs (reflushPieces config relocatePositions writer pieces) := by
  induction pieces generalizing writer with
  | nil => exact extension
  | cons piece rest ih =>
      obtain ⟨here, others⟩ := extension.uncons
      have front := here.reflushBlob config relocatePositions
      exact front.append (ih ⟨front.position, others.blobs⟩)

theorem relocateInLevels {levels : IndexLevels K}
    (extension : Extends old before writer levels.blobs) :
    Leaves old before IndexLevels.blobs
      (relocateInLevels config writer levels relocatePositions) := by
  obtain ⟨l0, deep⟩ := levels
  unfold Flusher.relocateInLevels
  split
  · exact extension
  · cases l0 with
    | none =>
        cases deep with
        | none => exact extension
        | l1 blob => exact extension.reflushBlob config relocatePositions
        | sharded shards =>
            exact (extension.reflushPieces config relocatePositions).subset (blobs_ofPieces _)
    | some first =>
        -- the `L0` blob is written first, then what lies below it
        obtain ⟨here, below⟩ := extension.uncons
        have front := here.reflushBlob config relocatePositions
        have back : Extends old before _ deep.blobs := ⟨front.position, below.blobs⟩
        cases deep with
        | none => exact front
        | l1 blob => exact front.append (back.reflushBlob config relocatePositions)
        | sharded shards =>
            exact front.append
              ((back.reflushPieces config relocatePositions).subset (blobs_ofPieces _))

/-! ## Commands -/

theorem applyRelocation {levels : IndexLevels K}
    (extension : Extends old before writer levels.blobs) (minWalPosition : Nat)
    (merged : IndexTable K) (relocation : RelocationFlush K) :
    Leaves old before (fun made => made.2.blobs)
      (applyRelocation config minWalPosition writer merged levels relocation) := by
  unfold Flusher.applyRelocation
  split
  · split
    · rename_i shards isSharded
      unfold applyRelocationUpdatesSharded
      simp only
      split
      · exact extension
      · refine (rewriteShards config (extension.subset fun blob member => ?_) minWalPosition
          _).subset (blobs_ofPieces _)
        rw [IndexLevels.blobs, isSharded]
        exact List.mem_append_right _ member
    · exact extension
    · exact extension
  · exact extension
  · exact extension

theorem writeLevels {levels : IndexLevels K} (extension : Extends old before writer levels.blobs)
    (view : LogView) (isRelocation : Bool) (merged : IndexTable K) :
    Leaves old before IndexLevels.blobs
      (writeLevels config view writer isRelocation merged levels) := by
  have deep : Extends old before writer levels.deep.blobs :=
    extension.subset fun _ => List.mem_append_right _
  unfold Flusher.writeLevels
  split
  · split
    · rename_i shards isSharded
      rw [isSharded] at deep
      exact deep.writeShardedPromote config view merged
    · exact extension.writePromotedL1 config _
    · exact extension.writePromotedL1 config _
  · split
    · exact deep
    · refine (extension.flush config _).append ⟨?_, deep.blobs⟩
      exact (extension.flush config _).position

end Extends

/-- The levels a command returns hold blobs of the levels it was made from and blobs
written while it ran. -/
theorem extends_handleCommand (config : KsConfig K) (view : LogView) (writer : IndexWriter)
    (kind : FlushKind K) (relocation : RelocationFlush K) :
    ∀ result ∈ (handleCommand config view writer kind relocation).2,
      Extends kind.levels.blobs writer (handleCommand config view writer kind relocation).1
        result.2.blobs := by
  have start : Extends kind.levels.blobs writer writer kind.levels.blobs :=
    ⟨Nat.le_refl _, fun _ => Or.inl⟩
  unfold handleCommand
  split
  · rintro _ ⟨⟩
    exact start.relocateInLevels config _
  · -- the levels a forced relocation is merged over are empty
    have base : ∀ blob ∈ (mergeForFlush kind).2.blobs, blob ∈ kind.levels.blobs := by
      cases kind with
      | flush dirty levels loaded relocatePositions => exact fun _ => id
      | forceRelocate levels relocatePositions => exact List.forall_mem_nil _
    have applied := (start.subset base).applyRelocation config view.minWalPosition
      ((mergeForFlush kind).1.retainProcessed view.lastProcessed) relocation
    simp only
    split
    · rintro _ ⟨⟩
    · rename_i merged filtered
      have written := applied.writeLevels config view kind.isRelocation merged
      rintro _ ⟨⟩
      cases kind with
      | flush dirty levels loaded relocatePositions =>
          exact written.relocateInLevels config relocatePositions
      | forceRelocate levels relocatePositions => exact written

end Tidehunter.Flusher
