import Tidehunter.Db.State

/-!
# Writing a batch of copies

What a batch of relocated records does to a database: its frames are appended to the
log, and every index entry of the cell below the threshold whose key has a copy is
re-pointed to it.
-/

namespace Tidehunter.Db

open Library Wal Index Flusher LargeTable

/-- A frame of a relocated record. -/
def IsCopy (ks : Nat) (record : Bytes × Bytes) (log later : Log) (position : WalPosition) : Prop :=
  PointsAt later position (.record ks record.1 record.2 true) ∧ log.position ≤ position.offset ∧
    position.offset < later.position

theorem PointsAt.extends {log later : Log} {position : WalPosition} {entry : WalEntry}
    (points : PointsAt log position entry) (grown : log.Extends later) :
    PointsAt later position entry := ⟨grown.read_of_some points.1, points.2⟩

/-- The frames added to a log are all relocated records of a key space. -/
def AddsCopies (ks : Nat) (log later : Log) : Prop :=
  ∀ offset entry, log.position ≤ offset → later.frames.lookup offset = some entry →
    ∃ key value, entry = .record ks key value true

/-- The frame of a copy. -/
def copyFrame (ks : Nat) (record : Bytes × Bytes) : WalEntry := .record ks record.1 record.2 true

/-- A batch appends the frames of its copies in order. -/
theorem frames_writeRelocatedBatchIntoWal {ks : Nat} {records : List (Bytes × Bytes)}
    {log later : Log} {positions : List WalPosition}
    (written : writeRelocatedBatchIntoWal ks records log = some (later, positions)) :
    later.frames.entries.map Prod.snd =
      log.frames.entries.map Prod.snd ++ records.map (copyFrame ks) := by
  induction records generalizing log later positions with
  | nil =>
      cases written
      simp
  | cons record rest ih =>
      obtain ⟨key, value⟩ := record
      rw [writeRelocatedBatchIntoWal] at written
      split at written
      · cases written
      · rename_i middle position appended
        obtain ⟨⟨tail, tailPositions⟩, tailWritten, same⟩ := Option.map_eq_some_iff.mp written
        cases same
        rw [ih tailWritten, Log.entries_append appended]
        simp [copyFrame]

theorem writeRelocatedBatchIntoWal_spec {ks : Nat} {records : List (Bytes × Bytes)}
    {log later : Log} {positions : List WalPosition}
    (written : writeRelocatedBatchIntoWal ks records log = some (later, positions)) :
    log.Extends later ∧ AddsCopies ks log later ∧
      List.Forall₂ (fun record position => IsCopy ks record log later position) records positions := by
  induction records generalizing log later positions with
  | nil =>
      cases written
      refine ⟨Log.Extends.refl log, fun offset entry high found => ?_, List.Forall₂.nil⟩
      exact absurd (Log.lookup_lt found) (Nat.not_lt.mpr high)
  | cons record rest ih =>
      obtain ⟨key, value⟩ := record
      rw [writeRelocatedBatchIntoWal] at written
      split at written
      · cases written
      · rename_i middle position appended
        obtain ⟨⟨tail, tailPositions⟩, tailWritten, same⟩ := Option.map_eq_some_iff.mp written
        cases same
        obtain ⟨grown, shape, low, high, found, only⟩ := Log.append_spec appended
        obtain ⟨tailGrown, tailCopies, tailAll⟩ := ih tailWritten
        refine ⟨grown.trans tailGrown, fun offset entry above held => ?_, List.Forall₂.cons ?_ ?_⟩
        · by_cases inTail : middle.position ≤ offset
          · exact tailCopies offset entry inTail held
          · rw [tailGrown.frames offset (Nat.not_le.mp inTail)] at held
            by_cases here : offset = position.offset
            · rw [here, (Log.read_eq_some_iff.mp found).2] at held
              exact ⟨key, value, (Option.some.inj held).symm⟩
            · rw [only offset above here] at held
              cases held
        · exact ⟨⟨tailGrown.read_of_some found, shape⟩, low, lt_of_lt_of_le high tailGrown.position⟩
        · refine tailAll.imp fun record position copy => ?_
          exact ⟨copy.1, grown.position.trans copy.2.1, copy.2.2⟩

/-- What a batch of copies leaves as it was. -/
structure SameBut (db later : Db) (ref : CellReference) : Prop where
  config : later.config = db.config
  cellRefs : later.cellRefs = db.cellRefs
  latch : later.latch = db.latch
  controlRegion : later.controlRegion = db.controlRegion
  watermarks : later.watermarks = db.watermarks
  cells : ∀ other, other ≠ ref → later.cells other = db.cells other

/-- What a batch of copies does. -/
structure BatchWritten (db later : Db) (ref : CellReference) (records : List (Bytes × Bytes))
    (threshold : Nat) : Prop where
  same : SameBut db later ref
  grown : db.log.Extends later.log
  copies : AddsCopies ref.keyspace db.log later.log
  frames : later.log.frames.entries.map Prod.snd =
    db.log.frames.entries.map Prod.snd ++ records.map (copyFrame ref.keyspace)
  frontier : db.lastProcessed ≤ later.lastProcessed
  settled : later.lastProcessed ≤ later.latch.getD later.log.position
  rest : (later.cells ref).Quiescent later.log.minWalPosition
  moved : ∃ reducedKeys positions,
    (records.mapM fun record => (db.keySpaces ref.keyspace).reduceKey record.1) = some reducedKeys ∧
      List.Forall₂ (fun record position =>
        IsCopy ref.keyspace record db.log later.log position) records positions ∧
      ∀ key, (later.cells ref).get key = ((db.cells ref).get key).map
        (RelocationUpdates.movedPosition threshold
          (RelocationUpdates.target (reducedKeys.zip positions) key))

theorem isValid_of_lt {log : Log} {position : WalPosition} (below : position.offset < log.position) :
    position.isValid := by
  have small := log.position_le
  rw [WalPosition.isValid, decide_eq_true_eq]
  intro sentinel
  rw [sentinel] at below
  change u64Max < log.position at below
  omega

/-- The compare-and-set list of a batch names fresh frames. -/
theorem fresh_updates {ks : Nat} {records : List (Bytes × Bytes)} {log later : Log}
    {positions : List WalPosition} {threshold : Nat} (keys : List Bytes)
    (threshold_le : threshold ≤ log.position)
    (copies : List.Forall₂ (fun record position => IsCopy ks record log later position)
      records positions) :
    (⟨threshold, keys.zip positions⟩ : RelocationUpdates Bytes).Fresh := by
  have each : ∀ position ∈ positions, log.position ≤ position.offset ∧
      position.offset < later.position := by
    induction copies with
    | nil => exact nofun
    | cons copy _ ih =>
        intro position member
        rcases List.mem_cons.mp member with rfl | later
        · exact copy.2
        · exact ih position later
  refine ⟨threshold_le.trans log.position_le, fun update member => ?_, fun update member => ?_⟩
  · have inside := each update.2 (List.of_mem_zip member).2
    exact threshold_le.trans inside.1
  · exact isValid_of_lt (each update.2 (List.of_mem_zip member).2).2

theorem writeRelocatedBatch_spec {db later : Db} {ref : CellReference}
    {records : List (Bytes × Bytes)} {threshold : Nat}
    (rest : (db.cells ref).Quiescent db.log.minWalPosition)
    (noCompactor : (db.keySpaces ref.keyspace).config.compactor = none)
    (frontier : db.lastProcessed ≤ db.latch.getD db.log.position)
    (threshold_le : threshold ≤ db.log.position)
    (ahead : ∀ key position, (db.cells ref).get key = some position →
      db.lastProcessed ≤ position.offset → threshold ≤ position.offset)
    (written : db.writeRelocatedBatch ref records threshold = some later) :
    BatchWritten db later ref records threshold := by
  unfold writeRelocatedBatch at written
  split at written
  · rename_i nothing
    cases written
    obtain rfl := List.isEmpty_iff.mp nothing
    refine ⟨⟨rfl, rfl, rfl, rfl, rfl, fun _ _ => rfl⟩, Log.Extends.refl _, ?_, by simp, le_refl _,
      frontier, rest, [], [], rfl, List.Forall₂.nil, fun key => ?_⟩
    · intro offset entry high found
      exact absurd (Log.lookup_lt found) (Nat.not_lt.mpr high)
    · simp [RelocationUpdates.target]
  · split at written
    · rename_i log positions reducedKeys inLog reduced
      obtain ⟨grown, copies, all⟩ := writeRelocatedBatchIntoWal_spec inLog
      cases written
      have fresh := fresh_updates reducedKeys threshold_le all
      have advanced : db.lastProcessed ≤ db.latch.getD log.position := by
        cases held : db.latch with
        | none =>
            rw [held] at frontier
            exact frontier.trans grown.position
        | some frontierHeld =>
            rw [held] at frontier
            exact frontier
      have floor := grown.minWalPosition
      rw [← floor] at rest
      have ahead' : ∀ key position, (db.cells ref).get key = some position →
          db.latch.getD log.position ≤ position.offset → threshold ≤ position.offset :=
        fun key position live high => ahead key position live (advanced.trans high)
      refine ⟨⟨rfl, rfl, rfl, rfl, rfl, fun other different => Function.update_of_ne different _ _⟩,
        grown, copies, frames_writeRelocatedBatchIntoWal inLog, advanced, le_refl _, ?_, reducedKeys, positions, reduced, all, fun key => ?_⟩
      · rw [syncFlushForRelocation]
        simp only [Function.update_self]
        exact @Entry.Quiescent.syncFlush_updates Bytes _ _ noCompactor
          (logView (waitProcessed { db with log := log })) _ rest _ fresh _ ahead' (le_refl _) _
      · rw [syncFlushForRelocation]
        simp only [Function.update_self]
        exact Entry.get_syncFlush_updates noCompactor rest.ok rest.idle fresh (le_refl _) _
          (ahead' key) (rest.floored key)
    · cases written

end Tidehunter.Db
