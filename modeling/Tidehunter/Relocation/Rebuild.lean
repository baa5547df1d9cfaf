import Tidehunter.Db.State

/-!
# Rebuilding the control region

A rebuild flushes the cells that are behind, moves index blobs out of files that are
mostly dead, and stores a snapshot of the levels with the position to replay from. On a
database at rest it changes no read.
-/

namespace Tidehunter.Db

open Library Wal Index Flusher LargeTable

/-! ## The passes -/

/-- Put a flushed cell in place. -/
def installFlush (db : Db) (ref : CellReference) (flushed : IndexWriter × Entry Bytes) : Db :=
  { db with cells := Function.update db.cells ref flushed.2, indexWriter := flushed.1 }

/-- Flush a dirty cell whose levels end at or below the threshold. -/
def requestFlushIfBehind (threshold : Nat) (db : Db) (ref : CellReference) : Db :=
  match (db.cells ref).pendingLastProcessed, (db.cells ref).flushKind [] with
  | none, some kind =>
      if (db.cells ref).lastProcessed ≤ threshold then
        db.installFlush ref ((db.cells ref).runFlush (db.keySpaces ref.keyspace).config
          db.lastProcessed db.logView db.indexWriter kind)
      else db
  | _, _ => db

/-- Bytes of the index blobs that live in a file of the index log. -/
def aliveBytes (db : Db) (file : Nat) : Nat :=
  (((db.cellRefs.flatMap fun ref => (db.cells ref).levels.blobs).filter fun blob =>
    db.indexWriter.layout.locateFile blob.position.offset = file).map fun blob =>
      blob.position.len).sum

/-- The blobs in files below the write position whose live bytes are under the threshold. -/
def relocateFiles (db : Db) (position : WalPosition) : Bool :=
  let file := db.indexWriter.layout.locateFile position.offset
  db.config.indexMinOccupancyPct ≠ 0 &&
    decide (file < db.indexWriter.layout.locateFile db.indexWriter.position) &&
    decide (db.aliveBytes file <
      db.indexWriter.layout.walFileSize * db.config.indexMinOccupancyPct / 100)

/-- Rewrite the flagged blobs of a cell: with its flush if it is dirty, else alone. -/
def requestForceRelocate (flagged : WalPosition → Bool) (db : Db) (ref : CellReference) : Db :=
  let positions := ((db.cells ref).levels.blobs.map fun blob => blob.position).filter flagged
  if (db.cells ref).pendingLastProcessed.isSome || positions.isEmpty then db
  else
    db.installFlush ref ((db.cells ref).runFlush (db.keySpaces ref.keyspace).config
      db.lastProcessed db.logView db.indexWriter
      (((db.cells ref).flushKind positions).getD (.forceRelocate (db.cells ref).levels positions)))

/-- A clean cell that has something on disk is covered up to the frontier. -/
def snapshotEntry (lastProcessed : Nat) (entry : Entry Bytes) : Entry Bytes :=
  if !entry.state.isDirty && entry.state ≠ .empty then { entry with lastProcessed := lastProcessed }
  else entry

/-- Where to replay from: no cell that holds anything is behind it. -/
def replayFrom (db : Db) : Nat :=
  ((db.cellRefs.filter fun ref => (db.cells ref).state ≠ .empty).map fun ref =>
    (db.cells ref).lastProcessed).foldl min db.lastProcessed

/-- Store a snapshot of the cells. -/
def storeSnapshot (db : Db) : Db :=
  let db := { db with cells := fun ref => snapshotEntry db.lastProcessed (db.cells ref) }
  { db with controlRegion :=
      ⟨db.replayFrom, fun ref => (db.cells ref).levels, fun ref => (db.cells ref).lastProcessed⟩ }

def rebuildControlRegionFrom (db : Db) (threshold : Nat) : Db :=
  let flushed := db.cellRefs.foldl (requestFlushIfBehind threshold) db
  (flushed.cellRefs.foldl (requestForceRelocate db.relocateFiles) flushed).storeSnapshot

/-! ## A rebuild changes no read -/

/-- A later state of a database whose cells read the same. -/
structure SameReads (db later : Db) : Prop where
  config : later.config = db.config
  cellRefs : later.cellRefs = db.cellRefs
  log : later.log = db.log
  latch : later.latch = db.latch
  lastProcessed : later.lastProcessed = db.lastProcessed
  rest : ∀ ref, (later.cells ref).Quiescent later.log.minWalPosition
  reads : ∀ ref key, (later.cells ref).get key = (db.cells ref).get key

namespace SameReads

variable {db middle later : Db}

theorem refl (rest : ∀ ref, (db.cells ref).Quiescent db.log.minWalPosition) : db.SameReads db :=
  ⟨rfl, rfl, rfl, rfl, rfl, rest, fun _ _ => rfl⟩

theorem trans (first : db.SameReads middle) (second : middle.SameReads later) : db.SameReads later where
  config := second.config.trans first.config
  cellRefs := second.cellRefs.trans first.cellRefs
  log := second.log.trans first.log
  latch := second.latch.trans first.latch
  lastProcessed := second.lastProcessed.trans first.lastProcessed
  rest := second.rest
  reads ref key := (second.reads ref key).trans (first.reads ref key)

end SameReads

section Steps

variable {db : Db} (rest : ∀ ref, (db.cells ref).Quiescent db.log.minWalPosition)

include rest

theorem sameReads_installFlush {ref : CellReference} {flushed : IndexWriter × Entry Bytes}
    (quiet : flushed.2.Quiescent db.log.minWalPosition)
    (reads : ∀ key, flushed.2.get key = (db.cells ref).get key) :
    db.SameReads (db.installFlush ref flushed) := by
  refine ⟨rfl, rfl, rfl, rfl, rfl, fun other => ?_, fun other key => ?_⟩
  · by_cases same : other = ref
    · subst same
      simpa [installFlush] using quiet
    · simpa [installFlush, same] using rest other
  · by_cases same : other = ref
    · subst same
      simpa [installFlush] using reads key
    · simp [installFlush, same]

theorem sameReads_storeSnapshot : db.SameReads db.storeSnapshot := by
  have each : ∀ entry : Entry Bytes, entry.Quiescent db.log.minWalPosition →
      (snapshotEntry db.lastProcessed entry).Quiescent db.log.minWalPosition ∧
        ∀ key, (snapshotEntry db.lastProcessed entry).get key = entry.get key := by
    intro entry quiet
    unfold snapshotEntry
    split
    · refine ⟨⟨⟨quiet.ok.emptyData, quiet.ok.emptyLevels, quiet.ok.unloadedData⟩, quiet.idle,
        fun key => ?_, quiet.covered⟩, fun _ => rfl⟩
      exact ⟨(quiet.floored key).live, (quiet.floored key).tombstone⟩
    · exact ⟨quiet, fun _ => rfl⟩
  exact ⟨rfl, rfl, rfl, rfl, rfl, fun ref => (each _ (rest ref)).1, fun ref => (each _ (rest ref)).2⟩

variable (noCompactor : ∀ ks, (db.keySpaces ks).config.compactor = none)

include noCompactor

theorem sameReads_flush {ref : CellReference} (dirty : (db.cells ref).state.isDirty = true)
    (positions : List WalPosition) :
    db.SameReads (db.installFlush ref ((db.cells ref).runFlush (db.keySpaces ref.keyspace).config
      db.lastProcessed db.logView db.indexWriter
      (.flush (db.cells ref).data (db.cells ref).levels (db.cells ref).state.coversL0 positions))) := by
  have quiet := @Entry.Quiescent.runFlush_flush Bytes _ _ (noCompactor ref.keyspace) db.logView _
    (rest ref) dirty db.lastProcessed (le_refl _) db.indexWriter positions
  have reads := fun key => @Entry.get_runFlush_flush Bytes _ _ (noCompactor ref.keyspace) _ dirty
    db.lastProcessed db.logView (le_refl _) db.indexWriter positions key ((rest ref).floored key)
  exact sameReads_installFlush rest quiet reads

theorem sameReads_requestFlushIfBehind (threshold : Nat) (ref : CellReference) :
    db.SameReads (requestFlushIfBehind threshold db ref) := by
  unfold requestFlushIfBehind
  split
  · rename_i kind _ isKind
    split
    · obtain ⟨dirty, rfl⟩ := Entry.flushKind_eq_some isKind
      exact sameReads_flush rest noCompactor dirty []
    · exact SameReads.refl rest
  · exact SameReads.refl rest

theorem sameReads_requestForceRelocate (flagged : WalPosition → Bool) (ref : CellReference) :
    db.SameReads (requestForceRelocate flagged db ref) := by
  unfold requestForceRelocate
  simp only
  split
  · exact SameReads.refl rest
  · rename_i wanted
    generalize isPositions : ((db.cells ref).levels.blobs.map fun blob => blob.position).filter
      flagged = positions at wanted
    cases isKind : (db.cells ref).flushKind positions with
    | some kind =>
        obtain ⟨dirty, rfl⟩ := Entry.flushKind_eq_some isKind
        exact sameReads_flush rest noCompactor dirty positions
    | none =>
        have clean := Entry.flushKind_eq_none isKind
        have nonempty : (db.cells ref).state ≠ .empty := by
          intro isEmpty
          rw [(rest ref).ok.emptyLevels isEmpty] at isPositions
          subst isPositions
          simp [IndexLevels.new, IndexLevels.blobs, DeepLevel.blobs] at wanted
        obtain ⟨quiet, reads⟩ := @Entry.Quiescent.runFlush_forceRelocate Bytes _ _
          (noCompactor ref.keyspace) db.logView _ (rest ref) clean nonempty db.lastProcessed
          db.indexWriter positions
        exact sameReads_installFlush rest quiet reads

end Steps

/-- A pass over cells keeps what each of its steps keeps. -/
theorem sameReads_foldl {step : Db → CellReference → Db}
    (each : ∀ db : Db, (∀ ref, (db.cells ref).Quiescent db.log.minWalPosition) →
      (∀ ks, (db.keySpaces ks).config.compactor = none) → ∀ ref, db.SameReads (step db ref))
    (refs : List CellReference) {db : Db}
    (rest : ∀ ref, (db.cells ref).Quiescent db.log.minWalPosition)
    (noCompactor : ∀ ks, (db.keySpaces ks).config.compactor = none) :
    db.SameReads (refs.foldl step db) := by
  induction refs generalizing db with
  | nil => exact SameReads.refl rest
  | cons ref refs ih =>
      have first := each db rest noCompactor ref
      refine first.trans (ih first.rest fun ks => ?_)
      rw [keySpaces, first.config]
      exact noCompactor ks

theorem sameReads_rebuildControlRegionFrom {db : Db}
    (rest : ∀ ref, (db.cells ref).Quiescent db.log.minWalPosition)
    (noCompactor : ∀ ks, (db.keySpaces ks).config.compactor = none) (threshold : Nat) :
    db.SameReads (db.rebuildControlRegionFrom threshold) := by
  unfold rebuildControlRegionFrom
  have first := sameReads_foldl (fun _ rest noCompactor ref =>
    sameReads_requestFlushIfBehind rest noCompactor threshold ref) db.cellRefs rest noCompactor
  generalize db.cellRefs.foldl (requestFlushIfBehind threshold) db = flushed at first
  have second := first.trans (sameReads_foldl (fun _ rest noCompactor ref =>
    sameReads_requestForceRelocate rest noCompactor db.relocateFiles ref) flushed.cellRefs first.rest
    fun ks => by
      rw [keySpaces, first.config]
      exact noCompactor ks)
  exact second.trans (sameReads_storeSnapshot second.rest)

end Tidehunter.Db
