import Tidehunter.Db.State

/-!
# Replay and reopening

Replay reads the log from the stored position on and gathers the writes of each cell.
The frames of a batch are applied as they come; if the log ends inside a batch, what
was gathered from its start on is dropped and the log is cut there. Relocated records
are skipped: only the index names them. A drop of cells clears them in the table and
takes back what was gathered for them.
-/

namespace Tidehunter.Db

open Library Wal Index Flusher LargeTable

/-! ## Gathering writes -/

/-- A write gathered for a cell. -/
structure ReplayedWrite where
  ref : CellReference
  key : Bytes
  position : IndexWalPosition
  deriving DecidableEq, Repr

/-- A dropped range of cells, both ends included. -/
structure DroppedCells where
  keyspace : Nat
  fromCell : Nat
  toCell : Nat
  deriving DecidableEq, Repr

def DroppedCells.covers (range : DroppedCells) (ref : CellReference) : Bool :=
  ref.keyspace = range.keyspace && decide (range.fromCell ≤ ref.cell) &&
    decide (ref.cell ≤ range.toCell)

/-- Replay so far: the writes in log order, the open batch, if any, and the ranges of
cells cleared in the table. -/
structure Replay where
  buffer : List ReplayedWrite
  batchRemaining : Nat
  batchStartPosition : Option Nat
  dropped : List DroppedCells
  deriving DecidableEq, Repr

def Replay.new : Replay := ⟨[], 0, none, []⟩

/-- Clear a range of cells in the table, and what was gathered for them. -/
def Replay.dropCellsInRange (replay : Replay) (range : DroppedCells) : Replay :=
  { replay with
    buffer := replay.buffer.filter fun write => !range.covers write.ref
    dropped := replay.dropped ++ [range] }

/-- Route an operation to its cell; none is the panic of a key that cannot be reduced. -/
def routeWrite (config : Config) (ks : Nat) (key : Bytes) (position : IndexWalPosition) :
    Option ReplayedWrite :=
  ((config.keySpaces ks).reduceKey key).map fun reducedKey =>
    ⟨⟨ks, (config.keySpaces ks).cellId reducedKey⟩, reducedKey, position⟩

/-- The writes of one frame. -/
def frameWrites (config : Config) (position : WalPosition) : WalEntry → Option (List ReplayedWrite)
  | .record ks key _ relocated =>
      if relocated then some []
      else (routeWrite config ks key (.newModified position)).map fun write => [write]
  | .remove ks key => (routeWrite config ks key (.newRemoved position)).map fun write => [write]
  | .batchStart _ => some []
  | .compressedBatch inner _ =>
      inner.mapM fun op =>
        routeWrite config op.ks op.key
          (if op.value.isSome then .newModified position else .newRemoved position)
  | .dropCells _ _ _ _ => some []

/-- Replay one frame; none is a panic. -/
def Replay.step (config : Config) (replay : Replay) (offset : Nat) (entry : WalEntry) :
    Option Replay :=
  let writes := frameWrites config (WalPosition.ofEntry offset entry) entry
  if 0 < replay.batchRemaining then
    match entry with
    | .batchStart _ => none
    | .compressedBatch _ _ => none
    | .dropCells _ _ _ _ => none
    | .record _ _ _ _ | .remove _ _ =>
        writes.map fun writes =>
          { replay with
            buffer := replay.buffer ++ writes
            batchRemaining := replay.batchRemaining - 1
            batchStartPosition :=
              if replay.batchRemaining = 1 then none else replay.batchStartPosition }
  else
    match entry with
    | .batchStart count =>
        if count = 0 then none
        else some { replay with batchRemaining := count, batchStartPosition := some offset }
    | .dropCells ks fromCell toCell _ => some (replay.dropCellsInRange ⟨ks, fromCell, toCell⟩)
    | .record _ _ _ _ | .remove _ _ | .compressedBatch _ _ =>
        writes.map fun writes => { replay with buffer := replay.buffer ++ writes }

/-- Replay frames in order. -/
def Replay.run (config : Config) : List (Nat × WalEntry) → Replay → Option Replay
  | [], replay => some replay
  | (offset, entry) :: rest, replay =>
      match replay.step config offset entry with
      | none => none
      | some replay => run config rest replay

/-! ## Reopening -/

/-- The writes gathered for one cell. -/
def Replay.cellBuffer (replay : Replay) (ref : CellReference) : List (Bytes × IndexWalPosition) :=
  (replay.buffer.filter fun write => write.ref = ref).map fun write => (write.key, write.position)

/-- A cell of the table before the gathered writes are applied. -/
def Replay.tableEntry (replay : Replay) (controlRegion : ControlRegion) (ref : CellReference) :
    Entry Bytes :=
  if replay.dropped.any fun range => range.covers ref then Entry.new
  else Entry.fromSnapshotData (controlRegion.levels ref) (controlRegion.lastProcessed ref)

/-- A cell after replay. -/
def Replay.entry (replay : Replay) (controlRegion : ControlRegion) (ref : CellReference) :
    Entry Bytes :=
  (replay.tableEntry controlRegion ref).applyReplayBuffer (replay.cellBuffer ref)
    replay.batchStartPosition

/-- The frames replay reads. -/
def replayFrames (log : Log) (from_ : Nat) : List (Nat × WalEntry) :=
  log.frames.entries.filter fun frame => from_ ≤ frame.1

/-- Reopen from the stored control region; none is a panic. -/
def reopen (db : Db) : Option Db :=
  (Replay.run db.config (replayFrames db.log db.controlRegion.lastPosition) Replay.new).map
    fun replay =>
      let log := match replay.batchStartPosition with
        | some start => db.log.cut start
        | none => db.log
      { db with
        cells := replay.entry db.controlRegion
        log := log
        latch := none
        lastProcessed := log.position }

/-! ## Replay of a grown log -/

/-- A batch is open exactly while its start is remembered. -/
def Replay.Consistent (replay : Replay) : Prop :=
  replay.batchRemaining = 0 ↔ replay.batchStartPosition = none

theorem Replay.Consistent.step {config : Config} {replay next : Replay} {offset : Nat}
    {entry : WalEntry} (consistent : replay.Consistent)
    (stepped : replay.step config offset entry = some next) : next.Consistent := by
  unfold Replay.step at stepped
  simp only at stepped
  have counted : ∀ writes : Option (List ReplayedWrite), 0 < replay.batchRemaining →
      (writes.map fun writes =>
        ({ replay with
           buffer := replay.buffer ++ writes
           batchRemaining := replay.batchRemaining - 1
           batchStartPosition :=
            if replay.batchRemaining = 1 then none else replay.batchStartPosition } : Replay)) =
        some next → next.Consistent := by
    intro writes inside mapped
    obtain ⟨_, _, rfl⟩ := Option.map_eq_some_iff.mp mapped
    unfold Replay.Consistent at consistent ⊢
    simp only
    split
    · simp only [iff_true]
      omega
    · rw [← consistent]
      omega
  have kept : ∀ writes : Option (List ReplayedWrite),
      (writes.map fun writes => ({ replay with buffer := replay.buffer ++ writes } : Replay)) =
        some next → next.Consistent := by
    intro writes mapped
    obtain ⟨_, _, rfl⟩ := Option.map_eq_some_iff.mp mapped
    exact consistent
  split at stepped
  · rename_i inside
    cases entry with
    | record _ _ _ _ => exact counted _ inside stepped
    | remove _ _ => exact counted _ inside stepped
    | batchStart _ => cases stepped
    | compressedBatch _ _ => cases stepped
    | dropCells _ _ _ _ => cases stepped
  · cases entry with
    | record _ _ _ _ => exact kept _ stepped
    | remove _ _ => exact kept _ stepped
    | compressedBatch _ _ => exact kept _ stepped
    | dropCells _ _ _ _ =>
        cases stepped
        exact consistent
    | batchStart count =>
        simp only at stepped
        split at stepped
        · cases stepped
        · rename_i positive
          cases stepped
          simp [Replay.Consistent, positive]

theorem Replay.Consistent.run {config : Config} {frames : List (Nat × WalEntry)}
    {replay final : Replay} (consistent : replay.Consistent)
    (ran : Replay.run config frames replay = some final) : final.Consistent := by
  induction frames generalizing replay with
  | nil =>
      cases ran
      exact consistent
  | cons frame rest ih =>
      obtain ⟨offset, entry⟩ := frame
      rw [Replay.run] at ran
      split at ran
      · cases ran
      · rename_i next stepped
        exact ih (consistent.step stepped) ran

theorem Replay.run_append (config : Config) (first second : List (Nat × WalEntry))
    (replay : Replay) :
    Replay.run config (first ++ second) replay =
      (Replay.run config first replay).bind (Replay.run config second) := by
  induction first generalizing replay with
  | nil => rfl
  | cons frame rest ih =>
      obtain ⟨offset, entry⟩ := frame
      rw [List.cons_append, Replay.run, Replay.run]
      cases replay.step config offset entry with
      | none => rfl
      | some next => exact ih next

/-- Outside a batch, relocated records leave no trace in replay. -/
theorem Replay.run_copies {config : Config} {frames : List (Nat × WalEntry)} {replay : Replay}
    (copies : ∀ frame ∈ frames, ∃ ks key value, frame.2 = .record ks key value true)
    (closed : replay.batchRemaining = 0) : Replay.run config frames replay = some replay := by
  induction frames with
  | nil => rfl
  | cons frame rest ih =>
      obtain ⟨ks, key, value, isCopy⟩ := copies frame List.mem_cons_self
      obtain ⟨offset, entry⟩ := frame
      subst isCopy
      have skipped : replay.step config offset (.record ks key value true) = some replay := by
        obtain ⟨buffer, remaining, start, dropped⟩ := replay
        obtain rfl : remaining = 0 := closed
        simp [Replay.step, frameWrites]
      rw [Replay.run, skipped]
      exact ih fun frame member => copies frame (List.mem_cons_of_mem _ member)

end Tidehunter.Db
