import Tidehunter.Flusher.Views

/-!
# The result of a flush command

The tables a command goes through: the merged `L0` candidate, its entries below the
frontier, and those that pass the offset filter.
-/

namespace Tidehunter.Flusher

open Library Wal Index

variable {K : Type} [LinearOrder K]

/-- The merged `L0` candidate of a flush as of the frontier it reads. -/
def flushedTable (view : LogView) (dirty : IndexTable K) (levels : IndexLevels K) (loaded : Bool) :
    IndexTable K :=
  (if loaded then dirty else levels.loadL0.mergeDirtyAndClean dirty).retainProcessed
    view.lastProcessed

@[simp]
theorem base_loadL0 (levels : IndexLevels K) (key : K) :
    levels.loadL0.base key = levels.lookupL0 key := by
  unfold IndexLevels.loadL0 IndexLevels.lookupL0
  cases levels.l0 with
  | none => rfl
  | some blob => simp [Blob.load]

@[simp]
theorem data_loadL0 (levels : IndexLevels K) : levels.loadL0.data = SortedMap.empty := by
  unfold IndexLevels.loadL0
  cases levels.l0 <;> rfl

@[simp]
theorem overlay_loadL0 (levels : IndexLevels K) (key : K) : levels.loadL0.overlay key = ∅ :=
  IndexTable.overlay_of_lookup_none (by simp)

@[simp]
theorem get_loadL0 (levels : IndexLevels K) (key : K) :
    levels.loadL0.get key = levels.lookupL0 key := by
  rw [IndexTable.get_of_no_overlay (overlay_loadL0 levels key), base_loadL0]

theorem get_flushedTable (view : LogView) (dirty : IndexTable K) (levels : IndexLevels K)
    (loaded : Bool) (key : K) :
    (flushedTable view dirty levels loaded).get key =
      (dirty.getAt key view.lastProcessed).or (if loaded then none else levels.lookupL0 key) := by
  unfold flushedTable
  rw [IndexTable.get_retainProcessed]
  cases loaded with
  | true => simp
  | false =>
      simp only [Bool.false_eq_true, if_false, IndexTable.mergeDirtyAndClean]
      rw [IndexTable.getAt_mergeDirty (data_loadL0 levels), base_loadL0]

/-- The entry of a key in a flushed table, when the flush covers every write of it. -/
theorem entry_flushedTable {view : LogView} {dirty : IndexTable K} {key : K}
    (below : ∀ mark ∈ dirty.overlay key, mark.offset < view.lastProcessed)
    (levels : IndexLevels K) (loaded : Bool) :
    (flushedTable view dirty levels loaded).entry key =
      if loaded then dirty.entry key
      else ((dirty.entry key).map (IndexTable.demote true)).or (levels.loadL0.flat.lookup key) := by
  unfold flushedTable
  cases loaded with
  | true => exact IndexTable.entry_retainProcessed below
  | false =>
      simp only [Bool.false_eq_true, if_false, IndexTable.mergeDirtyAndClean]
      rw [IndexTable.entry_retainProcessed, IndexTable.entry_mergeDirty (data_loadL0 levels)]
      rw [IndexTable.overlay_mergeDirty (data_loadL0 levels)]
      exact below

/-- What is written of a flushed table once the offset filter ran. -/
def writeFiltered (config : KsConfig K) (view : LogView) (writer : IndexWriter)
    (filtered : IndexTable K) (levels : IndexLevels K) (relocatePositions : List WalPosition) :
    IndexWriter × IndexLevels K :=
  let (writer, written) := writeLevels config view writer false filtered levels
  relocateInLevels config writer written relocatePositions

theorem handleCommand_flush (config : KsConfig K) (view : LogView) (writer : IndexWriter)
    (dirty : IndexTable K) (levels : IndexLevels K) (loaded : Bool)
    (relocatePositions : List WalPosition) :
    handleCommand config view writer (.flush dirty levels loaded relocatePositions) .none =
      let written := writeFiltered config view writer
        ((flushedTable view dirty levels loaded).retainAbovePosition view.minWalPosition)
        levels relocatePositions
      (written.1, some (dirty, written.2)) := rfl

theorem handleCommand_filtered (config : KsConfig K) (view : LogView) (writer : IndexWriter)
    (dirty : IndexTable K) (levels : IndexLevels K) (loaded : Bool)
    (relocatePositions : List WalPosition) (cutoff : Nat) :
    handleCommand config view writer (.flush dirty levels loaded relocatePositions)
        (.cutoff cutoff) =
      match filterByOffset view.minWalPosition (flushedTable view dirty levels loaded)
        (.cutoff cutoff) with
      | none => (writer, none)
      | some table =>
          let written := writeFiltered config view writer table levels relocatePositions
          (written.1, some (dirty, written.2)) := rfl

theorem handleCommand_cutoff (config : KsConfig K) (view : LogView) (writer : IndexWriter)
    (dirty : IndexTable K) (levels : IndexLevels K) (loaded : Bool)
    (relocatePositions : List WalPosition) (cutoff : Nat) :
    handleCommand config view writer (.flush dirty levels loaded relocatePositions)
        (.cutoff cutoff) =
      let flushed := flushedTable view dirty levels loaded
      if (flushed.retainAbovePosition cutoff).len = flushed.len then (writer, none)
      else
        let written := writeFiltered config view writer (flushed.retainAbovePosition cutoff)
          levels relocatePositions
        (written.1, some (dirty, written.2)) := by
  rw [handleCommand_filtered, filterByOffset]
  by_cases same : ((flushedTable view dirty levels loaded).retainAbovePosition cutoff).len =
      (flushedTable view dirty levels loaded).len
  · simp only [if_pos same]
  · simp only [if_neg same]

theorem view_writeFiltered (config : KsConfig K) (view : LogView) (writer : IndexWriter)
    (filtered : IndexTable K) (levels : IndexLevels K) (relocatePositions : List WalPosition)
    (key : K) :
    (writeFiltered config view writer filtered levels relocatePositions).2.view key =
      match deepestTable config view filtered false levels.deep key with
      | some table => if retained config table key then readable (table.get key) else none
      | none => readable (((runCompactor config filtered).get key).or (levels.deep.lookup key)) := by
  rw [writeFiltered]
  exact (view_relocateInLevels config _ _ relocatePositions key).trans
    (view_writeLevels config view filtered writer false levels key)

/-- Below `L0` a key reads as before the flush, or as the whole of the new levels does. -/
theorem deep_writeFiltered (config : KsConfig K) (view : LogView) (writer : IndexWriter)
    (filtered : IndexTable K) (levels : IndexLevels K) (relocatePositions : List WalPosition)
    (key : K) :
    (writeFiltered config view writer filtered levels relocatePositions).2.deep.view key =
        (writeFiltered config view writer filtered levels relocatePositions).2.view key ∨
      (writeFiltered config view writer filtered levels relocatePositions).2.deep.view key =
        levels.deep.view key := by
  have moved := deep_relocateInLevels config
    (writeLevels config view writer false filtered levels).1
    (writeLevels config view writer false filtered levels).2 relocatePositions key
  have whole := view_relocateInLevels config
    (writeLevels config view writer false filtered levels).1
    (writeLevels config view writer false filtered levels).2 relocatePositions key
  simp only [writeFiltered]
  rw [moved.1, whole]
  rcases deep_writeLevels config view filtered writer false levels with noL0 | same
  · left
    rw [IndexLevels.view, IndexLevels.lookup, IndexLevels.lookupL0, noL0]
    rfl
  · right
    rw [same]

end Tidehunter.Flusher
