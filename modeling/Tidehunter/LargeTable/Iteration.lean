import Tidehunter.KeyShape.Cells
import Tidehunter.LargeTable.Cell
import Tidehunter.LargeTable.Walk

/-!
# Iteration over the cells of a key space

An iterator walks a cell to its end and hops to the next one, in either direction. Before it
walks a cell it applies the committed batch operations, and loads the cell unless it reads
blobs in place. The table is at rest while it is iterated: preparing a cell again changes
nothing.
-/

namespace Tidehunter.LargeTable

open Library Wal Index KeyShape

/-! ## Index formats -/

/-- The format of the index blobs of a key space, with the size of its index keys. Keys of
variable length need the header format. A window of the uniform format holds at least an entry
on either side. -/
inductive IndexFormatType where
  | header (keySize : Option Nat)
  | uniform (keySize windowSize : Nat) (two_le : 2 ≤ windowSize)

namespace IndexFormatType

def walPositionLength : Nat := 12

def format (shape : CellShape) : IndexFormatType → IndexFormat Bytes
  | header none => (LookupHeaderIndex.varlen shape.keyMicroCell).format
  | header (some _) => (LookupHeaderIndex.fixed shape.keyMicroCell).format
  | uniform keySize windowSize two_le =>
      UniformLookupIndex.format ⟨keySize + walPositionLength, windowSize, shape.prefixPos,
        shape.cellWidth, Nat.succ_pos _, two_le⟩

/-- Each format can search among the keys of a cell. -/
theorem orders (shape : CellShape) (type : IndexFormatType) (cell : CellId) :
    (type.format shape).Orders fun key => shape.cellId key = some cell := by
  cases type with
  | header keySize =>
      cases keySize with
      | none => exact CellShape.orders_cell cell rfl
      | some _ => exact CellShape.orders_cell cell rfl
  | uniform keySize windowSize two_le => trivial

end IndexFormatType

/-! ## The table of a key space -/

/-- A cell and what its value cache answers once the committed operations are applied. -/
structure Slot (blooms : BloomFilter Bytes) where
  cell : Cell Bytes blooms
  cached : Bytes → Option (Bytes × Bytes)

structure KsTable (blooms : BloomFilter Bytes) where
  shape : CellShape
  indexFormat : IndexFormatType
  /-- Iterators read blobs in place. -/
  unloadedIterator : Bool
  /-- The cells of a prefixed key space that were ever created. -/
  cellIndex : SortedMap CellId Unit
  entries : SortedMap CellId (Slot blooms)
  frontier : Nat
  status : Nat → TransactionStatus

inductive GetResult where
  | value (key value : Bytes)
  | walPosition (position : WalPosition)
  | notFound
  deriving DecidableEq, Repr

namespace KsTable

variable {blooms : BloomFilter Bytes} (table : KsTable blooms)

abbrev format : IndexFormat Bytes := table.indexFormat.format table.shape

/-- The cell once the committed operations are applied. None is a panic. -/
def promoted (slot : Slot blooms) : Option (Cell Bytes blooms) :=
  slot.cell.promotePending table.frontier table.status

/-! ## Reads -/

def getIn (slot : Slot blooms) (key : Bytes) (cell : Cell Bytes blooms) : GetResult :=
  match slot.cached key with
  | some (fullKey, value) => .value fullKey value
  | none =>
      if cell.bloomFilterNotFound key then .notFound
      else
        match cell.entry.getUnloaded table.format.readBack key with
        | some position => .walPosition position
        | none => .notFound

/-- The position of a key, or its record from the value cache. None is a panic. -/
def get (key : Bytes) : Option GetResult :=
  (table.shape.cellId key).bind fun cell =>
    match table.entries.lookup cell with
    | none => some .notFound
    | some slot => (table.promoted slot).map (table.getIn slot key)

/-- The value cache serves a checkpoint when the key was not written since. -/
def servedAt (slot : Slot blooms) (key : Bytes) (lastProcessed : Nat) (cell : Cell Bytes blooms) :
    Option (Bytes × Bytes) :=
  match cell.entry.data.getAt key lastProcessed with
  | some asOf => if cell.entry.data.get key = some asOf then slot.cached key else none
  | none => none

def getCheckpointIn (slot : Slot blooms) (key : Bytes) (lastProcessed : Nat)
    (cell : Cell Bytes blooms) : GetResult :=
  if cell.bloomFilterNotFound key then .notFound
  else
    match cell.entry.getAtUnloaded table.format.readBack key lastProcessed with
    | some position =>
        match servedAt slot key lastProcessed cell with
        | some (fullKey, value) => .value fullKey value
        | none => .walPosition position
    | none => .notFound

def getCheckpoint (key : Bytes) (lastProcessed : Nat) : Option GetResult :=
  (table.shape.cellId key).bind fun cell =>
    match table.entries.lookup cell with
    | none => some .notFound
    | some slot => (table.promoted slot).map (table.getCheckpointIn slot key lastProcessed)

/-- What a reader gets, as of a frontier for a checkpoint. -/
def reads : Option Nat → Bytes → Option GetResult
  | none, key => table.get key
  | some lastProcessed, key => table.getCheckpoint key lastProcessed

/-- A reader finds the key. -/
def Present (lastProcessed : Option Nat) (key : Bytes) : Prop :=
  ∃ result, table.reads lastProcessed key = some result ∧ result ≠ .notFound

/-! ## Iteration -/

/-- The next cell in a direction. Cells of a prefixed key space are known once created. -/
def nextCell (cell : CellId) (direction : Direction) : Option CellId :=
  match table.shape.keyType, cell with
  | .uniform config, .integer cell =>
      (nextBounded cell (table.shape.numCells config) direction).map .integer
  | .prefixedUniform _, .bytes cell =>
      (table.cellIndex.next direction (some (.bytes cell))).map Prod.fst
  | .uniform _, .bytes _ => none
  | .prefixedUniform _, .integer _ => none

/-- The entry an iterator walks. -/
def prepareCell (slot : Slot blooms) : Option (Entry Bytes) :=
  (table.promoted slot).map fun promoted =>
    if table.unloadedIterator then promoted.entry else promoted.entry.maybeLoad

/-- Walk one cell. None is a panic. -/
def walkCell (lastProcessed : Option Nat) (direction : Direction) (cell : CellId)
    (prev : Option Bytes) (caches : IterCaches table.format) :
    Option (WalkOutcome Bytes × IterCaches table.format) :=
  match table.entries.lookup cell with
  | none => some (.exhausted, caches)
  | some slot =>
      (table.prepareCell slot).map fun entry =>
        entry.walk table.format lastProcessed direction prev caches

/-- The next entry at or behind a cell. -/
def nextEntryFrom (lastProcessed : Option Nat) (endCellExclusive : Option CellId)
    (direction : Direction) :
    Nat → CellId → Option Bytes → IterCaches table.format →
      Option (Option (CellId × Bytes × WalPosition) × IterCaches table.format)
  | 0, _, _, caches => some (none, caches)
  | fuel + 1, cell, prev, caches =>
      match table.walkCell lastProcessed direction cell prev caches with
      | none => none
      | some (.found key position, caches) => some (some (cell, key, position), caches)
      | some (.skipDeleted key, caches) =>
          nextEntryFrom lastProcessed endCellExclusive direction fuel cell (some key) caches
      | some (.exhausted, _) =>
          match table.nextCell cell direction with
          | none => some (none, IterCaches.clear)
          | some next =>
              if endCellExclusive.any fun stop => !decide (direction.Before next stop) then
                some (none, IterCaches.clear)
              else
                nextEntryFrom lastProcessed endCellExclusive direction fuel next none
                  IterCaches.clear

/-- The cells an iterator can come through. -/
def cellIds : List CellId :=
  match table.shape.keyType with
  | .uniform config => (List.range (table.shape.numCells config)).map .integer
  | .prefixedUniform _ => table.cellIndex.keys

/-- The entry an iterator walks in a cell. -/
def entryAt (cell : CellId) : Option (Entry Bytes) :=
  (table.entries.lookup cell).bind table.prepareCell

def keysAt (cell : CellId) : List Bytes :=
  match table.entryAt cell with
  | some entry => entry.keys
  | none => []

/-- More steps than the iterator can take: a hop for every cell and a step for every key. -/
def steps : Nat := (table.cellIds.map fun cell => (table.keysAt cell).length + 1).sum + 1

def nextEntry (lastProcessed : Option Nat) (endCellExclusive : Option CellId)
    (direction : Direction) (cell : CellId) (prev : Option Bytes)
    (caches : IterCaches table.format) :
    Option (Option (CellId × Bytes × WalPosition) × IterCaches table.format) :=
  table.nextEntryFrom lastProcessed endCellExclusive direction table.steps cell prev caches

def startCell : Direction → CellId
  | .forward => table.shape.firstCell
  | .backward => table.shape.lastCell

/-! ## Tables at rest -/

/-- A cell at rest: its entry is well formed and has the keys of the cell only, and its filter
lets every key with a readable entry pass. -/
structure CellOk (cell : CellId) (promoted : Cell Bytes blooms) : Prop where
  walkOk : promoted.entry.WalkOk
  routed : ∀ key ∈ promoted.entry.keys, table.shape.cellId key = some cell
  filtered : ∀ lastProcessed key, promoted.entry.view id lastProcessed key ≠ none →
    promoted.bloomFilterNotFound key = false

structure Ok : Prop where
  created : ∀ cell slot, table.entries.lookup cell = some slot → cell ∈ table.cellIds
  rests : ∀ cell slot, table.entries.lookup cell = some slot →
    ∃ promoted, table.promoted slot = some promoted ∧ table.CellOk cell promoted
  kinds : ∀ cell ∈ table.cellIndex.keys, ∃ bytes, cell = .bytes bytes

/-- An id of the kind the key space has. -/
def Holds (cell : CellId) : Prop :=
  match table.shape.keyType, cell with
  | .uniform config, .integer cell => cell < table.shape.numCells config
  | .prefixedUniform _, .bytes _ => True
  | .uniform _, .bytes _ => False
  | .prefixedUniform _, .integer _ => False

/-- What an iterator sees in a cell. -/
def cellView (lastProcessed : Option Nat) (cell : CellId) (key : Bytes) : Option WalPosition :=
  (table.entryAt cell).bind fun entry => entry.view table.format.readBack lastProcessed key

/-- What an iterator sees. -/
def view (lastProcessed : Option Nat) (key : Bytes) : Option WalPosition :=
  (table.shape.cellId key).bind fun cell => table.cellView lastProcessed cell key

/-- What the index has stored. -/
def stored (lastProcessed : Option Nat) (key : Bytes) : Option WalPosition :=
  (table.shape.cellId key).bind fun cell => (table.entries.lookup cell).bind fun slot =>
    (table.promoted slot).bind fun promoted => promoted.entry.view id lastProcessed key

/-- The kept parts of blobs are parts of the blobs of the cell. -/
def FitAt (cell : CellId) (caches : IterCaches table.format) : Prop :=
  ∀ entry, table.entryAt cell = some entry → CachesFit entry.levels.blobs caches

/-- A key is ahead in the cell the iterator is in, or in a cell in front of the end cell. -/
def Ahead (direction : Direction) (endCellExclusive : Option CellId) (cell : CellId)
    (prev : Option Bytes) (key : Bytes) : Prop :=
  ∃ other, table.shape.cellId key = some other ∧
    (other = cell ∧ direction.Past prev key ∨
      direction.Before cell other ∧ ∀ stop, endCellExclusive = some stop →
        direction.Before other stop)

variable {table} {cell : CellId} {key : Bytes} {lastProcessed : Option Nat} {direction : Direction}
  {prev : Option Bytes}

theorem entryAt_ok (ok : table.Ok) {entry : Entry Bytes} (here : table.entryAt cell = some entry) :
    entry.WalkOk ∧ ∀ key ∈ entry.keys, table.shape.cellId key = some cell := by
  obtain ⟨slot, held, prepared⟩ := Option.bind_eq_some_iff.mp here
  obtain ⟨promoted, isPromoted, cellOk⟩ := ok.rests cell slot held
  simp only [prepareCell, isPromoted, Option.map_some, Option.some.injEq] at prepared
  subst prepared
  split
  · exact ⟨cellOk.walkOk, cellOk.routed⟩
  · exact ⟨Entry.walkOk_maybeLoad cellOk.walkOk, fun key member =>
      cellOk.routed key (Entry.mem_keys_of_mem_maybeLoad member)⟩

/-- An iterator sees what is stored, or takes a tombstone of a key of variable length for a
position. -/
theorem view_eq_or (ok : table.Ok) (lastProcessed : Option Nat) (key : Bytes) :
    table.view lastProcessed key = table.stored lastProcessed key ∨
      table.view lastProcessed key = some (table.format.readBack WalPosition.invalid) ∧
        table.stored lastProcessed key = none := by
  unfold view stored cellView entryAt
  cases table.shape.cellId key with
  | none => exact Or.inl rfl
  | some cell =>
      rw [Option.bind_some, Option.bind_some]
      cases held : table.entries.lookup cell with
      | none => exact Or.inl rfl
      | some slot =>
          obtain ⟨promoted, isPromoted, cellOk⟩ := ok.rests cell slot held
          simp only [Option.bind_some, prepareCell, isPromoted, Option.map_some]
          split
          · exact Entry.view_eq_or table.format.readBack_of_valid cellOk.walkOk.ok lastProcessed key
          · have same : promoted.entry.maybeLoad.view id lastProcessed key =
                promoted.entry.view id lastProcessed key :=
              (Entry.view_maybeLoad (fun _ _ => rfl) cellOk.walkOk.ok lastProcessed key).mpr
                fun misread => misread.2.2.2 rfl
            rw [← same]
            exact Entry.view_eq_or table.format.readBack_of_valid
              (Entry.walkOk_maybeLoad cellOk.walkOk).ok lastProcessed key

theorem keysAt_of_cellView (ok : table.Ok) (shown : table.cellView lastProcessed cell key ≠ none) :
    key ∈ table.keysAt cell := by
  obtain ⟨position, found⟩ := Option.ne_none_iff_exists'.mp shown
  obtain ⟨entry, here, seen⟩ := Option.bind_eq_some_iff.mp found
  rw [keysAt, here]
  exact Entry.mem_keys_of_view (entryAt_ok ok here).1.ok (seen ▸ Option.some_ne_none position)

theorem cellId_of_mem_keysAt (ok : table.Ok) (member : key ∈ table.keysAt cell) :
    table.shape.cellId key = some cell := by
  unfold keysAt at member
  split at member
  · rename_i entry here
    exact (entryAt_ok ok here).2 key member
  · exact absurd member List.not_mem_nil

theorem mem_cellIds_of_view (ok : table.Ok) (ofKey : table.shape.cellId key = some cell)
    (shown : table.view lastProcessed key ≠ none) : cell ∈ table.cellIds := by
  rw [view, ofKey, Option.bind_some, cellView, entryAt] at shown
  cases held : table.entries.lookup cell with
  | none => simp [held] at shown
  | some slot => exact ok.created cell slot held

/-! ## Hops -/

/-- A hop leaves no cell out. -/
def HopsTo (direction : Direction) (cells : List CellId) (cell : CellId) : Option CellId → Prop
  | none => ∀ other ∈ cells, ¬direction.Before cell other
  | some next => next ∈ cells ∧ direction.Before cell next ∧
      ∀ other ∈ cells, direction.Before cell other → ¬direction.Before other next

/-- A hop among the cells of a uniform key space. -/
theorem hopsTo_nextBounded {number count : Nat} (holds : number < count) (direction : Direction) :
    HopsTo direction ((List.range count).map .integer) (.integer number)
      ((nextBounded number count direction).map .integer) := by
  cases step : nextBounded number count direction with
  | none =>
      intro other member past
      obtain ⟨otherNumber, within, rfl⟩ := List.mem_map.mp member
      rw [List.mem_range] at within
      rcases LookupHeaderIndex.nextBounded_eq_none step with ⟨rfl, atEnd⟩ | ⟨rfl, atStart⟩
      · have behind : number < otherNumber := CellId.integer_lt_integer.mp past
        omega
      · have behind : otherNumber < number := CellId.integer_lt_integer.mp past
        omega
  | some next =>
      have known : ∀ number, number < count →
          CellId.integer number ∈ (List.range count).map CellId.integer := fun number within =>
        List.mem_map_of_mem (List.mem_range.mpr within)
      rcases LookupHeaderIndex.nextBounded_eq_some step with ⟨rfl, rfl, within⟩ | ⟨rfl, rfl⟩
      · refine ⟨known _ within, CellId.integer_lt_integer.mpr (Nat.lt_succ_self number),
          fun other member past before => ?_⟩
        obtain ⟨otherNumber, -, rfl⟩ := List.mem_map.mp member
        have behind : number < otherNumber := CellId.integer_lt_integer.mp past
        have front : otherNumber < number + 1 := CellId.integer_lt_integer.mp before
        omega
      · refine ⟨known _ (Nat.lt_of_succ_lt holds),
          CellId.integer_lt_integer.mpr (Nat.lt_succ_self next),
          fun other member past before => ?_⟩
        obtain ⟨otherNumber, -, rfl⟩ := List.mem_map.mp member
        have behind : otherNumber < next + 1 := CellId.integer_lt_integer.mp past
        have front : next < otherNumber := CellId.integer_lt_integer.mp before
        omega

/-- A hop among the created cells of a prefixed key space. -/
theorem hopsTo_next (index : SortedMap CellId Unit) (cell : CellId) (direction : Direction) :
    HopsTo direction index.keys cell ((index.next direction (some cell)).map Prod.fst) := by
  have step := index.nextIn_next direction (some cell)
  cases hop : index.next direction (some cell) with
  | none =>
      intro other member past
      obtain ⟨value, held⟩ := SortedMap.mem_keys_iff.mp member
      rw [hop] at step
      cases (step other past).symm.trans held
  | some next =>
      rw [hop] at step
      obtain ⟨past, held, first⟩ := step
      refine ⟨SortedMap.mem_keys_iff.mpr ⟨_, held⟩, past, fun other member before front => ?_⟩
      obtain ⟨value, otherHeld⟩ := SortedMap.mem_keys_iff.mp member
      cases (first other before front).symm.trans otherHeld

theorem hopsTo_nextCell (holds : table.Holds cell) (direction : Direction) :
    HopsTo direction table.cellIds cell (table.nextCell cell direction) := by
  cases type : table.shape.keyType with
  | uniform config =>
      cases cell with
      | integer number =>
          simp only [Holds, type] at holds
          simp only [nextCell, cellIds, type]
          exact hopsTo_nextBounded holds direction
      | bytes _ => simp only [Holds, type] at holds
  | prefixedUniform config =>
      cases cell with
      | integer _ => simp only [Holds, type] at holds
      | bytes bytes =>
          simp only [nextCell, cellIds, type]
          exact hopsTo_next table.cellIndex (.bytes bytes) direction

theorem holds_of_mem_cellIds (ok : table.Ok) (member : cell ∈ table.cellIds) :
    table.Holds cell := by
  cases type : table.shape.keyType with
  | uniform config =>
      simp only [cellIds, type, List.mem_map, List.mem_range] at member
      obtain ⟨number, within, rfl⟩ := member
      simpa only [Holds, type] using within
  | prefixedUniform config =>
      simp only [cellIds, type] at member
      obtain ⟨bytes, rfl⟩ := ok.kinds cell member
      simp only [Holds, type]

theorem holds_of_cellId (ofKey : table.shape.cellId key = some cell) : table.Holds cell := by
  cases type : table.shape.keyType with
  | uniform config =>
      rw [CellShape.cellId_uniform type] at ofKey
      rw [← Option.some.inj ofKey]
      simp only [Holds, type]
      exact rescaleU32_lt (startingU32_lt key) (CellShape.numCells_pos config)
  | prefixedUniform config =>
      obtain ⟨last, -, rfl⟩ := CellShape.cellId_prefixed type ofKey
      simp only [Holds, type]

theorem holds_startCell (table : KsTable blooms) (direction : Direction) :
    table.Holds (table.startCell direction) := by
  have pos := fun config => @CellShape.numCells_pos table.shape config
  cases direction with
  | forward =>
      cases type : table.shape.keyType with
      | uniform config => simpa only [Holds, startCell, CellShape.firstCell, type] using pos config
      | prefixedUniform config => simp only [Holds, startCell, CellShape.firstCell, type]
  | backward =>
      cases type : table.shape.keyType with
      | uniform config =>
          simpa only [Holds, startCell, CellShape.lastCell, type] using
            Nat.sub_lt (pos config) Nat.one_pos
      | prefixedUniform config => simp only [Holds, startCell, CellShape.lastCell, type]

/-! ## Steps -/

/-- What one walk of a cell gives. -/
theorem walkCell_spec (ok : table.Ok) (behind : ∀ key, prev = some key →
    table.shape.cellId key = some cell) {caches : IterCaches table.format}
    (fit : table.FitAt cell caches) :
    ∃ outcome kept, table.walkCell lastProcessed direction cell prev caches = some (outcome, kept) ∧
      WalkRight direction prev (table.cellView lastProcessed cell) outcome ∧
      table.FitAt cell kept ∧ ∀ key, outcome = .skipDeleted key → key ∈ table.keysAt cell := by
  unfold walkCell
  cases held : table.entries.lookup cell with
  | none =>
      refine ⟨_, _, rfl, fun key _ => ?_, fit, nofun⟩
      rw [cellView, entryAt, held]
      rfl
  | some slot =>
      obtain ⟨promoted, isPromoted, -⟩ := ok.rests cell slot held
      obtain ⟨entry, prepared⟩ : ∃ entry, table.prepareCell slot = some entry := by
        rw [prepareCell, isPromoted]
        exact ⟨_, rfl⟩
      have here : table.entryAt cell = some entry := by
        rw [entryAt, held]
        exact prepared
      obtain ⟨walkOk, routed⟩ := entryAt_ok ok here
      obtain ⟨right, kept, skipped⟩ := Entry.walk_right walkOk
        (table.indexFormat.orders table.shape cell) routed behind lastProcessed (fit entry here)
      refine ⟨(entry.walk table.format lastProcessed direction prev caches).1, _,
        congrArg (Option.map _) prepared, ?_, fun other same => ?_, fun key skip => ?_⟩
      · have seen : table.cellView lastProcessed cell =
            entry.view table.format.readBack lastProcessed := by
          funext key
          rw [cellView, here, Option.bind_some]
        rw [seen]
        exact right
      · rw [Option.some.inj (same.symm.trans here)]
        exact kept
      · rw [keysAt, here]
        exact skipped key skip

/-- The weight of what lies ahead of an iterator: it bounds the steps left. -/
def stepsLeft (table : KsTable blooms) (direction : Direction) (cell : CellId)
    (prev : Option Bytes) : Nat :=
  ((table.cellIds.filter fun other => direction.Past (some cell) other).map fun other =>
    (table.keysAt other).length + 1).sum +
      (table.keysAt cell).countP (fun key => direction.Past prev key) + 1

theorem stepsLeft_le_steps (ok : table.Ok) (direction : Direction) (cell : CellId)
    (prev : Option Bytes) : table.stepsLeft direction cell prev ≤ table.steps := by
  unfold stepsLeft steps
  have count : (table.keysAt cell).countP (fun key => direction.Past prev key) ≤
      (table.keysAt cell).length := List.countP_le_length
  by_cases member : cell ∈ table.cellIds
  · have lighter := sum_past_add_le (fun other => (table.keysAt other).length + 1) member
      (show direction.Past none cell from trivial)
    have whole : (table.cellIds.filter fun other => decide (direction.Past none other)) =
        table.cellIds := List.filter_eq_self.mpr fun other _ => decide_eq_true trivial
    rw [whole] at lighter
    omega
  · have nothing : table.keysAt cell = [] := by
      rw [keysAt, entryAt]
      cases held : table.entries.lookup cell with
      | none => rfl
      | some slot => exact absurd (ok.created cell slot held) member
    have part := ((List.filter_sublist (p := fun other => decide (direction.Past (some cell) other))
      (l := table.cellIds)).map fun other => (table.keysAt other).length + 1).sum_le_sum
        fun _ _ => Nat.zero_le _
    rw [nothing] at count ⊢
    simp only [List.length_nil] at count
    omega

theorem stepsLeft_skip {skipped : Bytes} (member : skipped ∈ table.keysAt cell)
    (past : direction.Past prev skipped) :
    table.stepsLeft direction cell (some skipped) < table.stepsLeft direction cell prev := by
  have fewer := countP_past_lt member past
  unfold stepsLeft
  omega

theorem stepsLeft_hop {next : CellId} (member : next ∈ table.cellIds)
    (before : direction.Before cell next) :
    table.stepsLeft direction next none < table.stepsLeft direction cell prev := by
  have lighter := sum_past_add_le (fun other => (table.keysAt other).length + 1) member
    (show direction.Past (some cell) next from before)
  have count : (table.keysAt next).countP (fun key => direction.Past none key) ≤
      (table.keysAt next).length := List.countP_le_length
  unfold stepsLeft
  omega

/-! ## The next entry -/

variable {endCellExclusive : Option CellId}

theorem view_of_cellId (ofKey : table.shape.cellId key = some cell) :
    table.view lastProcessed key = table.cellView lastProcessed cell key := by
  rw [view, ofKey, Option.bind_some]

/-- A key in front of another is not in a cell behind. -/
theorem not_before_of_before {first second : Bytes} {firstCell secondCell : CellId}
    (ofFirst : table.shape.cellId first = some firstCell)
    (ofSecond : table.shape.cellId second = some secondCell) (before : direction.Before first second) :
    ¬direction.Before secondCell firstCell := by
  cases direction with
  | forward => exact (CellShape.cellId_mono (le_of_lt before) ofFirst ofSecond).not_gt
  | backward => exact (CellShape.cellId_mono (le_of_lt before) ofSecond ofFirst).not_gt

/-- A key found in the cell the iterator is in is the next one. -/
theorem nextIn_of_found {position : WalPosition}
    (found : NextIn direction (direction.Past prev) (table.cellView lastProcessed cell)
      (some (key, position))) (ofKey : table.shape.cellId key = some cell) :
    NextIn direction (table.Ahead direction endCellExclusive cell prev) (table.view lastProcessed)
      (some (key, position)) := by
  obtain ⟨past, shown, first⟩ := found
  refine ⟨⟨cell, ofKey, .inl ⟨rfl, past⟩⟩, (view_of_cellId ofKey).trans shown,
    fun other ⟨otherCell, ofOther, place⟩ before => ?_⟩
  rcases place with ⟨rfl, otherPast⟩ | ⟨behind, -⟩
  · exact (view_of_cellId ofOther).trans (first other otherPast before)
  · exact absurd behind (not_before_of_before ofOther ofKey before)

/-- Past a tombstone the iterator goes on in its cell. -/
theorem nextIn_of_skip {skipped : Bytes} {result : Option (Bytes × WalPosition)}
    (right : WalkRight direction prev (table.cellView lastProcessed cell) (.skipDeleted skipped))
    (rest : NextIn direction (table.Ahead direction endCellExclusive cell (some skipped))
      (table.view lastProcessed) result) :
    NextIn direction (table.Ahead direction endCellExclusive cell prev) (table.view lastProcessed)
      result := by
  obtain ⟨past, hidden⟩ := right
  refine rest.widen ?_ ?_
  · rintro key ⟨other, ofKey, ⟨rfl, behind⟩ | further⟩
    · exact ⟨other, ofKey, .inl ⟨rfl, past.of_before behind⟩⟩
    · exact ⟨other, ofKey, .inr further⟩
  · rintro key ⟨other, ofKey, ⟨rfl, behind⟩ | further⟩ notAhead
    · rw [view_of_cellId ofKey]
      exact hidden key behind fun after => notAhead ⟨other, ofKey, .inl ⟨rfl, after⟩⟩
    · exact absurd ⟨other, ofKey, .inr further⟩ notAhead

/-- Behind an exhausted cell only the cells from the next one on have keys. -/
theorem nextIn_of_hop (ok : table.Ok) {next : CellId} {result : Option (Bytes × WalPosition)}
    (right : WalkRight direction prev (table.cellView lastProcessed cell) .exhausted)
    (hop : HopsTo direction table.cellIds cell (some next))
    (within : ∀ stop, endCellExclusive = some stop → direction.Before next stop)
    (rest : NextIn direction (table.Ahead direction endCellExclusive next none)
      (table.view lastProcessed) result) :
    NextIn direction (table.Ahead direction endCellExclusive cell prev) (table.view lastProcessed)
      result := by
  obtain ⟨-, before, nothingBetween⟩ := hop
  refine rest.widen ?_ ?_
  · rintro key ⟨other, ofKey, ⟨rfl, -⟩ | ⟨behind, front⟩⟩
    · exact ⟨other, ofKey, .inr ⟨before, within⟩⟩
    · exact ⟨other, ofKey, .inr ⟨before.trans behind, front⟩⟩
  · rintro key ⟨other, ofKey, ⟨rfl, behind⟩ | ⟨behind, front⟩⟩ notAhead
    · rw [view_of_cellId ofKey]
      exact right key behind
    · by_contra shown
      have known := mem_cellIds_of_view ok ofKey shown
      rcases direction.before_or_eq_or_before next other with after | rfl | between
      · exact notAhead ⟨other, ofKey, .inr ⟨after, front⟩⟩
      · exact notAhead ⟨next, ofKey, .inl ⟨rfl, trivial⟩⟩
      · exact nothingBetween other known behind between

/-- Behind an exhausted cell there is nothing when no cell follows in front of the end. -/
theorem nextIn_none_of_hop (ok : table.Ok) {next : Option CellId}
    (right : WalkRight direction prev (table.cellView lastProcessed cell) .exhausted)
    (hop : HopsTo direction table.cellIds cell next)
    (beyond : ∀ other, next = some other → ∃ stop, endCellExclusive = some stop ∧
      ¬direction.Before other stop) :
    NextIn direction (table.Ahead direction endCellExclusive cell prev) (table.view lastProcessed)
      none := by
  rintro key ⟨other, ofKey, ⟨rfl, behind⟩ | ⟨behind, front⟩⟩
  · rw [view_of_cellId ofKey]
    exact right key behind
  · by_contra shown
    have known := mem_cellIds_of_view ok ofKey shown
    cases next with
    | none => exact hop other known behind
    | some next =>
        obtain ⟨stop, isStop, notFront⟩ := beyond next rfl
        rcases direction.before_or_eq_or_before next other with after | rfl | between
        · exact notFront (after.trans (front stop isStop))
        · exact notFront (front stop isStop)
        · exact hop.2.2 other known behind between

/-- What the iterator finds next. -/
theorem nextEntryFrom_spec (ok : table.Ok) {fuel : Nat} (holds : table.Holds cell)
    (behind : ∀ key, prev = some key → table.shape.cellId key = some cell)
    {caches : IterCaches table.format} (fit : table.FitAt cell caches)
    (enough : table.stepsLeft direction cell prev ≤ fuel) :
    ∃ result kept,
      table.nextEntryFrom lastProcessed endCellExclusive direction fuel cell prev caches =
        some (result, kept) ∧
      NextIn direction (table.Ahead direction endCellExclusive cell prev)
        (table.view lastProcessed) (result.map Prod.snd) ∧
      ∀ found, result = some found →
        table.shape.cellId found.2.1 = some found.1 ∧ table.FitAt found.1 kept := by
  induction fuel generalizing cell prev caches with
  | zero =>
      unfold stepsLeft at enough
      omega
  | succ fuel ih =>
      obtain ⟨outcome, kept, walked, right, keptFit, skipped⟩ :=
        @walkCell_spec _ table cell lastProcessed direction prev ok behind caches fit
      have fresh : ∀ next, table.FitAt next IterCaches.clear := fun next entry _ =>
        cachesFit_clear entry.levels.blobs
      have hop := hopsTo_nextCell holds direction
      rw [nextEntryFrom, walked]
      cases outcome with
      | found key position =>
          have inCell : table.shape.cellId key = some cell :=
            cellId_of_mem_keysAt ok (keysAt_of_cellView ok (right.2.1 ▸ Option.some_ne_none _))
          refine ⟨some (cell, key, position), kept, rfl, nextIn_of_found right inCell,
            fun found same => ?_⟩
          cases Option.some.inj same
          exact ⟨inCell, keptFit⟩
      | skipDeleted key =>
          have member := skipped key rfl
          have fewer := stepsLeft_skip member right.1
          obtain ⟨result, last, ran, next, located⟩ := ih holds
            (fun other same => Option.some.inj same ▸ cellId_of_mem_keysAt ok member) keptFit
            (Nat.le_of_lt_succ (Nat.lt_of_lt_of_le fewer enough))
          exact ⟨result, last, ran, nextIn_of_skip right next, located⟩
      | exhausted =>
          cases hopped : table.nextCell cell direction with
          | none =>
              rw [hopped] at hop
              exact ⟨none, _, rfl, nextIn_none_of_hop ok right hop nofun, nofun⟩
          | some next =>
              rw [hopped] at hop
              simp only
              split
              · rename_i atEnd
                refine ⟨none, _, rfl, nextIn_none_of_hop ok right hop fun other same => ?_, nofun⟩
                cases Option.some.inj same
                obtain ⟨stop, isStop, notFront⟩ := (Option.any_eq_true _ _).mp atEnd
                exact ⟨stop, isStop, by simpa using notFront⟩
              · rename_i inFront
                have within : ∀ stop, endCellExclusive = some stop → direction.Before next stop := by
                  rintro stop rfl
                  simpa using inFront
                have fewer := @stepsLeft_hop _ table cell direction prev next hop.1 hop.2.1
                have noPrev : ∀ key, (none : Option Bytes) = some key →
                    table.shape.cellId key = some next := nofun
                obtain ⟨result, last, ran, found, located⟩ := ih (holds_of_mem_cellIds ok hop.1)
                  noPrev (fresh next) (Nat.le_of_lt_succ (Nat.lt_of_lt_of_le fewer enough))
                exact ⟨result, last, ran, nextIn_of_hop ok right hop within found, located⟩

/-- What the iterator finds next, with the steps it is given. -/
theorem nextEntry_spec (ok : table.Ok) (holds : table.Holds cell)
    (behind : ∀ key, prev = some key → table.shape.cellId key = some cell)
    {caches : IterCaches table.format} (fit : table.FitAt cell caches) :
    ∃ result kept,
      table.nextEntry lastProcessed endCellExclusive direction cell prev caches =
        some (result, kept) ∧
      NextIn direction (table.Ahead direction endCellExclusive cell prev)
        (table.view lastProcessed) (result.map Prod.snd) ∧
      ∀ found, result = some found →
        table.shape.cellId found.2.1 = some found.1 ∧ table.FitAt found.1 kept :=
  nextEntryFrom_spec ok holds behind fit (stepsLeft_le_steps ok direction cell prev)

/-! ## Behind a found entry -/

/-- A found entry is at the place of the iterator or behind it. -/
theorem stepsLeft_found (ok : table.Ok) {position : WalPosition}
    (ahead : table.Ahead direction endCellExclusive cell prev key)
    (shown : table.view lastProcessed key = some position) {found : CellId}
    (ofKey : table.shape.cellId key = some found) :
    table.stepsLeft direction found (some key) < table.stepsLeft direction cell prev := by
  have present : table.view lastProcessed key ≠ none := shown ▸ Option.some_ne_none position
  have member : key ∈ table.keysAt found :=
    keysAt_of_cellView ok (by rwa [view_of_cellId ofKey] at present)
  obtain ⟨other, ofOther, place⟩ := ahead
  cases Option.some.inj (ofKey.symm.trans ofOther)
  rcases place with ⟨rfl, past⟩ | ⟨behind, -⟩
  · exact stepsLeft_skip member past
  · exact Nat.lt_trans (stepsLeft_skip member (show direction.Past none key from trivial))
      (stepsLeft_hop (mem_cellIds_of_view ok ofKey present) behind)

/-- A key in a cell behind is behind. -/
theorem before_of_before {first second : Bytes} {firstCell secondCell : CellId}
    (ofFirst : table.shape.cellId first = some firstCell)
    (ofSecond : table.shape.cellId second = some secondCell)
    (before : direction.Before firstCell secondCell) : direction.Before first second := by
  rcases direction.before_or_eq_or_before first second with inFront | rfl | after
  · exact inFront
  · cases Option.some.inj (ofFirst.symm.trans ofSecond)
    exact absurd before (Direction.Before.irrefl _)
  · exact absurd before (not_before_of_before ofSecond ofFirst after)

/-- What is ahead of a found entry. -/
theorem ahead_found {found : CellId} (ahead : table.Ahead direction endCellExclusive cell prev key)
    (ofKey : table.shape.cellId key = some found) (other : Bytes) :
    table.Ahead direction endCellExclusive found (some key) other ↔
      table.Ahead direction endCellExclusive cell prev other ∧ direction.Before key other := by
  obtain ⟨place, ofPlace, where_⟩ := ahead
  cases Option.some.inj (ofKey.symm.trans ofPlace)
  constructor
  · rintro ⟨otherCell, ofOther, ⟨rfl, behind⟩ | ⟨behind, inFront⟩⟩
    · refine ⟨⟨otherCell, ofOther, ?_⟩, behind⟩
      rcases where_ with ⟨rfl, past⟩ | further
      · exact .inl ⟨rfl, past.of_before behind⟩
      · exact .inr further
    · refine ⟨⟨otherCell, ofOther, .inr ⟨?_, inFront⟩⟩, before_of_before ofKey ofOther behind⟩
      rcases where_ with ⟨rfl, -⟩ | ⟨further, -⟩
      · exact behind
      · exact further.trans behind
  · rintro ⟨⟨otherCell, ofOther, otherPlace⟩, behind⟩
    refine ⟨otherCell, ofOther, ?_⟩
    rcases direction.before_or_eq_or_before found otherCell with before | rfl | after
    · refine .inr ⟨before, ?_⟩
      rcases otherPlace with ⟨rfl, -⟩ | ⟨-, inFront⟩
      · rcases where_ with ⟨rfl, -⟩ | ⟨further, -⟩
        · exact absurd before (Direction.Before.irrefl _)
        · exact absurd before further.asymm
      · exact inFront
    · exact .inl ⟨rfl, behind⟩
    · exact absurd after (not_before_of_before ofKey ofOther behind)

/-! ## What is ahead of a place -/

/-- Ahead of a key, in its own cell or in front of the end cell. -/
theorem ahead_some_iff {place : CellId} (ofPrev : table.shape.cellId key = some cell)
    {other : Bytes} (ofOther : table.shape.cellId other = some place) :
    table.Ahead direction endCellExclusive cell (some key) other ↔
      direction.Before key other ∧
        (place = cell ∨ ∀ stop, endCellExclusive = some stop → direction.Before place stop) := by
  constructor
  · rintro ⟨found, ofFound, ⟨rfl, behind⟩ | ⟨further, inFront⟩⟩
    · cases Option.some.inj (ofOther.symm.trans ofFound)
      exact ⟨behind, .inl rfl⟩
    · cases Option.some.inj (ofOther.symm.trans ofFound)
      exact ⟨before_of_before ofPrev ofOther further, .inr inFront⟩
  · rintro ⟨behind, inFront⟩
    refine ⟨place, ofOther, ?_⟩
    rcases direction.before_or_eq_or_before cell place with further | rfl | back
    · refine .inr ⟨further, inFront.resolve_left ?_⟩
      rintro rfl
      exact Direction.Before.irrefl _ further
    · exact .inl ⟨rfl, behind⟩
    · exact absurd back (not_before_of_before ofPrev ofOther behind)

/-- Ahead of the start of a cell. -/
theorem ahead_none_iff {place : CellId} {other : Bytes}
    (ofOther : table.shape.cellId other = some place) :
    table.Ahead direction endCellExclusive cell none other ↔
      ¬direction.Before place cell ∧
        (place = cell ∨ ∀ stop, endCellExclusive = some stop → direction.Before place stop) := by
  constructor
  · rintro ⟨found, ofFound, ⟨rfl, -⟩ | ⟨further, inFront⟩⟩
    · cases Option.some.inj (ofOther.symm.trans ofFound)
      exact ⟨Direction.Before.irrefl _, .inl rfl⟩
    · cases Option.some.inj (ofOther.symm.trans ofFound)
      exact ⟨further.asymm, .inr inFront⟩
  · rintro ⟨notBack, inFront⟩
    refine ⟨place, ofOther, ?_⟩
    rcases direction.before_or_eq_or_before cell place with further | rfl | back
    · refine .inr ⟨further, inFront.resolve_left ?_⟩
      rintro rfl
      exact Direction.Before.irrefl _ further
    · exact .inl ⟨rfl, trivial⟩
    · exact absurd back notBack

/-- A cell that is not behind one lies in front of the hop from there. -/
theorem before_hop {other stop : CellId} (holds : table.Holds cell)
    (hop : table.nextCell cell direction = some stop) (notBehind : ¬direction.Before cell other) :
    direction.Before other stop := by
  have hops := hopsTo_nextCell holds direction
  rw [hop] at hops
  rcases direction.before_or_eq_or_before cell other with behind | rfl | inFront
  · exact absurd behind notBehind
  · exact hops.2.1
  · exact inFront.trans hops.2.1

end KsTable

end Tidehunter.LargeTable
