import Tidehunter.Index.FlatSearch
import Tidehunter.Index.TableView
import Tidehunter.Library.Overlay

/-!
# The table as it is stored

The in-memory table with its sorted part as a block of bytes, the layout of that block, and the
two cached counters. A table of a key space is well formed when the block is the encoding of
ascending entries and all keys have the length of the key space. Such a table reads as the
`IndexTable` of its overlay and of the entries in the block.
-/

namespace Tidehunter.Index

open Library Wal Flat

structure PackedTable where
  data : SortedMap Bytes DataPositions
  /-- Sum of the lengths of the keys in `data`. -/
  keyBytes : Nat
  /-- Keys of `data` with a dirty latest position, and dirty entries of `flat`. -/
  dirtyCount : Nat
  flat : Bytes
  /-- The layout of `flat`: keys of one length, or keys of any length. -/
  keySize : Option Nat
  deriving DecidableEq

namespace PackedTable

/-- The table of a cell that was never loaded. -/
def empty : PackedTable := ⟨SortedMap.empty, 0, 0, [], none⟩

/-! ## Reading -/

/-- One entry per key of the overlay: its latest position. -/
def dataLatestPerKey (data : SortedMap Bytes DataPositions) : List FlatEntry :=
  data.entries.map fun binding => (binding.1, binding.2.latest)

def dataGetLatest (table : PackedTable) (key : Bytes) : Option IndexWalPosition :=
  (table.data.lookup key).map AscList.latest

def dataGetLatestProcessed (table : PackedTable) (key : Bytes) (lastProcessed : Nat) :
    Option IndexWalPosition :=
  (table.data.lookup key).bind fun positions =>
    positions.latestWhere fun position => isProcessed lastProcessed position.offset

def flatSearch (table : PackedTable) (key : Bytes) : Option IndexWalPosition :=
  flatBinarySearch table.flat table.keySize key

def get (table : PackedTable) (key : Bytes) : Option WalPosition :=
  match table.dataGetLatest key with
  | some position => some position.intoWalPosition
  | none => (table.flatSearch key).map IndexWalPosition.intoWalPosition

/-- Checkpoint read: overlay positions at or above the frontier are ignored. -/
def getAt (table : PackedTable) (key : Bytes) (lastProcessed : Nat) : Option WalPosition :=
  match table.dataGetLatestProcessed key lastProcessed with
  | some position => some position.intoWalPosition
  | none => (table.flatSearch key).map IndexWalPosition.intoWalPosition

def dataNext (table : PackedTable) (direction : Direction) (prev : Option Bytes) :
    Option (Bytes × WalPosition) :=
  (table.data.next direction prev).map fun found => (found.1, found.2.latest.intoWalPosition)

/-- The next key with a processed position; keys written only above the frontier are skipped. -/
def dataNextAt (table : PackedTable) (direction : Direction) (prev : Option Bytes)
    (lastProcessed : Nat) : Option (Bytes × WalPosition) :=
  (table.data.ordered direction).findSome? fun found =>
    if direction.Past prev found.1 then
      (found.2.latestWhere fun position => isProcessed lastProcessed position.offset).map
        fun position => (found.1, position.intoWalPosition)
    else none

def flatNext (table : PackedTable) (direction : Direction) (prev : Option Bytes) :
    Option (Bytes × WalPosition) :=
  (Flat.flatNext table.flat table.keySize direction prev).map fun found =>
    (found.1, found.2.intoWalPosition)

/-- The next entry of overlay and flat buffer; the overlay wins ties. -/
def nextEntryDirectional (table : PackedTable) (direction : Direction) (prev : Option Bytes) :
    Option (Bytes × WalPosition) :=
  earlier direction (table.dataNext direction prev) (table.flatNext direction prev)

/-- The next entry as of a frontier. -/
def nextEntryDirectionalAt (table : PackedTable) (direction : Direction) (prev : Option Bytes)
    (lastProcessed : Nat) : Option (Bytes × WalPosition) :=
  earlier direction (table.dataNextAt direction prev lastProcessed)
    (table.flatNext direction prev)

/-- One entry per key in ascending order, the overlay over the flat buffer. -/
def iterCombined (table : PackedTable) : List FlatEntry :=
  layOver (flatIter table.flat table.keySize) (dataLatestPerKey table.data)

/-! ## The blob of a table -/

/-- A number of at most 15 bits in one or two bytes. None is the panic on a larger one. -/
def serializeU16Varint (value : Nat) (out : Bytes) : Option Bytes :=
  if 0x7FFF < value then none
  else if value < 0x80 then some (out ++ [Fin.ofNat 256 value])
  else some (out ++ [Fin.ofNat 256 (0x80 ||| (value &&& 0x7F)), Fin.ofNat 256 (value >>> 7)])

/-- The blob under construction, and the keys the visitor was shown with their places. -/
structure BlobWriter where
  out : Bytes
  visited : List (Bytes × Nat)
  deriving DecidableEq

/-- Append a key and its position. None is the panic on a key of the wrong length. -/
def writeKeyVal (indexKeySize : Option Nat) (writer : BlobWriter) (key : Bytes)
    (position : WalPosition) : Option BlobWriter :=
  let headed := match indexKeySize with
    | some size => if key.length = size then some writer.out else none
    | none => serializeU16Varint key.length writer.out
  headed.map fun out =>
    ⟨out ++ key ++ putBe 8 position.offset ++ putBe 4 position.len,
      writer.visited ++ [(key, writer.out.length)]⟩

/-- Append keys and positions in the order given. -/
def writeAll (indexKeySize : Option Nat) (writer : BlobWriter)
    (bindings : List (Bytes × WalPosition)) : Option BlobWriter :=
  bindings.foldlM (fun writer binding => writeKeyVal indexKeySize writer binding.1 binding.2) writer

/-- The position a blob stores: a tombstone is the sentinel. -/
def diskPosition (position : IndexWalPosition) : WalPosition :=
  if position.isRemoved then WalPosition.invalid else position.intoUpdatePosition

/-- Write the table as a blob. Without a flat buffer only the overlay is walked. -/
def serializeIndexEntries (table : PackedTable) (indexKeySize : Option Nat) (writer : BlobWriter) :
    Option BlobWriter :=
  let entries := if table.flat.isEmpty then dataLatestPerKey table.data else table.iterCombined
  writeAll indexKeySize writer (entries.map fun entry => (entry.1, diskPosition entry.2))

/-! ## The counters -/

/-- Key bytes and dirty keys of the overlay. -/
def recountDataStats (data : SortedMap Bytes DataPositions) : Nat × Nat :=
  (dataLatestPerKey data).foldl
    (fun counted entry =>
      (counted.1 + entry.1.length, if entry.2.isClean then counted.2 else counted.2 + 1))
    (0, 0)

/-- Dirty entries among some entries. -/
def dirtyEntries (entries : List FlatEntry) : Nat := entries.countP fun entry => !entry.2.isClean

/-- The two counters computed from the contents. -/
def recountStats (table : PackedTable) : Nat × Nat :=
  let counted := recountDataStats table.data
  (counted.1, dirtyEntries (flatIter table.flat table.keySize) + counted.2)

/-- The cached counters are those of the contents. -/
def Counted (table : PackedTable) : Prop :=
  (table.keyBytes, table.dirtyCount) = table.recountStats

instance (table : PackedTable) : Decidable table.Counted :=
  inferInstanceAs (Decidable (_ = _))

/-! ## Well-formed tables -/

/-- A key of a key space: of the length the key space fixes, and never longer than 16 bits say. -/
def KeyOf (indexKeySize : Option Nat) (key : Bytes) : Prop :=
  key.length < 2 ^ 16 ∧ ∀ size, indexKeySize = some size → key.length = size

instance (indexKeySize : Option Nat) (key : Bytes) : Decidable (KeyOf indexKeySize key) :=
  inferInstanceAs (Decidable (_ ∧ ∀ size, size ∈ indexKeySize → key.length = size))

/-- A table of a key space. The overlay of a key space with fixed keys may still have the layout
for keys of any length, which is the one an empty table starts with. -/
structure WellFormed (indexKeySize : Option Nat) (table : PackedTable) : Prop where
  layout : table.keySize = none ∨ table.keySize = indexKeySize
  built : buildFlatBytes (flatIter table.flat table.keySize) table.keySize = some table.flat
  ascending : Ascending table.flat table.keySize
  flatKeys : ∀ entry ∈ flatIter table.flat table.keySize, KeyOf indexKeySize entry.1
  dataKeys : ∀ key positions, table.data.lookup key = some positions → KeyOf indexKeySize key
  dataFits : ∀ key positions, table.data.lookup key = some positions →
    ∀ position ∈ positions, PositionFits position

theorem KeyOf.fits {indexKeySize keySize : Option Nat} {key : Bytes}
    (keyed : KeyOf indexKeySize key) (layout : keySize = none ∨ keySize = indexKeySize) :
    KeyFits key.length keySize := by
  cases keySize with
  | none => exact keyed.1
  | some size =>
      rcases layout with impossible | same
      · cases impossible
      · exact keyed.2 size same.symm

/-- The overlay and the entries of the flat buffer. -/
def toTable (table : PackedTable) (ascending : Ascending table.flat table.keySize) :
    IndexTable Bytes :=
  ⟨table.data, flatMap table.flat table.keySize ascending⟩

/-- A table is read by its overlay and its entries. -/
theorem toTable_eq {table : PackedTable} {ascending : Ascending table.flat table.keySize}
    {other : IndexTable Bytes} (data : table.data = other.data)
    (entries : flatIter table.flat table.keySize = other.flat.entries) :
    table.toTable ascending = other :=
  congrArg₂ IndexTable.mk data (SortedMap.eq_of_entries_eq entries)

/-! ## Readers of a well-formed table -/

section Readers

variable (table : PackedTable) (ascending : Ascending table.flat table.keySize)

theorem flatSearch_eq (key : Bytes) :
    table.flatSearch key = (table.toTable ascending).flat.lookup key :=
  flatBinarySearch_eq ascending key

theorem get_toTable (key : Bytes) : (table.toTable ascending).get key = table.get key := by
  rw [IndexTable.get, IndexTable.entry, get, flatSearch_eq table ascending]
  change ((table.dataGetLatest key).or _).map _ = _
  cases table.dataGetLatest key <;> rfl

theorem getAt_toTable (key : Bytes) (lastProcessed : Nat) :
    (table.toTable ascending).getAt key lastProcessed = table.getAt key lastProcessed := by
  rw [IndexTable.getAt, IndexTable.entryAt, getAt, flatSearch_eq table ascending]
  change ((table.dataGetLatestProcessed key lastProcessed).or _).map _ = _
  cases table.dataGetLatestProcessed key lastProcessed <;> rfl

theorem flatNext_toTable (direction : Direction) (prev : Option Bytes) :
    table.flatNext direction prev =
      ((table.toTable ascending).flatNext direction prev).map IndexTable.candidate := by
  rw [flatNext, flatNext_eq ascending]
  rfl

theorem nextEntryDirectional_toTable (direction : Direction) (prev : Option Bytes) :
    (table.toTable ascending).nextEntryDirectional direction prev =
      table.nextEntryDirectional direction prev := by
  rw [nextEntryDirectional, flatNext_toTable table ascending, IndexTable.nextEntryDirectional,
    IndexTable.dataNext, Option.map_map]
  rfl

theorem nextEntryDirectionalAt_toTable (direction : Direction) (prev : Option Bytes)
    (lastProcessed : Nat) :
    (table.toTable ascending).nextEntryDirectionalAt direction prev lastProcessed =
      table.nextEntryDirectionalAt direction prev lastProcessed := by
  rw [nextEntryDirectionalAt, flatNext_toTable table ascending, IndexTable.nextEntryDirectionalAt]
  congr 1
  rw [IndexTable.dataNextAt, dataNextAt, List.map_findSome?]
  congr 1
  funext found
  simp only [Function.comp_apply]
  split
  · rw [Option.map_map]
    rfl
  · rfl

/-- The walk of both parts gives the visible entries. -/
theorem iterCombined_eq :
    table.iterCombined = (table.toTable ascending).iterCombined.entries := by
  have latest : (table.data.filterMap fun _ positions => some positions.latest).entries =
      dataLatestPerKey table.data :=
    congrFun (List.filterMap_eq_map (f := fun binding : Bytes × DataPositions =>
      (binding.1, binding.2.latest))) table.data.entries
  have walked : table.iterCombined = ((flatMap table.flat table.keySize ascending).laidOver
      (table.data.filterMap fun _ positions => some positions.latest)).entries := by
    rw [iterCombined, ← latest]
    rfl
  rw [walked]
  refine congrArg SortedMap.entries (SortedMap.ext_lookup fun key => ?_)
  rw [SortedMap.lookup_laidOver, SortedMap.lookup_filterMap, IndexTable.lookup_iterCombined,
    IndexTable.entry, IndexTable.dataGetLatest, Option.map_eq_bind]
  rfl

theorem diskPosition_eq (position : IndexWalPosition) :
    diskPosition position = position.intoWalPosition := by
  obtain ⟨offset, len, kind⟩ := position
  cases kind <;> rfl

/-- The blob is that of the visible entries. -/
theorem serializeIndexEntries_eq (indexKeySize : Option Nat) (writer : BlobWriter) :
    table.serializeIndexEntries indexKeySize writer =
      writeAll indexKeySize writer (table.toTable ascending).serialize.entries := by
  have entries : (if table.flat.isEmpty then dataLatestPerKey table.data else table.iterCombined) =
      table.iterCombined := by
    split
    · rename_i nothing
      rw [iterCombined, flatIter_of_isEmpty nothing, layOver]
    · rfl
  have mapped : table.iterCombined.map (fun entry => (entry.1, diskPosition entry.2)) =
      (table.toTable ascending).serialize.entries := by
    rw [iterCombined_eq table ascending]
    simp only [diskPosition_eq]
    exact (congrFun (List.filterMap_eq_map (f := fun entry : FlatEntry =>
      (entry.1, entry.2.intoWalPosition))) _).symm
  simp only [serializeIndexEntries, entries, mapped]

end Readers

end PackedTable

end Tidehunter.Index
