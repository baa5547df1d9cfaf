import Tidehunter.Wal.Log

/-!
# The log on disk

On disk the log is a set of whole frames and skip markers at their places. Bytes that are
not a whole frame fail the checksum, so overwriting part of a frame takes it away. The
iterator follows the frames one behind the other, jumps to the next fragment at a skip
marker and stops at the first read that fails; it then turns into a writer, which zeroes
the rest of the fragment it starts in.

Everything on disk carries a tag, which the code does not have: it tells two writes of
the same bytes apart.
-/

namespace Tidehunter.Wal

open Library

variable {T : Type}

/-- What a checked read can find at an offset. -/
inductive DiskItem where
  | frame (entry : WalEntry)
  | skipMarker
  deriving DecidableEq, Repr

/-- Bytes of an item. -/
def DiskItem.len : DiskItem → Nat
  | .frame entry => entry.len + crcHeaderLength
  | .skipMarker => crcHeaderLength

theorem DiskItem.len_pos (item : DiskItem) : 0 < item.len := by
  cases item <;> simp [len, crcHeaderLength]

/-- The whole items on disk, with their tags, and the files that exist. -/
structure Disk (T : Type) where
  items : SortedMap Nat (DiskItem × T)
  files : List Nat

namespace Disk

def item (disk : Disk T) (offset : Nat) : Option (DiskItem × T) := disk.items.lookup offset

/-- Destroy what lies in a range of bytes. -/
def wipe (disk : Disk T) (start stop : Nat) : Disk T :=
  { disk with
    items := disk.items.filter fun offset held =>
      decide (offset + held.1.len ≤ start) || decide (stop ≤ offset) }

/-- Write an item; its file exists by then. -/
def write (disk : Disk T) (layout : WalLayout) (offset : Nat) (item : DiskItem) (tag : T) : Disk T :=
  { items := (disk.wipe offset (offset + item.len)).items.insert offset (item, tag)
    files := layout.locateFile offset :: disk.files }

theorem item_wipe (disk : Disk T) (start stop offset : Nat) :
    (disk.wipe start stop).item offset =
      (disk.item offset).filter fun held =>
        decide (offset + held.1.len ≤ start) || decide (stop ≤ offset) := by
  rw [item, wipe, SortedMap.lookup_filter]
  rfl

theorem item_write_self (disk : Disk T) (layout : WalLayout) (offset : Nat) (item : DiskItem)
    (tag : T) : (disk.write layout offset item tag).item offset = some (item, tag) :=
  SortedMap.lookup_insert_self _ _ _

theorem item_write_of_ne (disk : Disk T) (layout : WalLayout) {offset other : Nat}
    (item : DiskItem) (tag : T) (different : other ≠ offset) :
    (disk.write layout offset item tag).item other =
      (disk.wipe offset (offset + item.len)).item other :=
  SortedMap.lookup_insert_of_ne _ _ different

end Disk

/-! ## Reading -/

structure WalIterator where
  position : Nat
  /-- The fragment mapped last. -/
  map : Nat
  deriving DecidableEq, Repr

namespace WalIterator

variable (layout : WalLayout) (disk : Disk T)

/-- An iterator from a position on; none is the panic on a file that does not exist. -/
def new (position : Nat) : Option WalIterator :=
  if disk.files.contains (layout.fileForMap (layout.locate position)) then
    some ⟨position, layout.locate position⟩
  else none

/-- Read at the position. Nothing is a failed checksum, or the end of the log when the
fragment to map has no file. -/
def readOne (iterator : WalIterator) : WalIterator × Option (DiskItem × T) :=
  let map := layout.locate iterator.position
  if iterator.map = map then (iterator, disk.item iterator.position)
  else if disk.files.contains (layout.fileForMap map) then
    (⟨iterator.position, map⟩, disk.item iterator.position)
  else (iterator, none)

/-- The next frame with its offset; nothing ends the log. -/
def next (iterator : WalIterator) : WalIterator × Option (Nat × WalEntry × T) :=
  let (iterator, found) := match readOne layout disk iterator with
    | (iterator, some (.skipMarker, _)) =>
        readOne layout disk { iterator with position := layout.mapStart (iterator.map + 1) }
    | (iterator, found) => (iterator, found)
  match found with
  | some (.frame entry, tag) =>
      ({ iterator with
          position := iterator.position + layout.align (entry.len + crcHeaderLength) },
        some (iterator.position, entry, tag))
  | some (.skipMarker, _) => (iterator, none)
  | none => (iterator, none)

/-- The frames read until a read fails. -/
def scan : Nat → WalIterator → List (Nat × WalEntry × T) × WalIterator
  | 0, iterator => ([], iterator)
  | fuel + 1, iterator =>
      match next layout disk iterator with
      | (iterator, none) => ([], iterator)
      | (iterator, some frame) =>
          let rest := scan fuel iterator
          (frame :: rest.1, rest.2)

/-- Zero the fragment from a position on, if it is the one mapped. -/
def clearFragmentFromPosition (iterator : WalIterator) (position : Nat) : Disk T :=
  if layout.locate position = iterator.map then
    disk.wipe position (layout.mapStart (layout.locate position + 1))
  else disk

/-- Start writing at a position, by default where the iterator stopped. -/
def intoWriter (iterator : WalIterator) (positionOverride : Option Nat) : Disk T × Nat :=
  let position := positionOverride.getD iterator.position
  (clearFragmentFromPosition layout disk iterator position, position)

end WalIterator

/-! ## Open batches -/

/-- The batch replay is in: the records still expected and where it started. -/
structure OpenBatch where
  remaining : Nat
  start : Option Nat
  deriving DecidableEq, Repr

/-- Follow one frame. -/
def OpenBatch.step (batch : OpenBatch) (offset : Nat) (entry : WalEntry) : OpenBatch :=
  if 0 < batch.remaining then
    ⟨batch.remaining - 1, if batch.remaining = 1 then none else batch.start⟩
  else
    match entry with
    | .batchStart count => ⟨count, some offset⟩
    | .record _ _ _ _ => batch
    | .remove _ _ => batch
    | .compressedBatch _ _ => batch
    | .dropCells _ _ _ _ => batch

def OpenBatch.run (batch : OpenBatch) (frames : List (Nat × WalEntry × T)) : OpenBatch :=
  frames.foldl (fun batch frame => batch.step frame.1 frame.2.1) batch

/-- No batch is open. -/
def OpenBatch.closed : OpenBatch := ⟨0, none⟩

/-- A log read back: the frames read, where the log ends, and the disk its writer starts
on. -/
structure Recovered (T : Type) where
  frames : List (Nat × WalEntry × T)
  position : Nat
  disk : Disk T

/-- Read the log from a position to its first failing read and reopen it for writing,
from the start of a batch that is not whole. -/
def recover (layout : WalLayout) (disk : Disk T) (start : Nat) : Option (Recovered T) :=
  (WalIterator.new layout disk start).map fun iterator =>
    let (frames, iterator) := WalIterator.scan layout disk (disk.items.size + 1) iterator
    let (disk, position) := iterator.intoWriter layout disk (OpenBatch.closed.run frames).start
    ⟨frames, position, disk⟩

end Tidehunter.Wal
