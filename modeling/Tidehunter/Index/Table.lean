import Tidehunter.Library.SortedMap
import Tidehunter.Library.AscList
import Tidehunter.Wal.Position

/-!
# The in-memory index table

An `IndexTable` is a write buffer `data`, which maps each key to the ascending
positions of its writes, over a compact sorted buffer `flat` with one entry per
key. The overlay shadows `flat`. Only genuine WAL writes live in `data`; entries
read from disk live in `flat`.
-/

namespace Tidehunter.Index

open Library Wal

/-- The positions of one key's writes; the last one is the live value. -/
abbrev DataPositions := AscList IndexWalPosition

/-- Where a live write landed among the positions of its key. -/
inductive WriteOrder where
  | latest
  | stale
  deriving DecidableEq, Repr

structure IndexTable (K : Type) [LinearOrder K] where
  data : SortedMap K DataPositions
  flat : SortedMap K IndexWalPosition
  deriving DecidableEq

namespace IndexTable

variable {K : Type} [LinearOrder K]

def empty : IndexTable K := ⟨SortedMap.empty, SortedMap.empty⟩

instance : Inhabited (IndexTable K) := ⟨empty⟩

/-! ## Reading -/

def dataGetLatest (table : IndexTable K) (key : K) : Option IndexWalPosition :=
  (table.data.lookup key).map AscList.latest

def dataGetLatestProcessed (table : IndexTable K) (key : K) (lastProcessed : Nat) :
    Option IndexWalPosition :=
  (table.data.lookup key).bind fun positions =>
    positions.latestWhere fun position => isProcessed lastProcessed position.offset

/-- The entry a reader of the table sees: the overlay shadows the flat buffer. -/
def entry (table : IndexTable K) (key : K) : Option IndexWalPosition :=
  (table.dataGetLatest key).or (table.flat.lookup key)

/-- The entry seen by a reader as of a frontier. -/
def entryAt (table : IndexTable K) (key : K) (lastProcessed : Nat) : Option IndexWalPosition :=
  (table.dataGetLatestProcessed key lastProcessed).or (table.flat.lookup key)

def get (table : IndexTable K) (key : K) : Option WalPosition :=
  (table.entry key).map IndexWalPosition.intoWalPosition

/-- Checkpoint read: writes at or above the frontier are ignored. -/
def getAt (table : IndexTable K) (key : K) (lastProcessed : Nat) : Option WalPosition :=
  (table.entryAt key lastProcessed).map IndexWalPosition.intoWalPosition

def containsKey (table : IndexTable K) (key : K) : Bool :=
  table.data.contains key || table.flat.contains key

/-- Counts a key held on both sides twice, as the source does. -/
def len (table : IndexTable K) : Nat := table.flat.size + table.data.size

def isEmpty (table : IndexTable K) : Bool := table.data.isEmpty && table.flat.isEmpty

/-- One entry per key, the overlay shadowing the flat buffer. -/
def iterCombined (table : IndexTable K) : SortedMap K IndexWalPosition :=
  table.data.merge (fun _ positions flat => (positions.map AscList.latest).or flat) table.flat

/-- The readable entries in key order. -/
def iter (table : IndexTable K) : SortedMap K WalPosition :=
  table.iterCombined.filterMap fun _ position => position.intoWalPosition.valid

/-- The entries in key order, tombstones included as the sentinel position. -/
def iterWithTombstones (table : IndexTable K) : SortedMap K WalPosition :=
  table.iterCombined.filterMap fun _ position => some position.intoWalPosition

/-- The keys shown to a compactor: those whose visible entry is no tombstone. -/
def keys (table : IndexTable K) : List K :=
  (table.iterCombined.filter fun _ position => !position.isRemoved).keys

/-! ## Writing -/

/-- Record a live write among the positions of its key. A repeated offset is a panic. -/
def checkedInsert (table : IndexTable K) (key : K) (position : IndexWalPosition) :
    Option (IndexTable K × WriteOrder) :=
  match table.data.lookup key with
  | some positions =>
      if position.offset < positions.latest.offset then
        if positions.toList.any (fun other => other.offset = position.offset) then none
        else some ({ table with data := table.data.insert key (positions.insert position) },
          .stale)
      else if positions.latest.offset < position.offset then
        some ({ table with data := table.data.insert key (positions.insert position) },
          .latest)
      else none
  | none =>
      some ({ table with data := table.data.insert key (AscList.singleton position) }, .latest)

def insert (table : IndexTable K) (key : K) (position : WalPosition) :
    Option (IndexTable K × WriteOrder) :=
  table.checkedInsert key (IndexWalPosition.newModified position)

def remove (table : IndexTable K) (key : K) (position : WalPosition) :
    Option (IndexTable K × WriteOrder) :=
  table.checkedInsert key (IndexWalPosition.newRemoved position)

/-! ## Merging -/

/-- The demotion a flush applies to an entry that is about to be clean on disk. -/
def demote (promoteToClean : Bool) (position : IndexWalPosition) : IndexWalPosition :=
  if promoteToClean && !position.isRemoved then position.asCleanModified else position

/-- Fold positions into those of a key, creating the key if needed. -/
def insertSortedAll (base : Option DataPositions) (positions : List IndexWalPosition) :
    Option DataPositions :=
  positions.foldl
    (fun current position =>
      some (match current with
        | some held => held.insert position
        | none => AscList.singleton position))
    base

/-- Merge the fresher table `dirty` into `table`: every overlay position is folded
in, and `dirty`'s flat entry replaces an equal key and drops overlay positions of
`table` that `dirty` does not hold. -/
def mergeDirty (table dirty : IndexTable K) (promoteToClean : Bool) : IndexTable K where
  data :=
    (table.data.merge
      (fun _ held fresh =>
        match fresh with
        | some positions =>
            insertSortedAll held (positions.toList.map (demote promoteToClean))
        | none => held)
      dirty.data).filter
      fun key _ => !(dirty.flat.contains key && !dirty.data.contains key)
  flat :=
    table.flat.merge
      (fun _ held fresh => (fresh.map (demote promoteToClean)).or held)
      dirty.flat

/-- Merge for a flush: the result is clean, tombstones are kept. -/
def mergeDirtyAndClean (table dirty : IndexTable K) : IndexTable K := table.mergeDirty dirty true

/-- Merge for a load: the kinds are kept. -/
def mergeDirtyNoClean (table dirty : IndexTable K) : IndexTable K := table.mergeDirty dirty false

/-! ## Filtering -/

/-- Keep a data key, with all its positions, if its latest position passes. -/
def retainData (table : IndexTable K) (keep : K → IndexWalPosition → Bool) : IndexTable K :=
  { table with data := table.data.filter fun key positions => keep key positions.latest }

def retainFlat (table : IndexTable K) (keep : K → IndexWalPosition → Option IndexWalPosition) :
    IndexTable K :=
  { table with flat := table.flat.filterMap keep }

/-- Keep only the overlay positions at or above the frontier; the flat buffer is cleared. -/
def retainUnprocessed (table : IndexTable K) (lastProcessed : Nat) : IndexTable K where
  data := table.data.filterMap fun _ positions =>
    positions.filter fun position => !isProcessed lastProcessed position.offset
  flat := SortedMap.empty

/-- Drop the overlay positions at or above the frontier; the flat buffer is kept. -/
def retainProcessed (table : IndexTable K) (lastProcessed : Nat) : IndexTable K :=
  { table with
    data := table.data.filterMap fun _ positions =>
      positions.filter fun position => isProcessed lastProcessed position.offset }

def hasUnprocessed (table : IndexTable K) (lastProcessed : Nat) : Bool :=
  table.data.entries.any fun binding =>
    binding.2.toList.any fun position => !isProcessed lastProcessed position.offset

/-- Keep only entries at or above a position: flat entries one by one, data keys by
their latest position. -/
def retainAbovePosition (table : IndexTable K) (lowest : Nat) : IndexTable K :=
  (table.retainFlat fun _ position => if lowest ≤ position.offset then some position else none)
    |>.retainData fun _ position => lowest ≤ position.offset

/-- Retain the keys a compactor names; tombstones are neither shown nor dropped. -/
def compactWith (table : IndexTable K) (compactor : List K → List K) : IndexTable K :=
  let toRetain := compactor table.keys
  (table.retainFlat fun key position =>
      if position.isRemoved || toRetain.contains key then some position else none)
    |>.retainData fun key position => position.isRemoved || toRetain.contains key

/-- Settle the table as a deepest level: latest entry per key, clean, no tombstones. -/
def cleanSelf (table : IndexTable K) : IndexTable K where
  data := table.data.filterMap fun _ positions =>
    match positions.latest.kind with
    | .clean => some (AscList.singleton positions.latest)
    | .modified => some (AscList.singleton positions.latest.asCleanModified)
    | .removed => none
  flat := table.flat.filterMap fun key position =>
    let tombstoned := (table.dataGetLatest key).any IndexWalPosition.isRemoved
    if position.isRemoved || tombstoned then none else some position.asCleanModified

/-- Rebase the overlay writes at or above the frontier onto a freshly flushed blob. -/
def rebaseOnAsOf (table asOf : IndexTable K) (lastProcessed : Nat) : IndexTable K where
  data := asOf.data.merge
    (fun _ held overlay =>
      match overlay with
      | some positions =>
          insertSortedAll held (positions.toList.filter fun position =>
            !isProcessed lastProcessed position.offset)
      | none => held)
    table.data
  flat := asOf.flat

/-- Update the visible entry of a key. A flat entry is lifted into the overlay only
when the update changes it. -/
def applyUpdate (table : IndexTable K) (key : K)
    (update : IndexWalPosition → IndexWalPosition) : IndexTable K :=
  match table.data.lookup key with
  | some positions =>
      { table with
        data := table.data.insert key
          (positions.replaceLatest (update positions.latest)) }
  | none =>
      match table.flat.lookup key with
      | some original =>
          if update original = original then table
          else { table with data := table.data.insert key (AscList.singleton (update original)) }
      | none => table

/-- Move each key whose latest position is processed into the flat buffer, dropping
all its overlay positions. -/
def promoteToFlatUnconditionally (table : IndexTable K) (lastProcessed : Nat) : IndexTable K where
  data := table.data.filter fun _ positions =>
    !isProcessed lastProcessed positions.latest.offset
  flat := table.data.merge
    (fun _ positions flat =>
      ((positions.map AscList.latest).filter fun position =>
        isProcessed lastProcessed position.offset).or flat)
    table.flat

/-- Number of unique keys in the overlay above which a promote runs. -/
def promoteThreshold : Nat := 128

/-- Number of drainable positions above which a promote runs. -/
def promotePositionsThreshold : Nat := 1024

/-- Positions a promote would drain: whole lists of the keys whose latest is processed. -/
def drainablePositionCount (table : IndexTable K) (lastProcessed : Nat) : Nat :=
  ((table.data.entries.filter fun binding =>
    isProcessed lastProcessed binding.2.latest.offset).map
      fun binding => binding.2.toList.length).sum

def shouldPromoteToFlat (table : IndexTable K) (lastProcessed : Nat) : Bool :=
  promoteThreshold < table.data.size ||
    promotePositionsThreshold < table.drainablePositionCount lastProcessed

/-! ## Removing what a flush made durable -/

/-- One pass over the live positions of a key and the flushed ones, both ascending:
live positions that match a flushed one are dropped, and the newest flushed
position without a live match is reported. -/
def unmergeWalk : List IndexWalPosition → List IndexWalPosition → Option IndexWalPosition →
    List IndexWalPosition × Option IndexWalPosition
  | [], flushed, unmatched => ([], flushed.getLast?.or unmatched)
  | live :: rest, flushed, unmatched =>
      let skipped := flushed.takeWhile fun position => position.offset < live.offset
      let remaining := flushed.dropWhile fun position => position.offset < live.offset
      let unmatched := skipped.getLast?.or unmatched
      match remaining with
      | [] =>
          let (kept, last) := unmergeWalk rest [] unmatched
          (live :: kept, last)
      | next :: later =>
          if next.intoUpdatePosition = live.intoUpdatePosition then
            unmergeWalk rest later unmatched
          else
            let (kept, last) := unmergeWalk rest (next :: later) unmatched
            (live :: kept, last)

theorem unmergeWalk_sublist (live flushed : List IndexWalPosition)
    (unmatched : Option IndexWalPosition) :
    (unmergeWalk live flushed unmatched).1.Sublist live := by
  induction live generalizing flushed unmatched with
  | nil => exact List.Sublist.refl _
  | cons first rest ih =>
      rw [unmergeWalk]
      split
      · exact (ih _ _).cons_cons first
      · split
        · exact (ih _ _).cons first
        · exact (ih _ _).cons_cons first

/-- The flushed positions of a key below the frontier. -/
def processedPrefix (positions : DataPositions) (lastProcessed : Nat) : List IndexWalPosition :=
  positions.toList.takeWhile fun position => isProcessed lastProcessed position.offset

/-- The live positions of a key after the flushed ones left, and the flushed position
that must then be looked for in the flat buffer. -/
def unmergePositions (live : Option DataPositions) (original : DataPositions)
    (lastProcessed : Nat) : Option DataPositions × Option IndexWalPosition :=
  match processedPrefix original lastProcessed, live with
  | [], live => (live, none)
  | first :: rest, none => (none, (first :: rest).getLast?)
  | first :: rest, some positions =>
      let walked := unmergeWalk positions.toList (first :: rest) none
      (if nonempty : walked.1 ≠ [] then
          some ⟨walked.1, nonempty, positions.ascending.sublist
            (unmergeWalk_sublist positions.toList (first :: rest) none)⟩
        else none,
        walked.2)

/-- Remove the entries a flush of `original` made durable. -/
def unmergeFlushed (table original : IndexTable K) (lastProcessed : Nat) : IndexTable K where
  data := table.data.filterMap fun key live =>
    match original.data.lookup key with
    | some flushed => (unmergePositions (some live) flushed lastProcessed).1
    | none => some live
  flat := table.flat.filter fun key position =>
    let removeByFlat := (original.flat.lookup key).any fun flushed =>
      position.intoUpdatePosition = flushed.intoUpdatePosition
    let pendingFlat := (original.data.lookup key).bind fun flushed =>
      (unmergePositions (table.data.lookup key) flushed lastProcessed).2
    let removeByData := pendingFlat.any fun flushed =>
      position.intoUpdatePosition = flushed.intoUpdatePosition
    !removeByFlat && !removeByData

/-! ## Disk form -/

/-- The bindings a blob stores for the table: the visible entry of each key, a
tombstone as the sentinel. -/
def serialize (table : IndexTable K) : SortedMap K WalPosition := table.iterWithTombstones

/-- The table read back from a blob: every entry is in the flat buffer. -/
def deserialize (blob : SortedMap K WalPosition) : IndexTable K where
  data := SortedMap.empty
  flat := blob.filterMap fun _ position => some (IndexWalPosition.fromDisk position)

end IndexTable

end Tidehunter.Index
