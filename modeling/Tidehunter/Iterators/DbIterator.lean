import Tidehunter.Db.Records
import Tidehunter.Iterators.Neighbours
import Tidehunter.LargeTable.Iteration

/-!
# Iterators of a key space

An iterator keeps the cell it is in, the key it gave last and the cell it must not enter. Its
bounds are full keys; the index is walked by reduced keys, and a record that lies out of the
bounds is skipped or ends the iteration. A step of the source skips index entries whose record
cannot be read.
-/

namespace Tidehunter.Iterators

open Library Wal Index KeyShape LargeTable Db

/-! ## Sources -/

/-- What an iterator walks: the table of a key space, as of a frontier for a checkpoint, and the
records its index entries are turned into. -/
structure IterationSource (blooms : BloomFilter Bytes) where
  table : KsTable blooms
  lastProcessed : Option Nat
  keyIndexing : KeyIndexing
  hashKey : Bytes → Bytes
  /-- The record of an index entry; nothing when its frame cannot be read. -/
  record : Bytes → WalPosition → Option (Bytes × Bytes)

namespace IterationSource

variable {blooms : BloomFilter Bytes} (source : IterationSource blooms)

abbrev Caches : Type := IterCaches source.table.format

def reduceKey (key : Bytes) : Option Bytes := source.keyIndexing.reduceKey source.hashKey key

/-- The next record at or behind a cell. -/
def nextEntryFrom (endCellExclusive : Option CellId) (direction : Direction) :
    Nat → CellId → Option Bytes → source.Caches →
      Option (Option (CellId × Bytes × Bytes) × source.Caches)
  | 0, _, _, caches => some (none, caches)
  | fuel + 1, cell, prev, caches =>
      match source.table.nextEntry source.lastProcessed endCellExclusive direction cell prev
        caches with
      | none => none
      | some (none, caches) => some (none, caches)
      | some (some (cell, key, position), caches) =>
          match source.record key position with
          | some record => some (some (cell, record), caches)
          | none => nextEntryFrom endCellExclusive direction fuel cell (some key) caches

def nextEntry (endCellExclusive : Option CellId) (direction : Direction) (cell : CellId)
    (prev : Option Bytes) (caches : source.Caches) :
    Option (Option (CellId × Bytes × Bytes) × source.Caches) :=
  source.nextEntryFrom endCellExclusive direction source.table.steps cell prev caches

end IterationSource

/-! ## The iterator -/

structure DbIterator {blooms : BloomFilter Bytes} (source : IterationSource blooms) where
  cell : Option CellId
  prevKey : Option Bytes
  fullLowerBound : Option Bytes
  fullUpperBound : Option Bytes
  endCellExclusive : Option CellId
  reverse : Bool
  iterCache : source.Caches

inductive IteratorAction where
  | skip
  | stop
  deriving DecidableEq, Repr

namespace DbIterator

variable {blooms : BloomFilter Bytes} {source : IterationSource blooms}

def withKeyReduction (_ : DbIterator source) : Bool := source.keyIndexing.needCheckIndexKey

def new (source : IterationSource blooms) : DbIterator source :=
  ⟨some source.table.shape.firstCell, none, none, none, none, false, IterCaches.clear⟩

/-- The bounds of a hashed key space are refused. -/
def supportsIteratorBound (source : IterationSource blooms) : Bool :=
  source.keyIndexing ≠ .hash

/-- Set the inclusive lower bound. None is a panic. -/
def setLowerBound (iter : DbIterator source) (lower : Bytes) : Option (DbIterator source) :=
  if supportsIteratorBound source then
    (source.reduceKey lower).bind fun reduced =>
      if iter.reverse then
        (source.table.shape.cellId reduced).map fun cell =>
          let ending := { iter with
            endCellExclusive := source.table.nextCell cell .backward
            fullLowerBound := some lower
            iterCache := IterCaches.clear }
          if iter.fullUpperBound.isNone then
            { ending with cell := some source.table.shape.lastCell, prevKey := none }
          else ending
      else
        let nextKey := saturatedDecrementVec reduced
        (source.table.shape.cellId nextKey).map fun cell =>
          { iter with
            cell := some cell
            prevKey := if isNonzero nextKey || isNonzero reduced then some nextKey else none
            fullLowerBound := some lower
            iterCache := IterCaches.clear }
  else none

/-- Set the exclusive upper bound. None is a panic. -/
def setUpperBound (iter : DbIterator source) (upper : Bytes) : Option (DbIterator source) :=
  if supportsIteratorBound source then
    (source.reduceKey upper).bind fun reduced =>
      if iter.reverse then
        let nextKey := if iter.withKeyReduction then saturatedIncrementVec reduced else reduced
        (source.table.shape.cellId nextKey).map fun cell =>
          { iter with
            cell := some cell
            prevKey := if !iter.withKeyReduction || isNonmax nextKey then some nextKey else none
            fullUpperBound := some upper
            iterCache := IterCaches.clear }
      else
        (source.table.shape.cellId reduced).map fun cell =>
          { iter with
            endCellExclusive := source.table.nextCell cell .forward
            fullUpperBound := some upper
            iterCache := IterCaches.clear }
  else none

/-- Set the lower bound again, if there is one. -/
def resetLowerBound (iter : DbIterator source) : Option (DbIterator source) :=
  match iter.fullLowerBound with
  | some lower => { iter with fullLowerBound := none }.setLowerBound lower
  | none => some iter

def resetUpperBound (iter : DbIterator source) : Option (DbIterator source) :=
  match iter.fullUpperBound with
  | some upper => { iter with fullUpperBound := none }.setUpperBound upper
  | none => some iter

/-- Turn the iterator around. None is a panic. -/
def reversed (iter : DbIterator source) : Option (DbIterator source) :=
  if supportsIteratorBound source then
    let turned := { iter with
      reverse := !iter.reverse
      cell := if iter.fullUpperBound.isNone then some source.table.shape.lastCell else iter.cell
      iterCache := IterCaches.clear }
    turned.resetLowerBound.bind resetUpperBound
  else none

/-! ## Bounds -/

def isOutOfBound (iter : DbIterator source) (key : Bytes) (reverse : Bool) : Bool :=
  if reverse then iter.fullLowerBound.any fun lower => key < lower
  else iter.fullUpperBound.any fun upper => upper ≤ key

/-- Whether a key ends the iteration or is skipped. -/
def checkBounds (iter : DbIterator source) (key : Bytes) : Option IteratorAction :=
  if iter.withKeyReduction then
    if iter.isOutOfBound key iter.reverse then some .stop
    else if iter.isOutOfBound key (!iter.reverse) then some .skip
    else none
  else if iter.isOutOfBound key iter.reverse then some .stop
  else none

/-! ## Steps -/

def direction (iter : DbIterator source) : Direction := Direction.ofBool iter.reverse

/-- The check of the key given last, in front of a step. -/
def prevAction (iter : DbIterator source) : Option IteratorAction :=
  match iter.prevKey with
  | some prev => if iter.withKeyReduction then none else iter.checkBounds prev
  | none => none

/-- Try to give the next record, or what to do instead. None is a panic. -/
def tryNext (iter : DbIterator source) :
    Option (Except IteratorAction (Option (Bytes × Bytes)) × DbIterator source) :=
  match iter.cell with
  | none => some (.ok none, iter)
  | some cell =>
      let taken := { iter with cell := none, prevKey := none }
      match iter.prevAction with
      | some action => some (.error action, taken)
      | none =>
          (source.nextEntry iter.endCellExclusive iter.direction cell iter.prevKey
              iter.iterCache).bind fun (result, caches) =>
            let stepped := { taken with iterCache := caches }
            match result with
            | none => some (.ok none, stepped)
            | some (cell, key, value) =>
                (source.reduceKey key).map fun reduced =>
                  let placed := { stepped with cell := some cell, prevKey := some reduced }
                  match iter.checkBounds key with
                  | some action => (.error action, placed)
                  | none => (.ok (some (key, value)), placed)

/-- The next record. None is a panic. -/
def nextFrom : Nat → DbIterator source → Option (Option (Bytes × Bytes) × DbIterator source)
  | 0, iter => some (none, iter)
  | fuel + 1, iter =>
      match iter.tryNext with
      | none => none
      | some (.ok result, iter) => some (result, iter)
      | some (.error .stop, iter) => some (none, iter)
      | some (.error .skip, iter) => nextFrom fuel iter

def next (iter : DbIterator source) : Option (Option (Bytes × Bytes) × DbIterator source) :=
  nextFrom source.table.steps iter

/-- The records an iterator gives until it gives none. -/
def collectFrom : Nat → DbIterator source → Option (List (Bytes × Bytes))
  | 0, _ => some []
  | fuel + 1, iter =>
      match iter.next with
      | none => none
      | some (none, _) => some []
      | some (some record, iter) => (collectFrom fuel iter).map (record :: ·)

def collect (iter : DbIterator source) : Option (List (Bytes × Bytes)) :=
  collectFrom source.table.steps iter

end DbIterator

end Tidehunter.Iterators
