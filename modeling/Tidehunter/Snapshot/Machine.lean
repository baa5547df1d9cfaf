import Tidehunter.Flusher.Command
import Tidehunter.Library.Machine

/-!
# Snapshots over the index log

Flushes write index blobs to the index log and put them into the levels of their cells.
A snapshot walks the cells, stores the control region and deletes the index files it found
unused. Flushes, snapshots, the mapper that creates index files ahead of the writer, and
crashes interleave; a step is one critical section or one action of a thread.

Of a cell only the positions of its blobs are kept, and of a flush the positions it has
taken in the index log.
-/

namespace Tidehunter.Snapshot

open Library Wal Flusher

/-! ## State -/

/-- A flush under way. -/
structure Job where
  /-- Flushes are numbered in the order they are requested. -/
  id : Nat
  /-- A flush that keeps the row locked until it is done. -/
  sync : Bool
  /-- Places taken in the index log, not yet written. -/
  reserved : List WalPosition
  written : List WalPosition
  deriving DecidableEq, Repr

/-- The blobs a flush adds. -/
def Job.places (job : Job) : List WalPosition := job.reserved ++ job.written

/-- The blobs in the levels of a cell, and the flush that was requested last and is not
complete. -/
structure Cell where
  blobs : List WalPosition
  job : Option Job
  deriving DecidableEq, Repr

/-- A snapshot being taken: the position of the index writer at its start, and the number
of flushes requested by then. -/
structure Rebuild where
  preSnapshotIndexPos : Nat
  firstJob : Nat
  /-- The flushes requested before its barrier are complete. -/
  flushed : Bool
  deriving DecidableEq, Repr

/-- How far the snapshot that holds the control region's lock has come. -/
inductive Phase where
  | relocating
  | reading (data : List (List WalPosition))
  | decided (data : List (List WalPosition)) (toDelete : List Nat)
  | synced (data : List (List WalPosition)) (toDelete : List Nat)
  | stored (toDelete : List Nat)
  deriving DecidableEq, Repr

/-- The control region on disk: the blobs of each cell, whether its bytes were synced
before the rename that put it there, and the listed blobs that were not. -/
structure StoredRegion where
  data : List (List WalPosition)
  synced : Bool
  unsynced : List WalPosition
  deriving DecidableEq, Repr

structure Store where
  /-- The index files in the file map. -/
  files : List Nat
  /-- Files taken out of the file map and not yet unlinked. -/
  removed : List Nat
  /-- The fragment mapped last. -/
  mapped : Nat
  /-- The first fragment that is still mapped for writing. -/
  finalized : Nat
  /-- The end of the last allocation in the index log. -/
  position : Nat
  /-- Blobs whose bytes were not synced. -/
  unsynced : List WalPosition
  cells : Nat → Cell
  nextJob : Nat
  /-- Snapshots that do not hold the lock yet. -/
  rebuilds : List Rebuild
  active : Option (Rebuild × Phase)
  region : StoredRegion

/-! ## The index files -/

def currentFileId (files : List Nat) : Nat := files.foldl max 0

/-- Map a fragment; none is the panic on a missing file, or on a file that is not the next
one. -/
def makeMap (layout : WalLayout) (files : List Nat) (map : Nat) : Option (List Nat) :=
  let file := layout.fileForMap map
  if currentFileId files < file then
    if file = currentFileId files + 1 then some (file :: files) else none
  else if files.contains file then some files
  else none

/-- Map fragments one after another, as the writer advances. -/
def mapFragments (layout : WalLayout) (files : List Nat) (map : Nat) : Nat → Option (List Nat)
  | 0 => some files
  | more + 1 => (makeMap layout files map).bind fun files => mapFragments layout files (map + 1) more

def initialMapsBuffer : Nat := 2

/-- The last of some positions. -/
def lastPosition (places : List WalPosition) : Option WalPosition :=
  places.foldl (fun last place =>
    some (last.elim place fun last =>
      if last.offset < place.offset ∨ last.offset = place.offset ∧ last.len < place.len then place
      else last)) none

/-- Where the index writer starts when a control region is opened. -/
def writerStart (layout : WalLayout) (data : List (List WalPosition)) : Nat :=
  match lastPosition data.flatten with
  | some last => last.offset + layout.align last.len
  | none => 0

/-- The files a snapshot deletes: in front of its start and of its highest live file, and
without a live blob. -/
def filesToDelete (layout : WalLayout) (files : List Nat) (preSnapshotIndexPos : Nat)
    (data : List (List WalPosition)) : List Nat :=
  let liveFiles := data.flatten.map fun place => layout.locateFile place.offset
  match liveFiles.max? with
  | some maxLiveFile =>
      files.filter fun file =>
        decide (file < min (layout.locateFile preSnapshotIndexPos) maxLiveFile) &&
          !liveFiles.contains file
  | none => []

/-- The files of the fragments mapped for writing. -/
def mappedFiles (layout : WalLayout) (store : Store) : List Nat :=
  ((List.range (store.mapped + 1)).filter fun map => decide (store.finalized ≤ map)).map
    layout.fileForMap

/-! ## Steps -/

inductive Event where
  /-- A flush of an idle cell is requested. -/
  | request (cell : Nat) (sync : Bool)
  /-- A flush takes a place in the index log for a blob of some bytes. -/
  | allocate (cell len : Nat)
  /-- A flush writes the blob at its first open place. -/
  | copy (cell : Nat)
  /-- A flush completes with these blobs. -/
  | install (cell : Nat) (blobs : List WalPosition)
  /-- An idle cell is dropped. -/
  | drop (cell : Nat)
  /-- The mapper maps the next fragment. -/
  | mapNext
  /-- The mapper closes the first fragment that is mapped for writing. -/
  | finalize
  /-- The syncer syncs a closed fragment. -/
  | syncFragment (fragment : Nat)
  | beginRebuild
  /-- A snapshot passes the barrier it called when this many flushes were requested. -/
  | barrier (index queued : Nat)
  /-- A snapshot takes the lock. -/
  | lock (index : Nat)
  /-- The walk starts: at once, or behind a second barrier. -/
  | startReading (queued : Option Nat)
  | readCell
  | decide
  | fsync
  | store
  | delete
  | unlink (file : Nat)
  /-- A crash, and an open whose replay drops these cells. -/
  | crash (dropped : List Nat)

/-- A step that needs a condition. -/
def guarded (condition : Bool) (next : Store) : Option Store :=
  if condition then some next else none

theorem guarded_eq_some {condition : Bool} {next final : Store} :
    guarded condition next = some final ↔ condition = true ∧ next = final := by
  unfold guarded
  split <;> simp_all

namespace Store

/-- A new database: one empty index file. -/
def new : Store where
  files := [0]
  removed := []
  mapped := 0
  finalized := 0
  position := 0
  unsynced := []
  cells := fun _ => ⟨[], none⟩
  nextJob := 0
  rebuilds := []
  active := none
  region := ⟨[], true, []⟩

def setCell (store : Store) (cell : Nat) (content : Cell) : Store :=
  { store with cells := fun other => if other = cell then content else store.cells other }

def setJob (store : Store) (cell : Nat) (job : Job) : Store :=
  store.setCell cell { store.cells cell with job := some job }

/-- A property of every flush under way. -/
def allJobs (count : Nat) (store : Store) (holds : Job → Bool) : Bool :=
  (List.range count).all fun cell => (store.cells cell).job.all holds

/-- The flushes that were requested first are complete; those under a row lock are not in
the queue of the flusher. -/
def passesBarrier (count : Nat) (store : Store) (queued : Nat) : Bool :=
  store.allJobs count fun job => job.sync || decide (queued ≤ job.id)

/-- Open the database again from its files and its control region; none is the panic on a
missing file. -/
def reopen (layout : WalLayout) (store : Store) (dropped : List Nat) : Option Store :=
  let start := writerStart layout store.region.data
  let disk := store.files ++ store.removed
  guarded (disk.contains (layout.locateFile start))
    { store with
      files := disk
      removed := []
      mapped := layout.locate start
      finalized := layout.locate start
      position := start
      cells := fun cell =>
        ⟨if dropped.contains cell then [] else store.region.data.getD cell [], none⟩
      nextJob := 0
      rebuilds := []
      active := none }

end Store

/-- One step of the threads of a database with a number of cells. -/
def step (layout : WalLayout) (count : Nat) (store : Store) : Event → Option Store
  | .request cell sync =>
      guarded (decide (cell < count) && (store.cells cell).job.isNone)
        { store.setJob cell ⟨store.nextJob, sync, [], []⟩ with nextJob := store.nextJob + 1 }
  | .allocate cell len =>
      (store.cells cell).job.bind fun job =>
        (layout.allocate store.position (len + indexFrameOverhead)).map fun result =>
          { store.setJob cell
              { job with
                reserved := job.reserved ++ [⟨result.allocatedPosition, len + indexFrameOverhead⟩] }
            with position := result.nextPosition }
  | .copy cell =>
      (store.cells cell).job.bind fun job =>
        job.reserved.head?.bind fun place =>
          guarded (decide (layout.locate place.offset ≤ store.mapped))
            { store.setJob cell
                { job with reserved := job.reserved.tail, written := job.written ++ [place] } with
              unsynced := place :: store.unsynced }
  | .install cell blobs =>
      (store.cells cell).job.bind fun job =>
        guarded (job.reserved.isEmpty &&
            blobs.all ((store.cells cell).blobs ++ job.written).contains)
          (store.setCell cell ⟨blobs, none⟩)
  | .drop cell => guarded (store.cells cell).job.isNone (store.setCell cell ⟨[], none⟩)
  | .mapNext =>
      (makeMap layout store.files (store.mapped + 1)).bind fun files =>
        guarded (decide (store.mapped < store.finalized + initialMapsBuffer))
          { store with files := files, mapped := store.mapped + 1 }
  | .finalize =>
      guarded (decide (store.mapped = store.finalized + initialMapsBuffer) &&
          decide (store.finalized < layout.locate store.position) &&
          store.allJobs count fun job =>
            job.reserved.all fun place => decide (layout.locate place.offset ≠ store.finalized))
        { store with finalized := store.finalized + 1 }
  | .syncFragment fragment =>
      guarded (decide (fragment < store.finalized))
        { store with
          unsynced := store.unsynced.filter fun place =>
            decide (layout.locate place.offset ≠ fragment) }
  | .beginRebuild =>
      some { store with rebuilds := ⟨store.position, store.nextJob, false⟩ :: store.rebuilds }
  | .barrier index queued =>
      store.rebuilds[index]?.bind fun rebuild =>
        guarded (decide (rebuild.firstJob ≤ queued) && decide (queued ≤ store.nextJob) &&
            store.passesBarrier count queued)
          { store with rebuilds := store.rebuilds.set index { rebuild with flushed := true } }
  | .lock index =>
      store.rebuilds[index]?.bind fun rebuild =>
        guarded (rebuild.flushed && store.active.isNone)
          { store with
            rebuilds := store.rebuilds.eraseIdx index
            active := some (rebuild, .relocating) }
  | .startReading queued =>
      match store.active with
      | some (rebuild, .relocating) =>
          guarded (queued.all fun queued =>
              decide (queued ≤ store.nextJob) && store.passesBarrier count queued)
            { store with active := some (rebuild, .reading []) }
      | _ => none
  | .readCell =>
      match store.active with
      | some (rebuild, .reading data) =>
          guarded (decide (data.length < count) &&
              (store.cells data.length).job.all fun job => !job.sync)
            { store with
              active := some (rebuild, .reading (data ++ [(store.cells data.length).blobs])) }
      | _ => none
  | .decide =>
      match store.active with
      | some (rebuild, .reading data) =>
          guarded (decide (data.length = count))
            { store with
              active := some (rebuild, .decided data
                (filesToDelete layout store.files rebuild.preSnapshotIndexPos data)) }
      | _ => none
  | .fsync =>
      match store.active with
      | some (rebuild, .decided data toDelete) =>
          some { store with
            unsynced := store.unsynced.filter fun place =>
              decide (layout.locateFile place.offset ≠ currentFileId store.files)
            active := some (rebuild, .synced data toDelete) }
      | _ => none
  | .store =>
      match store.active with
      | some (rebuild, .synced data toDelete) =>
          some { store with
            -- The new file is written and renamed; nothing syncs its bytes.
            region := ⟨data, false, data.flatten.filter store.unsynced.contains⟩
            active := some (rebuild, .stored toDelete) }
      | _ => none
  | .delete =>
      match store.active with
      | some (_, .stored toDelete) =>
          let actual := toDelete.filter fun file =>
            store.files.contains file && !(mappedFiles layout store).contains file
          some { store with
            files := store.files.filter fun file => !actual.contains file
            removed := store.removed ++ actual
            active := none }
      | _ => none
  | .unlink file => some { store with removed := store.removed.filter fun other => other ≠ file }
  | .crash dropped => store.reopen layout dropped

/-- What each step did. -/
inductive Stepped (layout : WalLayout) (count : Nat) (store : Store) : Event → Store → Prop where
  | request {cell : Nat} {sync : Bool} (inside : cell < count)
      (idle : (store.cells cell).job = none) :
      Stepped layout count store (.request cell sync)
        { store.setJob cell ⟨store.nextJob, sync, [], []⟩ with nextJob := store.nextJob + 1 }
  | allocate {cell len : Nat} {job : Job} {result : AllocationResult}
      (isJob : (store.cells cell).job = some job)
      (allocated : layout.allocate store.position (len + indexFrameOverhead) = some result) :
      Stepped layout count store (.allocate cell len)
        { store.setJob cell
            { job with
              reserved := job.reserved ++ [⟨result.allocatedPosition, len + indexFrameOverhead⟩] }
          with position := result.nextPosition }
  | copy {cell : Nat} {job : Job} {place : WalPosition} {rest : List WalPosition}
      (isJob : (store.cells cell).job = some job) (reserved : job.reserved = place :: rest)
      (isMapped : layout.locate place.offset ≤ store.mapped) :
      Stepped layout count store (.copy cell)
        { store.setJob cell { job with reserved := rest, written := job.written ++ [place] } with
          unsynced := place :: store.unsynced }
  | install {cell : Nat} {blobs : List WalPosition} {job : Job}
      (isJob : (store.cells cell).job = some job) (written : job.reserved = [])
      (known : ∀ place ∈ blobs, place ∈ (store.cells cell).blobs ∨ place ∈ job.written) :
      Stepped layout count store (.install cell blobs) (store.setCell cell ⟨blobs, none⟩)
  | drop {cell : Nat} (idle : (store.cells cell).job = none) :
      Stepped layout count store (.drop cell) (store.setCell cell ⟨[], none⟩)
  | mapNext {files : List Nat} (made : makeMap layout store.files (store.mapped + 1) = some files)
      (room : store.mapped < store.finalized + initialMapsBuffer) :
      Stepped layout count store .mapNext { store with files := files, mapped := store.mapped + 1 }
  | finalize : Stepped layout count store .finalize { store with finalized := store.finalized + 1 }
  | syncFragment {fragment : Nat} (closed : fragment < store.finalized) :
      Stepped layout count store (.syncFragment fragment)
        { store with
          unsynced := store.unsynced.filter fun place =>
            decide (layout.locate place.offset ≠ fragment) }
  | beginRebuild : Stepped layout count store .beginRebuild
      { store with rebuilds := ⟨store.position, store.nextJob, false⟩ :: store.rebuilds }
  | barrier {index queued : Nat} {rebuild : Rebuild} (found : store.rebuilds[index]? = some rebuild)
      (first : rebuild.firstJob ≤ queued) (passes : store.passesBarrier count queued = true) :
      Stepped layout count store (.barrier index queued)
        { store with rebuilds := store.rebuilds.set index { rebuild with flushed := true } }
  | lock {index : Nat} {rebuild : Rebuild} (found : store.rebuilds[index]? = some rebuild)
      (flushed : rebuild.flushed = true) (free : store.active = none) :
      Stepped layout count store (.lock index)
        { store with
          rebuilds := store.rebuilds.eraseIdx index
          active := some (rebuild, .relocating) }
  | startReading {queued : Option Nat} {rebuild : Rebuild}
      (active : store.active = some (rebuild, .relocating)) :
      Stepped layout count store (.startReading queued)
        { store with active := some (rebuild, .reading []) }
  | readCell {rebuild : Rebuild} {data : List (List WalPosition)}
      (active : store.active = some (rebuild, .reading data)) (more : data.length < count)
      (unlocked : ∀ job, (store.cells data.length).job = some job → job.sync = false) :
      Stepped layout count store .readCell
        { store with
          active := some (rebuild, .reading (data ++ [(store.cells data.length).blobs])) }
  | decide {rebuild : Rebuild} {data : List (List WalPosition)}
      (active : store.active = some (rebuild, .reading data)) (all : data.length = count) :
      Stepped layout count store .decide
        { store with
          active := some (rebuild, .decided data
            (filesToDelete layout store.files rebuild.preSnapshotIndexPos data)) }
  | fsync {rebuild : Rebuild} {data : List (List WalPosition)} {toDelete : List Nat}
      (active : store.active = some (rebuild, .decided data toDelete)) :
      Stepped layout count store .fsync
        { store with
          unsynced := store.unsynced.filter fun place =>
            Decidable.decide (layout.locateFile place.offset ≠ currentFileId store.files)
          active := some (rebuild, .synced data toDelete) }
  | store {rebuild : Rebuild} {data : List (List WalPosition)} {toDelete : List Nat}
      (active : store.active = some (rebuild, .synced data toDelete)) :
      Stepped layout count store .store
        { store with
          region := ⟨data, false, data.flatten.filter store.unsynced.contains⟩
          active := some (rebuild, .stored toDelete) }
  | delete {rebuild : Rebuild} {toDelete actual : List Nat}
      (active : store.active = some (rebuild, .stored toDelete))
      (chosen : actual = toDelete.filter fun file =>
        store.files.contains file && !(mappedFiles layout store).contains file) :
      Stepped layout count store .delete
        { store with
          files := store.files.filter fun file => !actual.contains file
          removed := store.removed ++ actual
          active := none }
  | unlink {file : Nat} : Stepped layout count store (.unlink file)
      { store with removed := store.removed.filter fun other => other ≠ file }
  | crash {dropped : List Nat} {next : Store} (reopened : store.reopen layout dropped = some next) :
      Stepped layout count store (.crash dropped) next

theorem stepped_of_step {layout : WalLayout} {count : Nat} {store next : Store} {event : Event}
    (ran : step layout count store event = some next) : Stepped layout count store event next := by
  cases event with
  | request cell sync =>
      obtain ⟨allowed, rfl⟩ := guarded_eq_some.mp ran
      rw [Bool.and_eq_true, decide_eq_true_eq, Option.isNone_iff_eq_none] at allowed
      exact .request allowed.1 allowed.2
  | allocate cell len =>
      obtain ⟨job, isJob, rest⟩ := Option.bind_eq_some_iff.mp ran
      obtain ⟨result, allocated, rfl⟩ := Option.map_eq_some_iff.mp rest
      exact .allocate isJob allocated
  | copy cell =>
      obtain ⟨job, isJob, rest⟩ := Option.bind_eq_some_iff.mp ran
      obtain ⟨place, isFirst, last⟩ := Option.bind_eq_some_iff.mp rest
      obtain ⟨allowed, rfl⟩ := guarded_eq_some.mp last
      exact .copy isJob (List.eq_cons_of_mem_head? isFirst) (of_decide_eq_true allowed)
  | install cell blobs =>
      obtain ⟨job, isJob, rest⟩ := Option.bind_eq_some_iff.mp ran
      obtain ⟨allowed, rfl⟩ := guarded_eq_some.mp rest
      rw [Bool.and_eq_true, List.isEmpty_iff, List.all_eq_true] at allowed
      exact .install isJob allowed.1 fun place member =>
        List.mem_append.mp (List.contains_iff_mem.mp (allowed.2 place member))
  | drop cell =>
      obtain ⟨allowed, rfl⟩ := guarded_eq_some.mp ran
      exact .drop (Option.isNone_iff_eq_none.mp allowed)
  | mapNext =>
      obtain ⟨files, made, rest⟩ := Option.bind_eq_some_iff.mp ran
      obtain ⟨allowed, rfl⟩ := guarded_eq_some.mp rest
      exact .mapNext made (of_decide_eq_true allowed)
  | finalize =>
      obtain ⟨_, rfl⟩ := guarded_eq_some.mp ran
      exact .finalize
  | syncFragment fragment =>
      obtain ⟨allowed, rfl⟩ := guarded_eq_some.mp ran
      exact .syncFragment (of_decide_eq_true allowed)
  | beginRebuild =>
      cases ran
      exact .beginRebuild
  | barrier index queued =>
      obtain ⟨rebuild, found, rest⟩ := Option.bind_eq_some_iff.mp ran
      obtain ⟨allowed, rfl⟩ := guarded_eq_some.mp rest
      simp only [Bool.and_eq_true, decide_eq_true_eq] at allowed
      exact .barrier found allowed.1.1 allowed.2
  | lock index =>
      obtain ⟨rebuild, found, rest⟩ := Option.bind_eq_some_iff.mp ran
      obtain ⟨allowed, rfl⟩ := guarded_eq_some.mp rest
      rw [Bool.and_eq_true, Option.isNone_iff_eq_none] at allowed
      exact .lock found allowed.1 allowed.2
  | startReading queued =>
      simp only [step] at ran
      split at ran
      · rename_i isActive
        obtain ⟨_, rfl⟩ := guarded_eq_some.mp ran
        exact .startReading isActive
      · cases ran
  | readCell =>
      simp only [step] at ran
      split at ran
      · rename_i isActive
        obtain ⟨allowed, rfl⟩ := guarded_eq_some.mp ran
        rw [Bool.and_eq_true, decide_eq_true_eq] at allowed
        refine .readCell isActive allowed.1 fun job isJob => ?_
        have unlocked := allowed.2
        rwa [isJob, Option.all_some, Bool.not_eq_true'] at unlocked
      · cases ran
  | decide =>
      simp only [step] at ran
      split at ran
      · rename_i isActive
        obtain ⟨allowed, rfl⟩ := guarded_eq_some.mp ran
        exact .decide isActive (of_decide_eq_true allowed)
      · cases ran
  | fsync =>
      simp only [step] at ran
      split at ran
      · rename_i isActive
        cases ran
        exact .fsync isActive
      · cases ran
  | store =>
      simp only [step] at ran
      split at ran
      · rename_i isActive
        cases ran
        exact .store isActive
      · cases ran
  | delete =>
      simp only [step] at ran
      split at ran
      · rename_i isActive
        cases ran
        exact .delete isActive rfl
      · cases ran
  | unlink file =>
      cases ran
      exact .unlink
  | crash dropped => exact .crash ran

end Tidehunter.Snapshot
