import Tidehunter.Library.SortedMap
import Tidehunter.Wal.Layout
import Mathlib

/-!
# The value log

The log maps offsets to frames. Files whose whole range lies below a watermark can be
reclaimed; a position in a reclaimed file is unreadable.
-/

namespace Tidehunter.Wal

open Library

abbrev Byte := Fin 256

instance neZero_byte : NeZero 256 := ⟨by decide⟩

abbrev Bytes := List Byte

/-- A user operation inside a batch: a write, or a remove when there is no value. -/
structure BatchOp where
  ks : Nat
  key : Bytes
  value : Option Bytes
  deriving DecidableEq, Repr

/-- The payload of a frame of the value log. -/
inductive WalEntry where
  | record (ks : Nat) (key value : Bytes) (relocated : Bool)
  | remove (ks : Nat) (key : Bytes)
  | batchStart (count : Nat)
  /-- A whole batch in one frame, with the length of its compressed body. -/
  | compressedBatch (inner : List BatchOp) (bodyLen : Nat)
  /-- A range of cells of a key space is dropped, with the length of the two cell ids. -/
  | dropCells (ks fromCell toCell : Nat) (cellsLen : Nat)
  deriving DecidableEq, Repr

namespace WalEntry

def recordLen (key value : Bytes) : Nat := 1 + 1 + 2 + key.length + value.length

def len : WalEntry → Nat
  | .record _ key value _ => recordLen key value
  | .remove _ key => 1 + 1 + key.length
  | .batchStart _ => 1 + 4
  | .compressedBatch _ bodyLen => 1 + 1 + 4 + bodyLen
  | .dropCells _ _ _ cellsLen => 1 + 1 + cellsLen

def isCompressedBatch : WalEntry → Bool
  | .record _ _ _ _ => false
  | .remove _ _ => false
  | .batchStart _ => false
  | .compressedBatch _ _ => true
  | .dropCells _ _ _ _ => false

end WalEntry

/-- Bytes of the header in front of every frame. -/
def crcHeaderLength : Nat := 8

theorem crcHeaderLength_pos : 0 < crcHeaderLength := by decide

/-- Length of the payload at a position. -/
def WalPosition.payloadLen (position : WalPosition) : Nat := position.len - crcHeaderLength

/-- The frame of a payload written at an offset. -/
def WalPosition.ofEntry (offset : Nat) (entry : WalEntry) : WalPosition :=
  ⟨offset, entry.len + crcHeaderLength⟩

structure Log where
  layout : WalLayout
  /-- The frames by offset. -/
  frames : SortedMap Nat WalEntry
  /-- End of the last allocation. -/
  position : Nat
  /-- The reclaimed files. -/
  removed : List Nat
  frames_lt : ∀ frame ∈ frames.entries, frame.1 < position
  removed_lt : ∀ file ∈ removed, file < layout.locateFile position
  position_le : position ≤ u64Max

namespace Log

/-- A log with nothing in it. -/
def new (layout : WalLayout) : Log where
  layout := layout
  frames := SortedMap.empty
  position := 0
  removed := []
  frames_lt := nofun
  removed_lt := nofun
  position_le := Nat.zero_le _

def isReachable (log : Log) (offset : Nat) : Bool :=
  !log.removed.contains (log.layout.locateFile offset)

/-- Read the frame at a position; nothing if its file was reclaimed. -/
def read (log : Log) (position : WalPosition) : Option WalEntry :=
  if log.isReachable position.offset then log.frames.lookup position.offset else none

/-- The oldest file still present. -/
def minFile (log : Log) : Nat :=
  ((List.range (log.removed.length + 1)).find? fun file => !log.removed.contains file).getD 0

def minWalPosition (log : Log) : Nat := log.layout.fileStart log.minFile

/-- Reclaim the files that end at or below the watermark. Files that still have a
writeable map are skipped; the file being written has one. -/
def gc (log : Log) (watermark : Nat) (mapped : List Nat) : Log :=
  { log with
    removed := log.removed ++
      (List.range (watermark / log.layout.walFileSize)).filter fun file =>
        !mapped.contains file && decide (file < log.layout.locateFile log.position)
    removed_lt := by
      intro file member
      rcases List.mem_append.mp member with old | fresh
      · exact log.removed_lt file old
      · have accepted := (List.mem_filter.mp fresh).2
        simp only [Bool.and_eq_true, decide_eq_true_eq] at accepted
        exact accepted.2 }

/-- The log with one more frame at its end. -/
def place (log : Log) (entry : WalEntry) (offset stop : Nat)
    (fits : log.position ≤ offset ∧ offset < stop ∧ stop ≤ u64Max) : Log where
  layout := log.layout
  frames := log.frames.insert offset entry
  position := stop
  removed := log.removed
  frames_lt := by
    intro frame member
    rcases SortedMap.mem_insertEntry member with rfl | old
    · exact fits.2.1
    · have below := log.frames_lt frame old
      omega
  removed_lt := by
    intro file member
    have below := log.removed_lt file member
    have ordered : log.layout.locateFile log.position ≤ log.layout.locateFile stop :=
      Nat.div_le_div_right (by omega)
    omega
  position_le := fits.2.2

/-- The log up to an offset: what is behind it is written again. -/
def cut (log : Log) (offset : Nat) : Log where
  layout := log.layout
  frames := log.frames.filter fun at_ _ => at_ < offset
  position := min offset log.position
  removed := log.removed.filter fun file => file < log.layout.locateFile (min offset log.position)
  frames_lt := by
    intro frame member
    have found := SortedMap.lookup_of_mem_entries member
    rw [SortedMap.lookup_filter, Option.filter_eq_some_iff, decide_eq_true_eq] at found
    exact lt_min found.2 (log.frames_lt _ (SortedMap.mem_entries_of_lookup found.1))
  removed_lt := by
    intro file member
    exact of_decide_eq_true (List.mem_filter.mp member).2
  position_le := (min_le_right _ _).trans log.position_le

/-- Write a frame at the end of the log. None is the panic on a frame that does not fit
in a fragment, or on the end of the address space. -/
def append (log : Log) (entry : WalEntry) : Option (Log × WalPosition) :=
  match log.layout.allocate log.position (entry.len + crcHeaderLength) with
  | none => none
  | some result =>
      if fits : log.position ≤ result.allocatedPosition ∧
          result.allocatedPosition < result.nextPosition ∧ result.nextPosition ≤ u64Max then
        some (log.place entry result.allocatedPosition result.nextPosition fits,
          WalPosition.ofEntry result.allocatedPosition entry)
      else none

/-! ## Reads across reclamation -/

theorem read_eq_some_iff {log : Log} {position : WalPosition} {entry : WalEntry} :
    log.read position = some entry ↔
      log.isReachable position.offset = true ∧ log.frames.lookup position.offset = some entry := by
  unfold read
  split <;> simp_all

theorem isReachable_of_gc {log : Log} {watermark offset : Nat} {mapped : List Nat}
    (reachable : (log.gc watermark mapped).isReachable offset = true) :
    log.isReachable offset = true := by
  simp only [isReachable, gc, Bool.not_eq_true', List.contains_eq_mem, decide_eq_false_iff_not,
    List.mem_append, not_or] at reachable ⊢
  exact reachable.1

theorem isReachable_gc_of_le {log : Log} {watermark offset : Nat} {mapped : List Nat}
    (reachable : log.isReachable offset = true) (above : watermark ≤ offset) :
    (log.gc watermark mapped).isReachable offset = true := by
  simp only [isReachable, gc, Bool.not_eq_true', List.contains_eq_mem, decide_eq_false_iff_not,
    List.mem_append, not_or, List.mem_filter, List.mem_range] at reachable ⊢
  refine ⟨reachable, fun removed => ?_⟩
  exact absurd removed.1 (Nat.not_lt.mpr (Nat.div_le_div_right above))

/-- Reclaiming only makes positions unreadable. -/
theorem read_gc (log : Log) (watermark : Nat) (mapped : List Nat) (position : WalPosition) :
    (log.gc watermark mapped).read position = none ∨
      (log.gc watermark mapped).read position = log.read position := by
  unfold read
  cases reachable : (log.gc watermark mapped).isReachable position.offset with
  | false => simp
  | true =>
      rw [isReachable_of_gc reachable]
      exact Or.inr rfl

theorem read_gc_of_le {log : Log} {watermark : Nat} (mapped : List Nat) {position : WalPosition}
    (above : watermark ≤ position.offset) :
    (log.gc watermark mapped).read position = log.read position := by
  unfold read
  cases reachable : log.isReachable position.offset with
  | true =>
      rw [isReachable_gc_of_le reachable above]
      rfl
  | false =>
      cases still : (log.gc watermark mapped).isReachable position.offset with
      | false => rfl
      | true =>
          rw [isReachable_of_gc still] at reachable
          cases reachable

/-- Nothing below the oldest file present is reachable. -/
theorem minWalPosition_le_of_isReachable {log : Log} {offset : Nat}
    (reachable : log.isReachable offset = true) : log.minWalPosition ≤ offset := by
  rw [minWalPosition, ← WalLayout.le_locateFile_iff, minFile]
  cases found : (List.range (log.removed.length + 1)).find? fun file =>
      !log.removed.contains file with
  | none => exact Nat.zero_le _
  | some file =>
      by_contra below
      rw [Nat.not_le] at below
      have earlier := (List.find?_range_eq_some.mp found).2.2 _ below
      rw [isReachable] at reachable
      rw [reachable] at earlier
      cases earlier

theorem lookup_lt {log : Log} {offset : Nat} {entry : WalEntry}
    (found : log.frames.lookup offset = some entry) : offset < log.position :=
  log.frames_lt _ (SortedMap.mem_entries_of_lookup found)

theorem isReachable_of_position_le {log : Log} {offset : Nat} (high : log.position ≤ offset) :
    log.isReachable offset = true := by
  have ordered : log.layout.locateFile log.position ≤ log.layout.locateFile offset :=
    Nat.div_le_div_right high
  simp only [isReachable, Bool.not_eq_true', List.contains_eq_mem, decide_eq_false_iff_not]
  intro removed
  have below := log.removed_lt _ removed
  omega

theorem minWalPosition_le_position (log : Log) : log.minWalPosition ≤ log.position :=
  minWalPosition_le_of_isReachable (isReachable_of_position_le (le_refl _))

/-! ## Growth -/

/-- A later state of a log that only had frames appended. -/
structure Extends (log later : Log) : Prop where
  layout : later.layout = log.layout
  removed : later.removed = log.removed
  position : log.position ≤ later.position
  frames : ∀ offset, offset < log.position → later.frames.lookup offset = log.frames.lookup offset

namespace Extends

variable {log middle later : Log}

theorem refl (log : Log) : log.Extends log := ⟨rfl, rfl, le_refl _, fun _ _ => rfl⟩

theorem trans (first : log.Extends middle) (second : middle.Extends later) : log.Extends later where
  layout := second.layout.trans first.layout
  removed := second.removed.trans first.removed
  position := first.position.trans second.position
  frames offset below :=
    (second.frames offset (lt_of_lt_of_le below first.position)).trans (first.frames offset below)

theorem isReachable (grown : log.Extends later) (offset : Nat) :
    later.isReachable offset = log.isReachable offset := by
  rw [Log.isReachable, grown.removed, grown.layout, Log.isReachable]

theorem read (grown : log.Extends later) {position : WalPosition}
    (below : position.offset < log.position) : later.read position = log.read position := by
  rw [Log.read, grown.isReachable, grown.frames _ below, Log.read]

theorem minWalPosition (grown : log.Extends later) :
    later.minWalPosition = log.minWalPosition := by
  rw [Log.minWalPosition, minFile, grown.removed, grown.layout, Log.minWalPosition, minFile]

/-- What was readable stays readable as the log grows. -/
theorem read_of_some (grown : log.Extends later) {position : WalPosition} {entry : WalEntry}
    (found : log.read position = some entry) : later.read position = some entry := by
  rw [grown.read (lookup_lt (read_eq_some_iff.mp found).2), found]

/-- The frames of a grown log are the old ones followed by those appended. -/
theorem entries (grown : log.Extends later) :
    later.frames.entries = log.frames.entries ++
      later.frames.entries.filter fun frame => log.position ≤ frame.1 :=
  SortedMap.entries_eq_append log.frames_lt grown.frames

/-- Reclaiming below the end of the shorter log takes the same files of both. -/
theorem gc (grown : log.Extends later) {watermark : Nat} (low : watermark ≤ log.position)
    (mapped : List Nat) : (log.gc watermark mapped).Extends (later.gc watermark mapped) where
  layout := grown.layout
  position := grown.position
  frames := grown.frames
  removed := by
    simp only [Log.gc, grown.removed, grown.layout]
    congr 1
    refine List.filter_congr fun file member => ?_
    have small : file < watermark / log.layout.walFileSize := List.mem_range.mp member
    have first : watermark / log.layout.walFileSize ≤ log.layout.locateFile log.position :=
      Nat.div_le_div_right low
    have second : watermark / log.layout.walFileSize ≤ log.layout.locateFile later.position :=
      Nat.div_le_div_right (low.trans grown.position)
    simp only [decide_eq_true (lt_of_lt_of_le small first),
      decide_eq_true (lt_of_lt_of_le small second)]

end Extends

theorem extends_place (log : Log) (entry : WalEntry) {offset stop : Nat}
    (fits : log.position ≤ offset ∧ offset < stop ∧ stop ≤ u64Max) :
    log.Extends (log.place entry offset stop fits) where
  layout := rfl
  removed := rfl
  position := by
    change log.position ≤ stop
    omega
  frames other below := SortedMap.lookup_insert_of_ne _ _ (by omega)

/-- An append adds one frame, at its position, at the end. -/
theorem append_spec {log later : Log} {entry : WalEntry} {position : WalPosition}
    (appended : log.append entry = some (later, position)) :
    log.Extends later ∧ position = WalPosition.ofEntry position.offset entry ∧
      log.position ≤ position.offset ∧ position.offset < later.position ∧
      later.read position = some entry ∧
      ∀ offset, log.position ≤ offset → offset ≠ position.offset →
        later.frames.lookup offset = none := by
  unfold append at appended
  split at appended
  · cases appended
  · rename_i result allocated
    split at appended
    · rename_i fits
      cases appended
      have grown := log.extends_place entry fits
      refine ⟨grown, rfl, fits.1, fits.2.1, read_eq_some_iff.mpr ⟨?_, ?_⟩, ?_⟩
      · rw [grown.isReachable]
        exact isReachable_of_position_le fits.1
      · exact SortedMap.lookup_insert_self _ _ _
      · intro offset high other
        refine (SortedMap.lookup_insert_of_ne _ _ other).trans ?_
        cases found : log.frames.lookup offset with
        | none => rfl
        | some held => exact absurd (lookup_lt found) (Nat.not_lt.mpr high)
    · cases appended

theorem entries_append {log later : Log} {entry : WalEntry} {position : WalPosition}
    (appended : log.append entry = some (later, position)) :
    later.frames.entries = log.frames.entries ++ [(position.offset, entry)] := by
  unfold append at appended
  split at appended
  · cases appended
  · split at appended
    · rename_i fits
      cases appended
      exact SortedMap.entries_insert_last _ _ fun frame member =>
        lt_of_lt_of_le (log.frames_lt frame member) fits.1
    · cases appended

end Log

end Tidehunter.Wal
