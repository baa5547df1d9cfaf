import Tidehunter.Wal.Allocator
import Tidehunter.Wal.Frame

/-!
# The log as bytes

The log is one address space of bytes cut into fragments, of which some files exist. A call
lays its frames one behind the other in one allocation, with a skip marker in the gap it
leaves. An iterator that starts on such a trail follows the frames, jumps at the markers and
stops where nothing was written.
-/

namespace Tidehunter.Wal.Format

open Library

inductive WalError where
  | io
  | crc (error : CrcReadError)
  | endOfWal
  deriving DecidableEq, Repr

/-- The bytes of a log and its files. A map of a fragment shares the bytes of its file. -/
structure Space where
  byte : Nat → Byte
  files : List Nat

namespace Space

variable (layout : WalLayout) (space : Space)

/-- The bytes of a fragment. -/
def fragment (map : Nat) : Bytes := slice space.byte (layout.mapStart map) layout.fragSize

/-- Wait for the map of a position; its file exists by then. -/
def getWriteableMap (position : Nat) : Space :=
  { space with files := layout.fileForMap (layout.locate position) :: space.files }

def copyFromSlice (position : Nat) (bytes : Bytes) : Space :=
  { space with byte := writeAt space.byte position bytes }

def writeSkipMarker (position : Nat) : Space :=
  (space.getWriteableMap layout position).copyFromSlice position CrcFrame.skipMarker

/-- Mark the gap an allocation leaves and wait for the map it writes to. -/
def enter (result : AllocationResult) : Space :=
  let space := match result.needSkipMarker with
    | some marker => space.writeSkipMarker layout marker
    | none => space
  space.getWriteableMap layout result.allocatedPosition

end Space

/-! ## Writing -/

structure WalWriter where
  position : Nat
  space : Space

namespace WalWriter

variable (layout : WalLayout) (crc32 : Bytes → UInt32)

/-- Copy frames one behind the other. None is the panic on a frame that is too large. -/
def layFrames : Space → Nat → List Bytes → Option (Space × List WalPosition)
  | space, _, [] => some (space, [])
  | space, pos, frame :: rest =>
      if frame.length < CrcFrame.maxFrameSize then do
        let (space, positions) ←
          layFrames (space.copyFromSlice pos frame) (pos + layout.align frame.length) rest
        return (space, ⟨pos, frame.length⟩ :: positions)
      else none

def multiWrite (writer : WalWriter) (entries : List WalEntry) :
    Option (WalWriter × List WalPosition) := do
  let writes ← entries.mapM (prepare crc32)
  let lenAligned := (writes.map fun frame => layout.align frame.length).sum
  let result ← layout.allocate writer.position lenAligned
  let (space, positions) ←
    layFrames layout (writer.space.enter layout result) result.allocatedPosition writes
  return (⟨result.nextPosition, space⟩, positions)

/-- One call behind the other, with the position each entry got. -/
def writeAll : WalWriter → List (List WalEntry) → Option (WalWriter × List (WalPosition × WalEntry))
  | writer, [] => some (writer, [])
  | writer, entries :: rest => do
      let (writer, positions) ← multiWrite layout crc32 writer entries
      let (writer, later) ← writeAll writer rest
      return (writer, positions.zip entries ++ later)

end WalWriter

/-! ## Reading -/

structure WalIterator where
  position : Nat
  /-- The fragment mapped last. -/
  map : Nat
  skipCrc : Bool
  deriving DecidableEq, Repr

namespace WalIterator

variable (layout : WalLayout) (crc32 : Bytes → UInt32) (space : Space)

/-- An iterator from a position on; none is the panic on a file that does not exist. -/
def new (position : Nat) (skipCrc : Bool) : Option WalIterator :=
  if space.files.contains (layout.fileForMap (layout.locate position)) then
    some ⟨position, layout.locate position, skipCrc⟩
  else none

/-- Read the mapped fragment at the position. -/
def readMap (iterator : WalIterator) : Except WalError Bytes :=
  (CrcFrame.read crc32 iterator.skipCrc (space.fragment layout iterator.map)
    (iterator.position % layout.fragSize)).mapError .crc

def readOne (iterator : WalIterator) : WalIterator × Except WalError Bytes :=
  let map := layout.locate iterator.position
  if iterator.map = map then (iterator, iterator.readMap layout crc32 space)
  else if space.files.contains (layout.fileForMap map) then
    ({ iterator with map := map }, { iterator with map := map }.readMap layout crc32 space)
  else (iterator, .error .endOfWal)

def next (iterator : WalIterator) : WalIterator × Except WalError (WalPosition × Bytes) :=
  let (iterator, frame) := match readOne layout crc32 space iterator with
    | (iterator, .error (.crc .skipMarker)) =>
        readOne layout crc32 space
          { iterator with position := layout.mapStart (iterator.map + 1) }
    | (iterator, frame) => (iterator, frame)
  match frame with
  | .error error => (iterator, .error error)
  | .ok frame =>
      ({ iterator with
          position := iterator.position + layout.align (frame.length + crcHeaderLength) },
        .ok (⟨iterator.position, frame.length + crcHeaderLength⟩, frame))

/-- The frames read until a read fails, where the iterator is then, and why it stopped. -/
def scan : Nat → WalIterator → List (WalPosition × Bytes) × WalIterator × Option WalError
  | 0, iterator => ([], iterator, none)
  | fuel + 1, iterator =>
      match next layout crc32 space iterator with
      | (iterator, .error error) => ([], iterator, some error)
      | (iterator, .ok frame) =>
          let (frames, stopped, error) := scan fuel iterator
          (frame :: frames, stopped, error)

end WalIterator

/-- Read a part of a file; nothing when the file ends before. -/
def readExactAt (layout : WalLayout) (space : Space) (file offset len : Nat) : Option Bytes :=
  if offset + len ≤ layout.walFileSize then
    some (slice space.byte (layout.fileStart file + offset) len)
  else none

/-- Read the payload at a position, from the map of its fragment if there is one, otherwise
from its file. None is the panic on the invalid position. -/
def read (layout : WalLayout) (crc32 : Bytes → UInt32) (space : Space) (mapped : Nat → Bool)
    (pos : WalPosition) : Option (Except WalError (Option Bytes)) :=
  if pos = WalPosition.invalid then none
  else if mapped (layout.locate pos.offset) then
    some (((CrcFrame.readFromBytes crc32 (space.fragment layout (layout.locate pos.offset))
      (pos.offset % layout.fragSize)).mapError .crc).map some)
  else if space.files.contains (layout.locateFile pos.offset) then
    let bufferSize := if layout.directIo then layout.align pos.len else pos.len
    match readExactAt layout space (layout.locateFile pos.offset)
        (pos.offset % layout.walFileSize) bufferSize with
    | none => some (.error .io)
    | some buf =>
        some (((CrcFrame.readFromBytes crc32 (buf.take pos.len) 0).mapError .crc).map some)
  else some (.ok none)

/-! ## The trail of frames -/

/-- The frame of an entry is at an offset, whole and in one fragment. -/
structure FrameAt (layout : WalLayout) (crc32 : Bytes → UInt32) (space : Space) (offset : Nat)
    (payload : Bytes) (entry : WalEntry) : Prop where
  decodes : WalEntry.fromBytes payload = some entry
  aligned : layout.Aligned offset
  bytes : slice space.byte offset (payload.length + crcHeaderLength) =
    CrcFrame.new crc32 payload.length payload
  inside : offset + (payload.length + crcHeaderLength) ≤
    layout.mapStart (layout.locate offset + 1)
  small : payload.length + crcHeaderLength < CrcFrame.maxFrameSize
  file : layout.fileForMap (layout.locate offset) ∈ space.files

/-- A skip marker is at an offset. -/
structure MarkerAt (layout : WalLayout) (space : Space) (offset : Nat) : Prop where
  bytes : slice space.byte offset crcHeaderLength = CrcFrame.skipMarker
  inside : offset + crcHeaderLength ≤ layout.mapStart (layout.locate offset + 1)
  file : layout.fileForMap (layout.locate offset) ∈ space.files

/-- Frames one behind the other, from an offset to another; in front of a frame at the start
of a fragment there may be a skip marker in the fragment before. -/
inductive Trail (layout : WalLayout) (crc32 : Bytes → UInt32) (space : Space) :
    Nat → List (WalPosition × WalEntry) → Nat → Prop
  | nil (offset : Nat) : Trail layout crc32 space offset [] offset
  | cons {offset place stop : Nat} {payload : Bytes} {entry : WalEntry}
      {rest : List (WalPosition × WalEntry)}
      (reached : place = offset ∨
        MarkerAt layout space offset ∧ place = layout.mapStart (layout.locate offset + 1))
      (frame : FrameAt layout crc32 space place payload entry)
      (tail : Trail layout crc32 space
        (place + layout.align (payload.length + crcHeaderLength)) rest stop) :
      Trail layout crc32 space offset
        ((⟨place, payload.length + crcHeaderLength⟩, entry) :: rest) stop

section

variable {layout : WalLayout} {crc32 : Bytes → UInt32} {space other : Space}
  {offset middle stop : Nat} {items more : List (WalPosition × WalEntry)}

theorem Trail.append (first : Trail layout crc32 space offset items middle)
    (second : Trail layout crc32 space middle more stop) :
    Trail layout crc32 space offset (items ++ more) stop := by
  induction first with
  | nil _ => exact second
  | cons reached frame _ ih => exact Trail.cons reached frame (ih second)

theorem le_of_reached {place : Nat} (reached : place = offset ∨
    MarkerAt layout space offset ∧ place = layout.mapStart (layout.locate offset + 1)) :
    offset ≤ place := by
  rcases reached with rfl | ⟨_, rfl⟩
  · exact Nat.le_refl _
  · exact (layout.lt_mapStart_locate offset).le

theorem Trail.le (trail : Trail layout crc32 space offset items stop) : offset ≤ stop := by
  induction trail with
  | nil _ => exact Nat.le_refl _
  | cons reached frame _ ih =>
      have start := le_of_reached reached
      omega

/-- What lies in front of the end of a trail is all that it depends on. -/
theorem Trail.congr (trail : Trail layout crc32 space offset items stop)
    (same : ∀ address < stop, other.byte address = space.byte address)
    (files : ∀ file ∈ space.files, file ∈ other.files) :
    Trail layout crc32 other offset items stop := by
  induction trail with
  | nil offset => exact Trail.nil offset
  | @cons offset place stop payload entry rest reached frame tail ih =>
      have covered := layout.le_align (payload.length + crcHeaderLength)
      have end_le := tail.le
      refine Trail.cons ?_ ?_ (ih same)
      · refine reached.imp_right fun ⟨marker, jumped⟩ => ⟨⟨?_, marker.inside, ?_⟩, jumped⟩
        · have inside := marker.inside
          rw [← marker.bytes]
          exact slice_congr fun address _ before => same address (by omega)
        · exact files _ marker.file
      · refine ⟨frame.decodes, frame.aligned, ?_, frame.inside, frame.small, files _ frame.file⟩
        rw [← frame.bytes]
        exact slice_congr fun address _ before => same address (by omega)

/-! ## Reading a trail -/

/-- The rest of a fragment from an offset on. -/
theorem fragment_drop (layout : WalLayout) (space : Space) (offset : Nat) :
    (space.fragment layout (layout.locate offset)).drop (offset % layout.fragSize) =
      slice space.byte offset (layout.mapStart (layout.locate offset + 1) - offset) := by
  have division := Nat.div_add_mod offset layout.fragSize
  have remainder := Nat.mod_lt offset layout.fragSize_pos
  have start : layout.mapStart (layout.locate offset) + offset % layout.fragSize = offset := division
  have next : layout.mapStart (layout.locate offset + 1) =
      layout.mapStart (layout.locate offset) + layout.fragSize := Nat.mul_add_one _ _
  rw [Space.fragment, drop_slice remainder.le, start]
  congr 1
  omega

/-- Bytes that lie in one fragment are at the front of the rest of it. -/
theorem fragment_drop_of_slice {bytes : Bytes} {len : Nat}
    (found : slice space.byte offset len = bytes)
    (inside : offset + len ≤ layout.mapStart (layout.locate offset + 1)) :
    ∃ rest, (space.fragment layout (layout.locate offset)).drop (offset % layout.fragSize) =
      bytes ++ rest := by
  refine ⟨slice space.byte (offset + len)
    (layout.mapStart (layout.locate offset + 1) - offset - len), ?_⟩
  rw [fragment_drop, ← found, ← slice_add]
  congr 1
  omega

theorem FrameAt.nonempty {payload : Bytes} {entry : WalEntry}
    (frame : FrameAt layout crc32 space offset payload entry) : payload ≠ [] := by
  rintro rfl
  have decoded := frame.decodes
  cases decoded

theorem FrameAt.length_lt {payload : Bytes} {entry : WalEntry}
    (frame : FrameAt layout crc32 space offset payload entry) : payload.length < u32Max := by
  have small := frame.small
  rw [CrcFrame.maxFrameSize] at small
  rw [u32Max]
  omega

variable {iterator : WalIterator}

theorem readOne_eq
    (available : iterator.map = layout.locate iterator.position ∨
      layout.fileForMap (layout.locate iterator.position) ∈ space.files) :
    iterator.readOne layout crc32 space =
      ({ iterator with map := layout.locate iterator.position },
        { iterator with map := layout.locate iterator.position }.readMap layout crc32 space) := by
  unfold WalIterator.readOne
  by_cases same : iterator.map = layout.locate iterator.position
  · rw [← same]
    exact if_pos rfl
  · have present := available.resolve_left same
    simp only [if_neg same]
    exact if_pos (List.contains_iff_mem.mpr present)

theorem readOne_frame {payload : Bytes} {entry : WalEntry}
    (frame : FrameAt layout crc32 space iterator.position payload entry) :
    iterator.readOne layout crc32 space =
      ({ iterator with map := layout.locate iterator.position }, .ok payload) := by
  obtain ⟨rest, found⟩ := fragment_drop_of_slice frame.bytes frame.inside
  rw [readOne_eq (Or.inr frame.file), WalIterator.readMap,
    CrcFrame.read_new iterator.skipCrc frame.nonempty frame.length_lt found]
  rfl

theorem readOne_marker (marker : MarkerAt layout space iterator.position) :
    iterator.readOne layout crc32 space =
      ({ iterator with map := layout.locate iterator.position },
        .error (.crc .skipMarker)) := by
  obtain ⟨rest, found⟩ := fragment_drop_of_slice marker.bytes marker.inside
  rw [readOne_eq (Or.inr marker.file), WalIterator.readMap,
    CrcFrame.read_skipMarker iterator.skipCrc found]
  rfl

/-- The iterator gets to the next frame, over a skip marker or not. -/
theorem next_frame {place : Nat} {payload : Bytes} {entry : WalEntry}
    (reached : place = iterator.position ∨ MarkerAt layout space iterator.position ∧
      place = layout.mapStart (layout.locate iterator.position + 1))
    (frame : FrameAt layout crc32 space place payload entry) :
    iterator.next layout crc32 space =
      ({ iterator with
          position := place + layout.align (payload.length + crcHeaderLength)
          map := layout.locate place },
        .ok (⟨place, payload.length + crcHeaderLength⟩, payload)) := by
  unfold WalIterator.next
  rcases reached with rfl | ⟨marker, rfl⟩
  · rw [readOne_frame frame]
  · have jumped := @readOne_frame layout crc32 space
      ⟨layout.mapStart (layout.locate iterator.position + 1), layout.locate iterator.position,
        iterator.skipCrc⟩ payload entry frame
    rw [readOne_marker marker]
    simp only [jumped]

/-- Where nothing was written the iterator stops. -/
theorem next_unwritten (aligned : layout.Aligned iterator.position)
    (zeroed : ∀ address, iterator.position ≤ address → space.byte address = 0) :
    ∃ stopped error, iterator.next layout crc32 space = (stopped, .error error) ∧
      stopped.position = iterator.position ∧
      (error = .crc .crcMismatch ∨ error = .endOfWal) := by
  by_cases available : iterator.map = layout.locate iterator.position ∨
      layout.fileForMap (layout.locate iterator.position) ∈ space.files
  · have room : iterator.position + crcHeaderLength ≤
        layout.mapStart (layout.locate iterator.position + 1) :=
      aligned.add_header_le (layout.aligned_mapStart _) (layout.lt_mapStart_locate _)
    obtain ⟨rest, found⟩ := fragment_drop_of_slice
      (slice_of_zero fun address low _ => zeroed address low) room
    refine ⟨{ iterator with map := layout.locate iterator.position }, .crc .crcMismatch, ?_, rfl,
      Or.inl rfl⟩
    have failed : iterator.readOne layout crc32 space =
        ({ iterator with map := layout.locate iterator.position },
          .error (.crc .crcMismatch)) := by
      rw [readOne_eq available, WalIterator.readMap,
        CrcFrame.read_zeroed iterator.skipCrc found]
      rfl
    unfold WalIterator.next
    rw [failed]
  · obtain ⟨moved, missing⟩ := not_or.mp available
    refine ⟨iterator, .endOfWal, ?_, rfl, Or.inr rfl⟩
    have failed : iterator.readOne layout crc32 space = (iterator, .error .endOfWal) := by
      unfold WalIterator.readOne
      simp only [if_neg moved]
      exact if_neg fun present => missing (List.contains_iff_mem.mp present)
    unfold WalIterator.next
    rw [failed]

/-- A payload and its position as an iterator gives them, decoded. -/
def decodeFrame (frame : WalPosition × Bytes) : WalPosition × Option WalEntry :=
  (frame.1, WalEntry.fromBytes frame.2)

/-- An iterator on a trail reads it to its end and stops there. -/
theorem scan_trail (trail : Trail layout crc32 space offset items stop)
    (aligned : layout.Aligned stop)
    (zeroed : ∀ address, stop ≤ address → space.byte address = 0) {fuel : Nat}
    (enough : items.length < fuel) (start : iterator.position = offset) :
    ∃ frames stopped error, iterator.scan layout crc32 space fuel = (frames, stopped, some error) ∧
      frames.map decodeFrame = items.map (fun item => (item.1, some item.2)) ∧
      stopped.position = stop ∧ (error = .crc .crcMismatch ∨ error = .endOfWal) := by
  induction trail generalizing fuel iterator with
  | nil offset =>
      subst start
      obtain ⟨stopped, error, failed, kept, why⟩ :=
        @next_unwritten layout crc32 space iterator aligned zeroed
      cases fuel with
      | zero => cases enough
      | succ fuel =>
          refine ⟨[], stopped, error, ?_, rfl, kept, why⟩
          rw [WalIterator.scan, failed]
  | @cons offset place stop payload entry rest reached frame tail ih =>
      subst start
      have found := next_frame reached frame
      cases fuel with
      | zero => cases enough
      | succ fuel =>
          obtain ⟨frames, stopped, error, scanned, read, kept, why⟩ := @ih
            { iterator with
              position := place + layout.align (payload.length + crcHeaderLength)
              map := layout.locate place } aligned zeroed fuel (Nat.lt_of_succ_lt_succ enough) rfl
          refine ⟨(⟨place, payload.length + crcHeaderLength⟩, payload) :: frames, stopped, error, ?_,
            ?_, kept, why⟩
          · rw [WalIterator.scan, found]
            simp only [scanned]
          · rw [List.map_cons, List.map_cons, read, decodeFrame, frame.decodes]

/-! ## Reading one position -/

/-- A fragment lies in one file. -/
theorem mapStart_succ_le_fileStart_succ (layout : WalLayout) (offset : Nat) :
    layout.mapStart (layout.locate offset + 1) ≤
      layout.fileStart (layout.locateFile offset + 1) := by
  obtain ⟨count, size⟩ := Nat.dvd_of_mod_eq_zero layout.fragSize_dvd
  have before : offset < layout.fileStart (layout.locateFile offset + 1) :=
    layout.locateFile_lt_iff.mp (Nat.lt_succ_self _)
  have whole : layout.fileStart (layout.locateFile offset + 1) =
      layout.fragSize * (count * (layout.locateFile offset + 1)) := by
    rw [WalLayout.fileStart, size, Nat.mul_assoc]
  rw [whole] at before ⊢
  exact Nat.mul_le_mul_left _ (Nat.div_lt_of_lt_mul before)

/-- A frame that lies in one fragment has room in it for its aligned length. -/
theorem add_align_le_of_inside {len : Nat} (aligned : layout.Aligned offset)
    (inside : offset + len ≤ layout.mapStart (layout.locate offset + 1)) :
    offset + layout.align len ≤ layout.mapStart (layout.locate offset + 1) := by
  have room : layout.Aligned (layout.mapStart (layout.locate offset + 1) - offset) :=
    Nat.dvd_sub (layout.aligned_mapStart _) aligned
  have fits : layout.align len ≤
      layout.align (layout.mapStart (layout.locate offset + 1) - offset) :=
    Nat.mul_le_mul_right _ (Nat.div_le_div_right (by omega))
  rw [layout.align_of_aligned room] at fits
  have before := layout.lt_mapStart_locate offset
  omega

/-- A position of a frame is read, from a map or from the file. -/
theorem read_frame {payload : Bytes} {entry : WalEntry}
    (frame : FrameAt layout crc32 space offset payload entry) (mapped : Nat → Bool) :
    read layout crc32 space mapped ⟨offset, payload.length + crcHeaderLength⟩ =
      some (.ok (some payload)) := by
  have small := frame.small
  have valid : ¬(⟨offset, payload.length + crcHeaderLength⟩ : WalPosition) =
      WalPosition.invalid := by
    intro same
    have length := congrArg WalPosition.len same
    simp only [WalPosition.invalid, u32Max] at length
    rw [CrcFrame.maxFrameSize] at small
    omega
  have checked : ∀ {b rest : Bytes} {pos : Nat},
      b.drop pos = CrcFrame.new crc32 payload.length payload ++ rest →
        CrcFrame.readFromBytes crc32 b pos = .ok payload := fun found =>
    CrcFrame.read_new false frame.nonempty frame.length_lt found
  rw [read, if_neg valid]
  cases map : mapped (layout.locate offset) with
  | true =>
      obtain ⟨rest, found⟩ := fragment_drop_of_slice frame.bytes frame.inside
      simp only [if_true, checked found, Except.mapError, Except.map]
  | false =>
      have present : space.files.contains (layout.locateFile offset) = true := by
        rw [List.contains_iff_mem, ← layout.fileForMap_locate]
        exact frame.file
      have located : layout.fileStart (layout.locateFile offset) + offset % layout.walFileSize =
          offset := Nat.div_add_mod offset layout.walFileSize
      have covers : payload.length + crcHeaderLength ≤ (if layout.directIo then
          layout.align (payload.length + crcHeaderLength)
          else payload.length + crcHeaderLength) := by
        split
        · exact layout.le_align _
        · exact Nat.le_refl _
      have fits : offset + (if layout.directIo then
          layout.align (payload.length + crcHeaderLength)
          else payload.length + crcHeaderLength) ≤
          layout.fileStart (layout.locateFile offset + 1) := by
        refine le_trans ?_ (mapStart_succ_le_fileStart_succ layout offset)
        split
        · exact add_align_le_of_inside frame.aligned frame.inside
        · exact frame.inside
      generalize (if layout.directIo then layout.align (payload.length + crcHeaderLength)
          else payload.length + crcHeaderLength) = bufferSize at covers fits
      have next : layout.fileStart (layout.locateFile offset + 1) =
          layout.fileStart (layout.locateFile offset) + layout.walFileSize := Nat.mul_add_one _ _
      have whole : readExactAt layout space (layout.locateFile offset)
          (offset % layout.walFileSize) bufferSize =
            some (slice space.byte offset bufferSize) := by
        rw [readExactAt, if_pos (by omega), located]
      have front : (slice space.byte offset bufferSize).take
          (payload.length + crcHeaderLength) = CrcFrame.new crc32 payload.length payload := by
        rw [← frame.bytes, ← Nat.add_sub_cancel' covers, slice_add,
          List.take_left' (length_slice _ _)]
      have found := @checked (CrcFrame.new crc32 payload.length payload) [] 0
        (by rw [List.drop_zero, List.append_nil])
      simp only [Bool.false_eq_true, if_false, present, if_true, whole, front, found,
        Except.mapError, Except.map]

end

end Tidehunter.Wal.Format
