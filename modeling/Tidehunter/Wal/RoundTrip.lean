import Tidehunter.Wal.ByteLog

/-!
# What is written is read back

One call extends the trail of frames on zeroed space by the frames of its entries; so after
any number of calls an iterator from the first position gives back all entries with the
positions they got, and stops at the end of the last one.
-/

namespace Tidehunter.Wal.Format

open Library

variable {layout : WalLayout} {crc32 : Bytes → UInt32}

/-- The bytes an entry takes in the log. -/
def frameLen (layout : WalLayout) (entry : WalEntry) : Nat :=
  layout.align (entry.len + crcHeaderLength)

/-- The bytes entries take one behind the other. -/
def framesLen (layout : WalLayout) (entries : List WalEntry) : Nat :=
  (entries.map (frameLen layout)).sum

@[simp]
theorem framesLen_cons (layout : WalLayout) (entry : WalEntry) (rest : List WalEntry) :
    framesLen layout (entry :: rest) = frameLen layout entry + framesLen layout rest := by
  rw [framesLen, List.map_cons, List.sum_cons, framesLen]

/-- A call that can be made: at least one entry, all of them encodable, with frames that are
not too large and fit in a fragment together. -/
structure Writable (layout : WalLayout) (entries : List WalEntry) : Prop where
  nonempty : entries ≠ []
  encodable : ∀ entry ∈ entries, entry.Encodable
  small : ∀ entry ∈ entries, entry.len + crcHeaderLength < CrcFrame.maxFrameSize
  fits : framesLen layout entries ≤ layout.fragSize

theorem aligned_framesLen (layout : WalLayout) (entries : List WalEntry) :
    layout.Aligned (framesLen layout entries) := by
  induction entries with
  | nil => exact Nat.dvd_zero _
  | cons entry rest ih =>
      rw [framesLen_cons]
      exact Nat.dvd_add (layout.aligned_align _) ih

theorem Writable.framesLen_pos {entries : List WalEntry} (writable : Writable layout entries) :
    0 < framesLen layout entries := by
  cases entries with
  | nil => exact absurd rfl writable.nonempty
  | cons entry rest =>
      have covers := layout.le_align (entry.len + crcHeaderLength)
      have header := crcHeaderLength_pos
      rw [framesLen_cons, frameLen]
      omega

/-- A payload is what an entry was written as. -/
def Encodes (payload : Bytes) (entry : WalEntry) : Prop :=
  payload.length = entry.len ∧ WalEntry.fromBytes payload = some entry

/-- The frames of entries: those of payloads that decode to them. -/
theorem exists_mapM_prepare {entries : List WalEntry}
    (encodable : ∀ entry ∈ entries, entry.Encodable) :
    ∃ payloads : List Bytes,
      entries.mapM (prepare crc32) = some (payloads.map fun payload =>
        CrcFrame.new crc32 payload.length payload) ∧
      List.Forall₂ Encodes payloads entries := by
  induction entries with
  | nil => exact ⟨[], rfl, List.Forall₂.nil⟩
  | cons entry rest ih =>
      obtain ⟨payload, prepared, length, decodes⟩ :=
        @exists_prepare crc32 entry (encodable entry List.mem_cons_self)
      obtain ⟨payloads, mapped, related⟩ :=
        ih fun other member => encodable other (List.mem_cons_of_mem _ member)
      refine ⟨payload :: payloads, ?_, List.Forall₂.cons ⟨length, decodes⟩ related⟩
      rw [List.mapM_cons, prepared, mapped]
      rfl

/-- The aligned lengths of the frames add up to those of the entries. -/
theorem sum_align_frames {payloads : List Bytes} {entries : List WalEntry}
    (related : List.Forall₂ Encodes payloads entries) :
    ((payloads.map fun payload => CrcFrame.new crc32 payload.length payload).map
      fun frame => layout.align frame.length).sum = framesLen layout entries := by
  induction related with
  | nil => rfl
  | cons head _ ih =>
      rw [List.map_cons, List.map_cons, List.sum_cons, ih, CrcFrame.length_new, head.1,
        framesLen_cons, frameLen]

/-- Laying frames in a fragment makes a trail, and changes nothing outside. -/
theorem layFrames_spec {payloads : List Bytes} {entries : List WalEntry}
    (related : List.Forall₂ Encodes payloads entries)
    (small : ∀ entry ∈ entries, entry.len + crcHeaderLength < CrcFrame.maxFrameSize)
    {space : Space} {pos map : Nat} (file : layout.fileForMap map ∈ space.files)
    (aligned : layout.Aligned pos) (low : layout.mapStart map ≤ pos)
    (high : pos + framesLen layout entries ≤ layout.mapStart (map + 1)) :
    ∃ after positions, WalWriter.layFrames layout space pos (payloads.map fun payload =>
        CrcFrame.new crc32 payload.length payload) = some (after, positions) ∧
      positions.length = entries.length ∧ after.files = space.files ∧
      (∀ address, address < pos → after.byte address = space.byte address) ∧
      (∀ address, pos + framesLen layout entries ≤ address →
        after.byte address = space.byte address) ∧
      ∀ offset, (pos = offset ∨ entries ≠ [] ∧ MarkerAt layout after offset ∧
          pos = layout.mapStart (layout.locate offset + 1)) →
        Trail layout crc32 after offset (positions.zip entries)
          (pos + framesLen layout entries) := by
  induction related generalizing space pos with
  | nil =>
      refine ⟨space, [], rfl, rfl, rfl, fun _ _ => rfl, fun _ _ => rfl, fun offset reached => ?_⟩
      rcases reached with rfl | ⟨nonempty, -⟩
      · exact Trail.nil pos
      · exact absurd rfl nonempty
  | @cons payload entry payloads entries head related ih =>
      obtain ⟨length, decodes⟩ := head
      rw [framesLen_cons] at high ⊢
      have frameSmall := small entry List.mem_cons_self
      rw [← length] at frameSmall
      have whole : frameLen layout entry = layout.align (payload.length + crcHeaderLength) := by
        rw [frameLen, length]
      have covers := layout.le_align (payload.length + crcHeaderLength)
      have here : layout.locate pos = map := layout.locate_eq_iff.mpr
        ⟨low, by rw [whole] at high; have header := crcHeaderLength_pos; omega⟩
      obtain ⟨after, positions, laid, count, files, before, behind, trail⟩ :=
        @ih (fun other member => small other (List.mem_cons_of_mem _ member))
          (space.copyFromSlice pos (CrcFrame.new crc32 payload.length payload))
          (pos + frameLen layout entry) file
          (Nat.dvd_add aligned (layout.aligned_align _)) (by omega) (by omega)
      have frame : FrameAt layout crc32 after pos payload entry := by
        refine ⟨decodes, aligned, ?_, by rw [here]; omega, frameSmall, ?_⟩
        · rw [← @CrcFrame.length_new crc32 payload.length payload]
          refine Eq.trans (slice_congr fun address _ inside => ?_)
            (@slice_writeAt space.byte pos _)
          rw [CrcFrame.length_new] at inside
          exact before address (by omega)
        · rw [here, files]
          exact file
      refine ⟨after, ⟨pos, payload.length + crcHeaderLength⟩ :: positions, ?_, ?_, files, ?_, ?_, ?_⟩
      · rw [List.map_cons, WalWriter.layFrames, CrcFrame.length_new, if_pos frameSmall, ← whole, laid]
        rfl
      · rw [List.length_cons, List.length_cons, count]
      · intro address low
        rw [before address (by omega)]
        exact writeAt_of_lt _ low
      · intro address high
        rw [behind address (by omega)]
        refine writeAt_of_le ?_
        rw [CrcFrame.length_new]
        omega
      · intro offset reached
        rw [← Nat.add_assoc]
        refine Trail.cons (reached.imp_right And.right) frame ?_
        rw [← whole]
        exact trail _ (Or.inl rfl)

/-- A writer at the end of what was written: aligned, with zeroed space in front of it. -/
structure WalWriter.Ready (layout : WalLayout) (writer : WalWriter) : Prop where
  aligned : layout.Aligned writer.position
  zeroed : ∀ address, writer.position ≤ address → writer.space.byte address = 0

/-- The space a call writes its frames to: the marker in the gap is all that changed. -/
theorem enter_spec {writer : WalWriter} (ready : writer.Ready layout) {len : Nat}
    (positive : 0 < len) {result : AllocationResult}
    (allocated : layout.allocate writer.position len = some result) :
    let space := writer.space.enter layout result
    (∀ file ∈ writer.space.files, file ∈ space.files) ∧
      layout.fileForMap (layout.locate result.allocatedPosition) ∈ space.files ∧
      (∀ address, address < writer.position → space.byte address = writer.space.byte address) ∧
      (∀ address, result.allocatedPosition ≤ address → space.byte address = 0) ∧
      (result.allocatedPosition = writer.position ∨ MarkerAt layout space writer.position ∧
        result.allocatedPosition = layout.mapStart (layout.locate writer.position + 1)) := by
  obtain ⟨previous, ordered, -⟩ := WalLayout.allocate_spec allocated
  have placed := layout.placed_of_allocate ready.aligned positive allocated
  by_cases moved : result.previousPosition = result.allocatedPosition
  · have noMarker : result.needSkipMarker = none := if_neg (not_not.mpr moved)
    rw [Space.enter, noMarker]
    refine ⟨fun file member => List.mem_cons_of_mem _ member, List.mem_cons_self,
      fun _ _ => rfl, fun address high => ready.zeroed address (by omega), Or.inl ?_⟩
    rw [← moved, previous]
  · have marker : result.needSkipMarker = some result.previousPosition := if_pos moved
    obtain ⟨-, same, room⟩ := placed.gap _ marker
    have next := placed.starts.resolve_left (Ne.symm moved)
    rw [Space.enter, marker]
    rw [previous] at room next ⊢
    refine ⟨fun file member => List.mem_cons_of_mem _ (List.mem_cons_of_mem _ member),
      List.mem_cons_self, fun address low => writeAt_of_lt _ low, fun address high => ?_,
      Or.inr ⟨⟨?_, ?_, List.mem_cons_of_mem _ List.mem_cons_self⟩, next⟩⟩
    · have gap : writer.position + CrcFrame.skipMarker.length ≤ address := by
        have wide : CrcFrame.skipMarker.length = crcHeaderLength := rfl
        omega
      exact (writeAt_of_le gap).trans (ready.zeroed address (by omega))
    · exact @slice_writeAt writer.space.byte writer.position CrcFrame.skipMarker
    · rw [← next]
      exact room

/-- A call that can be made succeeds, and extends what was written by its entries. -/
theorem multiWrite_spec {writer : WalWriter} (ready : writer.Ready layout)
    {entries : List WalEntry} (writable : Writable layout entries) :
    ∃ after positions, writer.multiWrite layout crc32 entries = some (after, positions) ∧
      positions.length = entries.length ∧ after.Ready layout ∧
      (∀ file ∈ writer.space.files, file ∈ after.space.files) ∧
      (∀ address, address < writer.position →
        after.space.byte address = writer.space.byte address) ∧
      Trail layout crc32 after.space writer.position (positions.zip entries) after.position := by
  obtain ⟨payloads, prepared, related⟩ := @exists_mapM_prepare crc32 entries writable.encodable
  have total := @sum_align_frames layout crc32 _ _ related
  have positive := writable.framesLen_pos
  have whole : layout.align (framesLen layout entries) = framesLen layout entries :=
    layout.align_of_aligned (aligned_framesLen layout entries)
  obtain ⟨result, allocated⟩ :
      ∃ result, layout.allocate writer.position (framesLen layout entries) = some result :=
    ⟨_, if_pos (whole.le.trans writable.fits)⟩
  obtain ⟨previous, ordered, taken⟩ := WalLayout.allocate_spec allocated
  have placed := layout.placed_of_allocate ready.aligned positive allocated
  have inside := (WalLayout.allocate_place allocated).2
  have stop : result.nextPosition = result.allocatedPosition + framesLen layout entries := by
    rw [AllocationResult.nextPosition, taken, whole]
  obtain ⟨files, file, below, above, reached⟩ := enter_spec ready positive allocated
  obtain ⟨after, positions, laid, count, sameFiles, before, behind, trail⟩ :=
    @layFrames_spec layout crc32 _ _ related writable.small _ result.allocatedPosition
      (layout.locate result.allocatedPosition) file placed.aligned
      (layout.mapStart_locate_le _) (stop ▸ inside)
  refine ⟨⟨result.nextPosition, after⟩, positions, ?_, count, ⟨placed.aligned_next, ?_⟩, ?_, ?_, ?_⟩
  · rw [WalWriter.multiWrite, prepared]
    simp only [Option.bind_eq_bind, Option.bind_some, total, allocated, laid]
    rfl
  · intro address high
    have outside : result.allocatedPosition + framesLen layout entries ≤ address := stop ▸ high
    exact (behind address outside).trans (above address (by omega))
  · intro name member
    rw [sameFiles]
    exact files name member
  · intro address low
    exact (before address (by omega)).trans (below address low)
  · rw [stop]
    refine trail _ (reached.imp_right fun both => ⟨writable.nonempty, ⟨?_, ?_, ?_⟩, both.2⟩)
    all_goals have marker := both.1
    · have room := marker.inside
      rw [← marker.bytes]
      exact slice_congr fun address _ inside => before address (by omega)
    · exact marker.inside
    · rw [sameFiles]
      exact marker.file

/-- Any number of calls. -/
theorem writeAll_spec {batches : List (List WalEntry)}
    (writable : ∀ entries ∈ batches, Writable layout entries) {writer : WalWriter}
    (ready : writer.Ready layout) :
    ∃ after written, writer.writeAll layout crc32 batches = some (after, written) ∧
      written.map Prod.snd = batches.flatten ∧ after.Ready layout ∧
      (∀ file ∈ writer.space.files, file ∈ after.space.files) ∧
      (∀ address, address < writer.position →
        after.space.byte address = writer.space.byte address) ∧
      Trail layout crc32 after.space writer.position written after.position := by
  induction batches generalizing writer with
  | nil => exact ⟨writer, [], rfl, rfl, ready, fun _ member => member, fun _ _ => rfl, Trail.nil _⟩
  | cons entries rest ih =>
      obtain ⟨middle, positions, wrote, count, middleReady, files, below, trail⟩ :=
        @multiWrite_spec layout crc32 writer ready entries (writable _ List.mem_cons_self)
      obtain ⟨after, later, wroteRest, entered, afterReady, moreFiles, moreBelow, restTrail⟩ :=
        ih (fun other member => writable other (List.mem_cons_of_mem _ member)) middleReady
      have forward := trail.le
      refine ⟨after, positions.zip entries ++ later, ?_, ?_, afterReady,
        fun file member => moreFiles file (files file member), ?_,
        (trail.congr moreBelow moreFiles).append restTrail⟩
      · simp only [WalWriter.writeAll, wrote, wroteRest, Option.bind_eq_bind, Option.bind_some]
        rfl
      · rw [List.map_append, entered, List.map_snd_zip count.ge, List.flatten_cons]
      · intro address low
        exact (moreBelow address (by omega)).trans (below address low)

/-- Every item of a trail is a frame on disk. -/
theorem Trail.frame_of_mem {space : Space} {offset stop : Nat}
    {items : List (WalPosition × WalEntry)} (trail : Trail layout crc32 space offset items stop)
    {item : WalPosition × WalEntry} (member : item ∈ items) :
    ∃ payload, FrameAt layout crc32 space item.1.offset payload item.2 ∧
      item.1.len = payload.length + crcHeaderLength := by
  induction trail with
  | nil => cases member
  | cons reached frame tail ih =>
      rcases List.mem_cons.mp member with rfl | later
      · exact ⟨_, frame, rfl⟩
      · exact ih later

/-- Whatever the checksum function is: calls on zeroed space succeed, an iterator from the
first position gives back the entries with the positions they got, in order, and stops at the
end of the last one, and every position is read back, from a map or from its file. -/
theorem roundTrip (crc32 : Bytes → UInt32) {layout : WalLayout} {writer : WalWriter}
    (aligned : layout.Aligned writer.position)
    (zeroed : ∀ address, writer.position ≤ address → writer.space.byte address = 0)
    (mapped : layout.fileForMap (layout.locate writer.position) ∈ writer.space.files)
    {batches : List (List WalEntry)} (writable : ∀ entries ∈ batches, Writable layout entries) :
    ∃ after written, writer.writeAll layout crc32 batches = some (after, written) ∧
      written.map Prod.snd = batches.flatten ∧
      (∀ skipCrc fuel, written.length < fuel → ∃ iterator frames stopped error,
        WalIterator.new layout after.space writer.position skipCrc = some iterator ∧
        iterator.scan layout crc32 after.space fuel = (frames, stopped, some error) ∧
        frames.map decodeFrame = written.map (fun item => (item.1, some item.2)) ∧
        stopped.position = after.position ∧
        (∀ address, after.position ≤ address → after.space.byte address = 0)) ∧
      ∀ item ∈ written, ∀ maps, ∃ payload,
        read layout crc32 after.space maps item.1 = some (.ok (some payload)) ∧
        WalEntry.fromBytes payload = some item.2 := by
  obtain ⟨after, written, wrote, entered, ready, files, -, trail⟩ :=
    @writeAll_spec layout crc32 batches writable writer ⟨aligned, zeroed⟩
  refine ⟨after, written, wrote, entered, fun skipCrc fuel enough => ?_, fun item member maps => ?_⟩
  · obtain ⟨frames, stopped, error, scanned, read, kept, -⟩ := @scan_trail layout crc32 after.space
      _ _ _ ⟨writer.position, layout.locate writer.position, skipCrc⟩ trail ready.aligned
      ready.zeroed fuel enough rfl
    exact ⟨_, frames, stopped, error, if_pos (List.contains_iff_mem.mpr (files _ mapped)), scanned,
      read, kept, ready.zeroed⟩
  · obtain ⟨payload, frame, length⟩ := trail.frame_of_mem member
    refine ⟨payload, ?_, frame.decodes⟩
    obtain ⟨⟨offset, len⟩, entry⟩ := item
    simp only at frame length
    rw [length]
    exact read_frame frame maps

/-- A writer at the start of the second fragment, on zeroed space. -/
def zeroedWriter : WalWriter := ⟨64, fun _ => 0, [1]⟩

/-- A batch and a cell drop, which does not fit behind it in the fragment. -/
def twoCalls : List (List WalEntry) :=
  [[.batchStart 1, .record 3 [1, 2] [9] false], [.dropCells 3 (.integer 4) (.bytes [7, 8])]]

theorem writable_twoCalls : ∀ entries ∈ twoCalls, Writable WalLayout.small entries := by
  intro entries member
  simp only [twoCalls, List.mem_cons, List.not_mem_nil, or_false] at member
  rcases member with rfl | rfl
  · refine ⟨by decide, ?_, by decide, by decide⟩
    simp [WalEntry.Encodable, u16Max]
  · refine ⟨by decide, ?_, by decide, by decide⟩
    simp [WalEntry.Encodable, CellId.Encodable, u16Max]

theorem roundTrip_twoCalls :
    ∃ after written, zeroedWriter.writeAll WalLayout.small (fun _ => 5) twoCalls =
        some (after, written) ∧
      written.map Prod.snd = twoCalls.flatten ∧
      (∀ skipCrc fuel, written.length < fuel → ∃ iterator frames stopped error,
        WalIterator.new WalLayout.small after.space zeroedWriter.position skipCrc = some iterator ∧
        iterator.scan WalLayout.small (fun _ => 5) after.space fuel =
          (frames, stopped, some error) ∧
        frames.map decodeFrame = written.map (fun item => (item.1, some item.2)) ∧
        stopped.position = after.position ∧
        (∀ address, after.position ≤ address → after.space.byte address = 0)) ∧
      ∀ item ∈ written, ∀ maps, ∃ payload,
        read WalLayout.small (fun _ => 5) after.space maps item.1 = some (.ok (some payload)) ∧
        WalEntry.fromBytes payload = some item.2 :=
  roundTrip (fun _ => 5) ⟨8, rfl⟩ (fun _ _ => rfl) (by decide) writable_twoCalls

/-! ## Calls that cannot be made -/

/-- The call panics on a frame that is too large. -/
theorem multiWrite_of_large {writer : WalWriter} {entry : WalEntry} (encodable : entry.Encodable)
    (large : CrcFrame.maxFrameSize ≤ entry.len + crcHeaderLength) :
    writer.multiWrite layout crc32 [entry] = none := by
  obtain ⟨payload, prepared, length, -⟩ := @exists_prepare crc32 entry encodable
  have refused : ¬(CrcFrame.new crc32 payload.length payload).length < CrcFrame.maxFrameSize := by
    rw [CrcFrame.length_new, length]
    omega
  simp only [WalWriter.multiWrite, List.mapM_cons, List.mapM_nil, prepared, Option.bind_eq_bind,
    Option.bind_some, Option.pure_def, WalWriter.layFrames, if_neg refused]
  cases layout.allocate writer.position _ <;> rfl

/-- A layout with one fragment of two gibibytes to a file. -/
def largeLayout : WalLayout where
  fragSize := 2 ^ 31
  walFileSize := 2 ^ 31
  directIo := false
  fragSize_pos := by decide
  fragSize_small := by decide
  fragSize_aligned := by decide
  walFileSize_pos := by decide
  fragSize_dvd := by decide

/-- Calls without entries at the start of a fragment skip whole fragments, and behind two skip
markers in a row nothing is read any more; and an entry of a gibibyte fits in a fragment but
is not written. -/
theorem roundTrip_fails_empty_and_large :
    ((zeroedWriter.writeAll WalLayout.small (fun _ => 5) [[], [], [.batchStart 1]]).any
      fun (after, written) =>
        decide (written = [(⟨192, 13⟩, .batchStart 1)]) &&
        ((WalIterator.new WalLayout.small after.space 64 false).any fun iterator =>
          decide (iterator.scan WalLayout.small (fun _ => 5) after.space 3 =
            ([], ⟨128, 2, false⟩, some (.crc .skipMarker))))) = true ∧
      framesLen largeLayout [.remove 0 (List.replicate (2 ^ 30) 0)] ≤ largeLayout.fragSize ∧
      WalWriter.writeAll largeLayout (fun _ => 5) ⟨0, fun _ => 0, [0]⟩
        [[.remove 0 (List.replicate (2 ^ 30) 0)]] = none := by
  have len : (WalEntry.remove 0 (List.replicate (2 ^ 30) 0)).len = 2 + 2 ^ 30 := by
    rw [WalEntry.len, List.length_replicate]
  refine ⟨by decide +kernel, ?_, ?_⟩
  · rw [framesLen_cons, frameLen, len]
    decide
  · have encodable : (WalEntry.remove 0 (List.replicate (2 ^ 30) 0)).Encodable := trivial
    rw [WalWriter.writeAll, multiWrite_of_large encodable (by rw [len]; decide)]
    rfl

end Tidehunter.Wal.Format
