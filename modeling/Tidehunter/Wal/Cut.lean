import Tidehunter.Wal.LineageRuns

/-!
# A log cut at a byte

What ends in front of the cut is whole, everything else fails its checksum. A reader finds
the regions in front of the cut, and possibly the first frames of the batch the cut falls
into. The next writer starts at that batch and clears it, so whatever it writes, a later
reader finds the same regions followed by the new ones.
-/

namespace Tidehunter.Wal

open Library

variable {layout : WalLayout} {start stop : Nat}

/-- A log between two positions: regions one behind the other, and a skip marker it may
end in. -/
structure RegionChain (layout : WalLayout) (start : Nat) (regions : List Region)
    (dangling : List (Slot Nat)) (stop : Nat) : Prop where
  aligned : layout.Aligned start
  chain : Chained layout start (regions.flatMap Region.all ++ dangling) stop
  regions : ∀ region ∈ regions, region.Ok layout
  dangling : ∀ slot ∈ dangling, slot.item = .skipMarker

theorem Lineage.Ok.regionChain {log : Lineage} (ok : log.Ok layout) :
    RegionChain layout 0 log.regions log.dangling log.position :=
  ⟨Nat.dvd_zero _, ok.chain, ok.regions, ok.dangling⟩

/-! ## Cutting -/

/-- The item ends in front of a cut. -/
def Slot.endsBy (cut : Nat) (slot : Slot Nat) : Bool := decide (slot.offset + slot.item.len ≤ cut)

/-- What a cut leaves of a log. -/
def cutSlots (cut : Nat) (slots : List (Slot Nat)) : List (Slot Nat) :=
  slots.filter (Slot.endsBy cut)

/-- The regions in front of a cut. -/
def wholeRegions (cut : Nat) (regions : List Region) : List Region :=
  regions.takeWhile fun region => region.all.all (Slot.endsBy cut)

/-- The disk with a log from a position on, cut at a byte. -/
def cutDisk (layout : WalLayout) (start : Nat) (slots : List (Slot Nat)) (cut : Nat) : Disk Nat :=
  Disk.writeAll layout ⟨SortedMap.empty, [layout.locateFile start]⟩ (cutSlots cut slots)

theorem Chained.cutSlots_eq {slots : List (Slot Nat)} (chain : Chained layout start slots stop)
    (cut : Nat) : cutSlots cut slots = slots.takeWhile (Slot.endsBy cut) := by
  unfold cutSlots
  induction slots generalizing start with
  | nil => rfl
  | cons slot rest ih =>
      by_cases ends : slot.endsBy cut = true
      · rw [List.filter_cons_of_pos ends, List.takeWhile_cons_of_pos ends, ih chain.2.2.2]
      · rw [List.filter_cons_of_neg ends, List.takeWhile_cons_of_neg ends,
          List.filter_eq_nil_iff]
        intro other member
        have fits := chain.2.1.fits
        have behind := (chain.2.2.2.between other member).1
        simp only [Slot.endsBy, decide_eq_true_eq] at ends ⊢
        omega

/-- A cut leaves the front of a chain. -/
theorem Chained.cut {slots : List (Slot Nat)} (chain : Chained layout start slots stop)
    (cut : Nat) : ∃ lost, slots = cutSlots cut slots ++ lost ∧
      lost = slots.dropWhile (Slot.endsBy cut) :=
  ⟨_, by rw [chain.cutSlots_eq, List.takeWhile_append_dropWhile], rfl⟩

/-! ## Reading -/

/-- A reader of a disk that holds the front of a chain. -/
theorem recover_front {front lost : List (Slot Nat)}
    (chain : Chained layout start (front ++ lost) stop) {disk : Disk Nat}
    (exact : disk.Exactly (· ∈ front)) (filed : disk.Filed layout)
    (file : layout.locateFile start ∈ disk.files) :
    ∃ middle recovered, Chained layout start front middle ∧
      middle = (lost.head?.map Slot.offset).getD stop ∧
      recover layout disk start = some recovered ∧ recovered.frames = framesOf front ∧
      recovered.position = (OpenBatch.closed.run (framesOf front)).start.getD middle ∧
      recovered.disk.Filed layout ∧ layout.locateFile start ∈ recovered.disk.files ∧
      (layout.locate recovered.position = layout.locate middle →
        recovered.disk.Exactly fun slot => slot ∈ front ∧
          slot.offset + slot.item.len ≤ recovered.position) := by
  obtain ⟨middle, before, behind⟩ := chain.split
  have missing : disk.item middle = none := by
    refine exact.item_eq_none fun slot member here => ?_
    have ends := (before.between slot member).2
    have positive := (before.ok slot member).offset_lt_stop
    omega
  have isMiddle : middle = (lost.head?.map Slot.offset).getD stop := by
    cases lost with
    | nil => exact behind
    | cons first rest => exact behind.1.symm
  obtain ⟨recovered, isRecovered, frames, position, cleared⟩ :=
    recover_of_present filed before (fun slot member => exact.present member) missing file
  have kept : recovered.disk.Filed layout ∧ layout.locateFile start ∈ recovered.disk.files := by
    rcases cleared with wiped | ⟨same, _⟩
    · rw [wiped]
      exact ⟨filed.wipe _ _, file⟩
    · rw [same]
      exact ⟨filed, file⟩
  refine ⟨middle, recovered, before, isMiddle, isRecovered, frames, position, kept.1, kept.2,
    fun place => ?_⟩
  refine (exact.recovered filed (fun slot member => before.ok slot member) place cleared).congr
    fun slot => and_congr_right fun member => or_iff_left fun later => ?_
  -- Nothing of the front lies in a later fragment than its end.
  have ends := (before.between slot member).2
  have positive := (before.ok slot member).offset_lt_stop
  have inside := layout.lt_mapStart_locate middle
  rw [place] at later
  omega

/-- What is left of a log in front of a cut: whole regions, then skip markers, and the
first frames of a batch in the fragment of the first item lost. -/
theorem cutSlots_parts {regions : List Region} {dangling : List (Slot Nat)}
    (wal : RegionChain layout start regions dangling stop) (cut : Nat) :
    ∃ markers frames,
      cutSlots cut (regions.flatMap Region.all ++ dangling) =
        (wholeRegions cut regions).flatMap Region.all ++ (markers ++ frames) ∧
      (∀ slot ∈ markers, slot.item = .skipMarker) ∧
      (OpenBatch.closed.run (framesOf frames)).start = frames.head?.map Slot.offset ∧
      ∀ first ∈ frames.head?,
        (∃ lost ∈ ((regions.flatMap Region.all ++ dangling).dropWhile (Slot.endsBy cut)).head?,
          layout.locate first.offset = layout.locate lost.offset) ∧
        first.item ≠ .skipMarker ∧ ∃ region ∈ regions, ∃ missing,
          (framesOf frames).map (fun frame => frame.2.1) ++ missing = region.write.entries := by
  have ends : ∀ item ∈ dangling.map fun slot => (slot, slot.endsBy cut),
      item.1.item = .skipMarker := by
    intro item member
    obtain ⟨slot, inside, rfl⟩ := List.mem_map.mp member
    exact wal.dangling slot inside
  have same : ∀ region : Region,
      (region.all.map fun slot => (slot, slot.endsBy cut)).map Prod.fst = region.all := by
    intro region
    rw [List.map_map]
    exact List.map_id _
  obtain ⟨markers, frames, split, isMarker, batch, places⟩ :=
    kept_parts (fun region => region.all.map fun slot => (slot, slot.endsBy cut)) same wal.regions
      ends
  rw [← List.map_flatMap, ← List.map_append] at split places
  rw [List.takeWhile_map, List.map_map, List.map_id''] at split
  · refine ⟨markers, frames, ?_, isMarker, batch, fun first isFirst => ?_⟩
    · rw [wal.chain.cutSlots_eq]
      refine split.trans ?_
      simp [wholeRegions, Function.comp_def]
    · obtain ⟨⟨lost, isLost, place⟩, torn⟩ := places first isFirst
      refine ⟨?_, torn⟩
      rw [List.dropWhile_map, List.head?_map, Option.mem_def, Option.map_eq_some_iff] at isLost
      obtain ⟨slot, isSlot, rfl⟩ := isLost
      exact ⟨slot, isSlot, place⟩
  · exact fun _ => rfl

/-- What a reader finds of a log that was cut, and what it leaves to the next writer. -/
structure CutRead (layout : WalLayout) (start : Nat) (regions whole : List Region)
    (markers frames : List (Slot Nat)) (recovered : Recovered Nat) : Prop where
  /-- The regions in front of the cut are read, and the first frames of the next. -/
  read : recovered.frames = framesOf (whole.flatMap Region.all) ++ framesOf frames
  isMarker : ∀ slot ∈ markers, slot.item = .skipMarker
  /-- Those frames are the start of a batch. -/
  batch : (OpenBatch.closed.run (framesOf frames)).start = frames.head?.map Slot.offset
  torn : ∀ first ∈ frames.head?, first.item ≠ .skipMarker ∧ ∃ region ∈ regions, ∃ missing,
    (framesOf frames).map (fun frame => frame.2.1) ++ missing = region.write.entries
  /-- The writer starts behind the regions in front of the cut. -/
  chain : Chained layout start (whole.flatMap Region.all ++ markers) recovered.position
  /-- It starts at the start of that batch. -/
  position : ∀ first ∈ frames.head?, recovered.position = first.offset
  behind : ∀ slot ∈ frames, recovered.position ≤ slot.offset
  /-- The frames of the batch are gone. -/
  disk : recovered.disk.Exactly (· ∈ whole.flatMap Region.all ++ markers)
  filed : recovered.disk.Filed layout
  file : layout.locateFile start ∈ recovered.disk.files

theorem recover_cut {regions : List Region} {dangling : List (Slot Nat)}
    (wal : RegionChain layout start regions dangling stop) (cut : Nat) :
    ∃ recovered markers frames,
      recover layout (cutDisk layout start (regions.flatMap Region.all ++ dangling) cut) start =
        some recovered ∧
      CutRead layout start regions (wholeRegions cut regions) markers frames recovered := by
  obtain ⟨markers, frames, parts, isMarker, batch, places⟩ := cutSlots_parts wal cut
  obtain ⟨lost, split, isLost⟩ := wal.chain.cut cut
  have chain := wal.chain
  rw [split] at chain
  have exact : (cutDisk layout start (regions.flatMap Region.all ++ dangling) cut).Exactly
      (· ∈ cutSlots cut (regions.flatMap Region.all ++ dangling)) := by
    have nothing : (⟨SortedMap.empty, [layout.locateFile start]⟩ : Disk Nat).Exactly
        fun _ => False := fun _ _ => ⟨nofun, fun ⟨_, held, _⟩ => held.elim⟩
    have nodup := chain.nodup
    rw [List.map_append] at nodup
    refine (nothing.writeAll layout wal.chain.apart (fun slot member => ?_)
      (List.Nodup.of_append_left nodup) nofun nofun).congr fun slot => by rw [false_or]
    exact List.mem_of_mem_filter member
  have filed : (cutDisk layout start (regions.flatMap Region.all ++ dangling) cut).Filed layout :=
    Disk.Filed.writeAll (fun _ _ found => by cases found) _
  have file : layout.locateFile start ∈
      (cutDisk layout start (regions.flatMap Region.all ++ dangling) cut).files :=
    Disk.mem_files_writeAll layout List.mem_cons_self _
  obtain ⟨middle, recovered, upTo, isMiddle, isRecovered, read, position, filed, file, exactly⟩ :=
    recover_front chain exact filed file
  have whole : OpenBatch.closed.run (framesOf ((wholeRegions cut regions).flatMap Region.all)) =
      OpenBatch.closed :=
    run_regions fun region member => wal.regions region ((List.takeWhile_sublist _).subset member)
  rw [parts] at upTo exactly read position
  rw [framesOf_append, framesOf_append, framesOf_markers isMarker, List.nil_append] at read position
  rw [OpenBatch.run_append, whole, batch] at position
  rw [← List.append_assoc] at upTo exactly
  obtain ⟨cutAt, front, torn⟩ := upTo.split
  obtain rfl : recovered.position = cutAt := by
    rw [position]
    cases frames with
    | nil => exact torn.symm
    | cons first rest => exact torn.1
  have place : layout.locate recovered.position = layout.locate middle := by
    rw [position]
    cases frames with
    | nil => rfl
    | cons first rest =>
        obtain ⟨⟨slot, isSlot, place⟩, _⟩ := places first rfl
        rw [isMiddle, isLost, isSlot]
        exact place
  refine ⟨recovered, markers, frames, isRecovered, read, isMarker, batch,
    fun first isFirst => (places first isFirst).2, front, ?_, fun slot member => (torn.between slot member).1, ?_, filed, file⟩
  · intro first isFirst
    rw [position, isFirst]
    rfl
  · refine (exactly place).congr fun slot => ⟨fun both => ?_, fun member => ?_⟩
    · rcases List.mem_append.mp both.1 with kept | gone
      · exact kept
      · have reaches := (torn.between slot gone).1
        have positive := slot.item.len_pos
        omega
    · exact ⟨List.mem_append_left _ member,
        (front.ok slot member).fits.trans (front.between slot member).2⟩

/-! ## Writing on -/

/-- Regions written one after another from a position on; none where one is too large. -/
def layWrites (layout : WalLayout) (tag : Nat) : Nat → List WalWrite → Option (List Region × Nat)
  | position, [] => some ([], position)
  | position, write :: rest =>
      match multiWrite layout tag position write.entries with
      | none => none
      | some (slots, next) =>
          (layWrites layout tag next rest).map fun laid =>
            (⟨write, [], slots, false⟩ :: laid.1, laid.2)

theorem layWrites_chain {tag position : Nat} {writes : List WalWrite} {regions : List Region}
    (laid : layWrites layout tag position writes = some (regions, stop))
    {front : List (Slot Nat)} (aligned : layout.Aligned start)
    (chain : Chained layout start front position) :
    Chained layout start (front ++ regions.flatMap Region.all) stop := by
  induction writes generalizing position regions front with
  | nil =>
      cases laid
      rw [List.flatMap_nil, List.append_nil]
      exact chain
  | cons write rest ih =>
      rw [layWrites] at laid
      split at laid
      · cases laid
      · rename_i slots next written
        obtain ⟨⟨others, last⟩, later, same⟩ := Option.map_eq_some_iff.mp laid
        cases same
        have spec := multiWrite_spec tag (chain.aligned aligned) write.entries_ne_nil written
        have longer := ih later (chain.append spec.chain (spec.joined chain))
        rwa [List.append_assoc] at longer

/-- Whatever is written behind a log that was cut, and wherever the log is cut again, a
reader finds the regions in front of the first cut and then what is new. -/
theorem CutRead.recover_again {all whole : List Region} {markers frames : List (Slot Nat)}
    {recovered : Recovered Nat} (first : CutRead layout start all whole markers frames recovered)
    (aligned : layout.Aligned start) {tag : Nat} {writes : List WalWrite} {regions : List Region}
    (laid : layWrites layout tag recovered.position writes = some (regions, stop)) (cut : Nat) :
    ∃ again, recover layout
        (recovered.disk.writeAll layout (cutSlots cut (regions.flatMap Region.all))) start =
          some again ∧
      again.frames = framesOf (whole.flatMap Region.all) ++
        framesOf (cutSlots cut (regions.flatMap Region.all)) := by
  have chain := layWrites_chain laid aligned first.chain
  obtain ⟨middle, before, later⟩ := chain.split
  obtain rfl := first.chain.stop_unique before
  obtain ⟨lost, split, _⟩ := later.cut cut
  have nodup := later.nodup
  rw [split, List.map_append] at nodup
  have exact := first.disk.writeAll layout chain.apart
    (fun slot member => List.mem_append_right _ (List.mem_of_mem_filter member))
    (List.Nodup.of_append_left nodup) (fun slot member => List.mem_append_left _ member)
    (fun slot member other held same => by
      have low := (first.chain.between other held).2
      have positive := (first.chain.ok other held).offset_lt_stop
      have high := (later.between slot (List.mem_of_mem_filter member)).1
      omega)
  rw [split, ← List.append_assoc] at chain
  obtain ⟨_, again, _, _, isAgain, read, _⟩ := recover_front chain
    (exact.congr fun slot => List.mem_append.symm) (first.filed.writeAll _)
    (Disk.mem_files_writeAll layout first.file _)
  refine ⟨again, isAgain, ?_⟩
  rw [read, framesOf_append, framesOf_append, framesOf_markers first.isMarker, List.append_nil]

end Tidehunter.Wal
