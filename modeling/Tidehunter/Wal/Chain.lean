import Tidehunter.Wal.Disk
import Mathlib

/-!
# Items one behind the other

Allocations follow each other without holes: a frame starts where the item before it
ends, and a skip marker leads to the start of the next fragment. A reader that starts in
such a chain follows it up to the first item that is not on disk.
-/

namespace Tidehunter.Wal

open Library

variable {T : Type}

/-! ## What one call writes -/

/-- The frame of an operation in a batch. -/
def BatchOp.entry (op : BatchOp) : WalEntry :=
  match op.value with
  | some value => .record op.ks op.key value false
  | none => .remove op.ks op.key

/-- What is written to the log in one allocation. -/
inductive WalWrite where
  | record (ks : Nat) (key value : Bytes) (relocated : Bool)
  | remove (ks : Nat) (key : Bytes)
  | dropCells (ks fromCell toCell : Nat) (cellsLen : Nat)
  | compressedBatch (inner : List BatchOp) (bodyLen : Nat)
  /-- A batch that is not empty. -/
  | batch (first : BatchOp) (rest : List BatchOp)
  deriving DecidableEq, Repr

/-- The frames of a write: a batch is announced by the number of its operations. -/
def WalWrite.entries : WalWrite → List WalEntry
  | .record ks key value relocated => [.record ks key value relocated]
  | .remove ks key => [.remove ks key]
  | .dropCells ks fromCell toCell cellsLen => [.dropCells ks fromCell toCell cellsLen]
  | .compressedBatch inner bodyLen => [.compressedBatch inner bodyLen]
  | .batch first rest => .batchStart (rest.length + 1) :: (first :: rest).map BatchOp.entry

theorem WalWrite.entries_ne_nil (write : WalWrite) : write.entries ≠ [] := by
  cases write <;> simp [entries]

/-! ## Batches in the frames read -/

namespace OpenBatch

variable {frames : List (Nat × WalEntry × T)}

theorem run_append (batch : OpenBatch) (first second : List (Nat × WalEntry × T)) :
    batch.run (first ++ second) = (batch.run first).run second :=
  List.foldl_append

/-- Inside a batch the frames are counted, whatever they are. -/
theorem run_inside {remaining : Nat} (start : Option Nat) (fewer : frames.length < remaining) :
    (⟨remaining, start⟩ : OpenBatch).run frames = ⟨remaining - frames.length, start⟩ := by
  induction frames generalizing remaining with
  | nil => rfl
  | cons frame rest ih =>
      rw [List.length_cons] at fewer
      have inside : 0 < remaining := by omega
      have more : remaining ≠ 1 := by omega
      have counted : (⟨remaining - 1, start⟩ : OpenBatch).run rest = _ := ih (by omega)
      simp only [run, List.foldl_cons, step, inside, if_true, more, if_false] at counted ⊢
      rw [counted, List.length_cons, Nat.sub_sub, Nat.add_comm 1]

theorem run_through {remaining : Nat} (start : Option Nat) (all : frames.length = remaining + 1) :
    (⟨remaining + 1, start⟩ : OpenBatch).run frames = closed := by
  obtain ⟨most, last, rfl⟩ : ∃ most last, frames = most ++ [last] := by
    rcases List.eq_nil_or_concat frames with rfl | ⟨most, last, isLast⟩
    · cases all
    · exact ⟨most, last, by rw [isLast, List.concat_eq_append]⟩
  rw [List.length_append, List.length_singleton, Nat.add_right_cancel_iff] at all
  rw [run_append, run_inside start (by omega), all, Nat.add_sub_cancel_left]
  rfl

/-- Behind a whole write no batch is open. -/
theorem run_write {write : WalWrite} (whole : frames.map (fun frame => frame.2.1) = write.entries) :
    closed.run frames = closed := by
  cases write with
  | batch first rest =>
      cases frames with
      | nil => cases whole
      | cons frame others =>
          obtain ⟨offset, entry, tag⟩ := frame
          simp only [List.map_cons, WalWrite.entries, List.cons.injEq] at whole
          obtain ⟨rfl, tail⟩ := whole
          have count := congrArg List.length tail
          simp only [List.length_map, List.length_cons] at count
          exact run_through (some offset) count
  | _ =>
      obtain ⟨⟨offset, entry, tag⟩, rfl, isEntry⟩ := List.map_eq_singleton_iff.mp whole
      simp only at isEntry
      subst isEntry
      rfl

/-- Inside a write a batch is open from its first frame on. -/
theorem run_torn {write : WalWrite} {missing : List WalEntry}
    (torn : frames.map (fun frame => frame.2.1) ++ missing = write.entries) (lost : missing ≠ [])
    {first : Nat × WalEntry × T} (isFirst : frames.head? = some first) :
    (closed.run frames).start = some first.1 := by
  cases frames with
  | nil => cases isFirst
  | cons frame others =>
      cases isFirst
      obtain ⟨offset, entry, tag⟩ := first
      cases write with
      | batch opening rest =>
          simp only [List.map_cons, List.cons_append, WalWrite.entries, List.cons.injEq] at torn
          obtain ⟨rfl, tail⟩ := torn
          have count := congrArg List.length tail
          have positive := List.length_pos_of_ne_nil lost
          simp only [List.length_append, List.length_map, List.length_cons] at count
          have inside := run_inside (some offset) (show others.length < rest.length + 1 by omega)
          change (OpenBatch.run ⟨rest.length + 1, some offset⟩ others).start = _
          rw [inside]
      | _ =>
          simp only [List.map_cons, List.cons_append, WalWrite.entries, List.cons.injEq,
            List.append_eq_nil_iff] at torn
          exact absurd torn.2.2 lost

end OpenBatch

/-! ## Slots -/

/-- An item at its place in the log. -/
structure Slot (T : Type) where
  offset : Nat
  item : DiskItem
  tag : T
  deriving DecidableEq, Repr

namespace Slot

variable (layout : WalLayout) (slot : Slot T)

/-- Where the log goes on behind the item. -/
def stop : Nat :=
  match slot.item with
  | .frame _ => slot.offset + layout.align slot.item.len
  | .skipMarker => layout.mapStart (layout.locate slot.offset + 1)

/-- The item fits in front of what follows, in its fragment. -/
structure Ok : Prop where
  fits : slot.offset + slot.item.len ≤ slot.stop layout
  inside : slot.stop layout ≤ layout.mapStart (layout.locate slot.offset + 1)

/-- The frame as a reader returns it. -/
def frame? : Option (Nat × WalEntry × T) :=
  match slot.item with
  | .frame entry => some (slot.offset, entry, slot.tag)
  | .skipMarker => none

def Present (disk : Disk T) : Prop := disk.item slot.offset = some (slot.item, slot.tag)

variable {layout slot}

theorem Ok.offset_lt_stop (ok : slot.Ok layout) : slot.offset < slot.stop layout := by
  have fits := ok.fits
  have positive := slot.item.len_pos
  omega

end Slot

/-- The frames of a list of slots. -/
def framesOf (slots : List (Slot T)) : List (Nat × WalEntry × T) := slots.filterMap Slot.frame?

/-- Slots one behind the other between two positions; a frame follows a skip marker. -/
def Chained (layout : WalLayout) : Nat → List (Slot T) → Nat → Prop
  | start, [], stop => start = stop
  | start, slot :: rest, stop =>
      slot.offset = start ∧ slot.Ok layout ∧
        (slot.item = .skipMarker → ∀ next ∈ rest.head?, next.item ≠ .skipMarker) ∧
        Chained layout (slot.stop layout) rest stop

namespace Chained

variable {layout : WalLayout} {start middle stop : Nat} {slots more : List (Slot T)}

theorem append (first : Chained layout start slots middle) (second : Chained layout middle more stop)
    (joined : ∀ last ∈ slots.getLast?, last.item = .skipMarker →
      ∀ next ∈ more.head?, next.item ≠ .skipMarker) :
    Chained layout start (slots ++ more) stop := by
  induction slots generalizing start with
  | nil =>
      obtain rfl : start = middle := first
      exact second
  | cons slot rest ih =>
      cases rest with
      | nil =>
          obtain rfl : slot.stop layout = middle := first.2.2.2
          exact ⟨first.1, first.2.1, fun marker => joined slot rfl marker, second⟩
      | cons other others => exact ⟨first.1, first.2.1, first.2.2.1, ih first.2.2.2 joined⟩

theorem split (chain : Chained layout start (slots ++ more) stop) :
    ∃ middle, Chained layout start slots middle ∧ Chained layout middle more stop := by
  induction slots generalizing start with
  | nil => exact ⟨start, rfl, chain⟩
  | cons slot rest ih =>
      obtain ⟨middle, first, second⟩ := ih chain.2.2.2
      refine ⟨middle, ⟨chain.1, chain.2.1, fun marker next member => ?_, first⟩, second⟩
      cases rest with
      | nil => cases member
      | cons other others => exact chain.2.2.1 marker next member

theorem ok (chain : Chained layout start slots stop) : ∀ slot ∈ slots, slot.Ok layout := by
  induction slots generalizing start with
  | nil => exact fun _ member => absurd member List.not_mem_nil
  | cons first rest ih =>
      intro slot member
      rcases List.mem_cons.mp member with rfl | later
      · exact chain.2.1
      · exact ih chain.2.2.2 slot later

theorem start_le_stop (chain : Chained layout start slots stop) : start ≤ stop := by
  induction slots generalizing start with
  | nil => exact Nat.le_of_eq chain
  | cons slot rest ih =>
      have first := chain.2.1.offset_lt_stop
      have second := ih chain.2.2.2
      have same := chain.1
      omega

/-- Every slot of a chain lies between its ends. -/
theorem between (chain : Chained layout start slots stop) :
    ∀ slot ∈ slots, start ≤ slot.offset ∧ slot.stop layout ≤ stop := by
  induction slots generalizing start with
  | nil => exact fun _ member => absurd member List.not_mem_nil
  | cons first rest ih =>
      intro slot member
      rcases List.mem_cons.mp member with rfl | later
      · exact ⟨Nat.le_of_eq chain.1.symm, chain.2.2.2.start_le_stop⟩
      · have bounds := ih chain.2.2.2 slot later
        have high := chain.2.1.offset_lt_stop
        have same := chain.1
        exact ⟨by omega, bounds.2⟩

/-- The slots of a chain come one behind the other. -/
theorem pairwise (chain : Chained layout start slots stop) :
    slots.Pairwise fun first second => first.stop layout ≤ second.offset := by
  induction slots generalizing start with
  | nil => exact List.Pairwise.nil
  | cons first rest ih =>
      exact List.pairwise_cons.mpr
        ⟨fun slot member => (chain.2.2.2.between slot member).1, ih chain.2.2.2⟩

/-- The slots of a chain start at different offsets. -/
theorem nodup (chain : Chained layout start slots stop) : (slots.map Slot.offset).Nodup := by
  rw [List.Nodup, List.pairwise_map]
  refine (List.pairwise_iff_forall_sublist.mpr fun {first second} both => ?_)
  have member := both.subset List.mem_cons_self
  have ordered := List.pairwise_iff_forall_sublist.mp chain.pairwise both
  have positive := (chain.ok first member).offset_lt_stop
  omega

theorem stop_getLast (chain : Chained layout start slots stop) :
    ∀ last ∈ slots.getLast?, last.stop layout = stop := by
  induction slots generalizing start with
  | nil => nofun
  | cons slot rest ih =>
      cases rest with
      | nil =>
          rintro _ ⟨⟩
          exact chain.2.2.2
      | cons other others =>
          rw [List.getLast?_cons_cons]
          exact ih chain.2.2.2

theorem stop_unique {other : Nat} (chain : Chained layout start slots stop)
    (same : Chained layout start slots other) : stop = other := by
  induction slots generalizing start with
  | nil => exact (chain : start = stop).symm.trans same
  | cons slot rest ih => exact ih chain.2.2.2 same.2.2.2

/-- A chain from an aligned position ends at one. -/
theorem aligned (chain : Chained layout start slots stop) (started : layout.Aligned start) :
    layout.Aligned stop := by
  induction slots generalizing start with
  | nil =>
      obtain rfl : start = stop := chain
      exact started
  | cons slot rest ih =>
      refine ih chain.2.2.2 ?_
      unfold Slot.stop
      split
      · rw [chain.1]
        exact Nat.dvd_add started (layout.aligned_align _)
      · exact layout.aligned_mapStart _

end Chained

/-! ## What is on disk -/

/-- The disk holds the given slots and nothing else. -/
def Disk.Exactly (disk : Disk T) (held : Slot T → Prop) : Prop :=
  ∀ offset found, disk.item offset = some found ↔
    ∃ slot, held slot ∧ slot.offset = offset ∧ found = (slot.item, slot.tag)

/-- Slots do not overlap. -/
def Apart (slots : List (Slot T)) : Prop :=
  ∀ first ∈ slots, ∀ second ∈ slots, first.offset ≠ second.offset →
    first.offset + first.item.len ≤ second.offset ∨ second.offset + second.item.len ≤ first.offset

theorem Chained.apart {layout : WalLayout} {start stop : Nat} {slots : List (Slot T)}
    (chain : Chained layout start slots stop) : Apart slots := by
  induction slots generalizing start with
  | nil => exact fun _ member => absurd member List.not_mem_nil
  | cons head rest ih =>
      have fits := chain.2.1.fits
      have behind : ∀ slot ∈ rest, head.offset + head.item.len ≤ slot.offset := fun slot member =>
        fits.trans (chain.2.2.2.between slot member).1
      intro first inFirst second inSecond different
      rcases List.mem_cons.mp inFirst with rfl | laterFirst
      · rcases List.mem_cons.mp inSecond with rfl | laterSecond
        · exact absurd rfl different
        · exact Or.inl (behind second laterSecond)
      · rcases List.mem_cons.mp inSecond with rfl | laterSecond
        · exact Or.inr (behind first laterFirst)
        · exact ih chain.2.2.2 first laterFirst second laterSecond different

namespace Disk.Exactly

variable {disk : Disk T} {held : Slot T → Prop} {slots : List (Slot T)}

theorem congr {other : Slot T → Prop} (exact : disk.Exactly held)
    (same : ∀ slot, held slot ↔ other slot) : disk.Exactly other := by
  intro offset found
  rw [exact offset found]
  exact exists_congr fun slot => and_congr (same slot) Iff.rfl

theorem present (exact : disk.Exactly held) {slot : Slot T} (isHeld : held slot) :
    slot.Present disk :=
  (exact slot.offset _).mpr ⟨slot, isHeld, rfl, rfl⟩

theorem item_eq_none (exact : disk.Exactly held) {offset : Nat}
    (nothing : ∀ slot, held slot → slot.offset ≠ offset) : disk.item offset = none := by
  cases found : disk.item offset with
  | none => rfl
  | some value =>
      obtain ⟨slot, isHeld, place, _⟩ := (exact offset value).mp found
      exact absurd place (nothing slot isHeld)

/-- Destroying a range takes the slots that reach into it. -/
theorem wipe (exact : disk.Exactly held) (start stop : Nat) :
    (disk.wipe start stop).Exactly fun slot =>
      held slot ∧ (slot.offset + slot.item.len ≤ start ∨ stop ≤ slot.offset) := by
  intro offset found
  rw [item_wipe, Option.filter_eq_some_iff, exact offset found]
  constructor
  · rintro ⟨⟨slot, isHeld, rfl, rfl⟩, outside⟩
    exact ⟨slot, ⟨isHeld, by simpa using outside⟩, rfl, rfl⟩
  · rintro ⟨slot, ⟨isHeld, outside⟩, rfl, rfl⟩
    exact ⟨⟨slot, isHeld, rfl, rfl⟩, by simpa using outside⟩

/-- Destroying the place of a slot that is not there changes nothing. -/
theorem wipe_slot (exact : disk.Exactly held) (apart : Apart slots)
    (inside : ∀ slot, held slot → slot ∈ slots) {slot : Slot T} (member : slot ∈ slots)
    (fresh : ∀ other, held other → other.offset ≠ slot.offset) :
    (disk.wipe slot.offset (slot.offset + slot.item.len)).Exactly held := by
  refine (exact.wipe _ _).congr fun other => ⟨And.left, fun isHeld => ⟨isHeld, ?_⟩⟩
  exact apart other (inside other isHeld) slot member (fresh other isHeld)

/-- Writing a slot that is not there adds it. -/
theorem write_slot (exact : disk.Exactly held) (layout : WalLayout) (apart : Apart slots)
    (inside : ∀ slot, held slot → slot ∈ slots) {slot : Slot T} (member : slot ∈ slots)
    (fresh : ∀ other, held other → other.offset ≠ slot.offset) :
    (disk.write layout slot.offset slot.item slot.tag).Exactly fun other =>
      held other ∨ other = slot := by
  have wiped := exact.wipe_slot apart inside member fresh
  intro offset found
  by_cases here : offset = slot.offset
  · rw [here, item_write_self, Option.some.injEq]
    constructor
    · rintro rfl
      exact ⟨slot, Or.inr rfl, rfl, rfl⟩
    · rintro ⟨other, isHeld | rfl, place, rfl⟩
      · exact absurd place (fresh other isHeld)
      · rfl
  · rw [item_write_of_ne _ _ _ _ here, wiped offset found]
    constructor
    · rintro ⟨other, isHeld, place, rfl⟩
      exact ⟨other, Or.inl isHeld, place, rfl⟩
    · rintro ⟨other, isHeld | rfl, place, rfl⟩
      · exact ⟨other, isHeld, place, rfl⟩
      · exact absurd place.symm here

end Disk.Exactly

/-- Write slots in order. -/
def Disk.writeAll (layout : WalLayout) (disk : Disk T) (slots : List (Slot T)) : Disk T :=
  slots.foldl (fun disk slot => disk.write layout slot.offset slot.item slot.tag) disk

/-- Writing slots that are not there adds them. -/
theorem Disk.Exactly.writeAll (layout : WalLayout) {all : List (Slot T)} (apart : Apart all)
    {written : List (Slot T)} (members : ∀ slot ∈ written, slot ∈ all)
    (nodup : (written.map Slot.offset).Nodup) {disk : Disk T} {held : Slot T → Prop}
    (exact : disk.Exactly held) (inside : ∀ slot, held slot → slot ∈ all)
    (fresh : ∀ slot ∈ written, ∀ other, held other → other.offset ≠ slot.offset) :
    (disk.writeAll layout written).Exactly fun slot => held slot ∨ slot ∈ written := by
  induction written generalizing disk held with
  | nil => exact exact.congr fun slot => by simp
  | cons first rest ih =>
      obtain ⟨apartFirst, others⟩ := List.nodup_cons.mp nodup
      have inAll := members first List.mem_cons_self
      have added := exact.write_slot layout apart inside inAll (fresh first List.mem_cons_self)
      refine (ih (fun slot member => members slot (List.mem_cons_of_mem _ member)) others added
        ?_ ?_).congr fun slot => ?_
      · rintro slot (isHeld | rfl)
        · exact inside slot isHeld
        · exact inAll
      · rintro slot member other (isHeld | rfl)
        · exact fresh slot (List.mem_cons_of_mem _ member) other isHeld
        · exact fun same => apartFirst (List.mem_map.mpr ⟨slot, member, same.symm⟩)
      · rw [List.mem_cons, or_assoc]

/-! ## Laying out a write -/

section LayOut

variable (layout : WalLayout) (tag : T)

/-- Frames one behind the other from an offset. -/
def layFrames : Nat → List WalEntry → List (Slot T)
  | _, [] => []
  | offset, entry :: rest =>
      ⟨offset, .frame entry, tag⟩ :: layFrames (offset + layout.align (entry.len + crcHeaderLength)) rest

/-- Bytes of the frames of a write, each aligned. -/
def alignedLen (entries : List WalEntry) : Nat :=
  (entries.map fun entry => layout.align (entry.len + crcHeaderLength)).sum

/-- Write frames in one allocation; none is the panic on more than a fragment. -/
def multiWrite (position : Nat) (entries : List WalEntry) : Option (List (Slot T) × Nat) :=
  (layout.allocate position (alignedLen layout entries)).map fun result =>
    ((result.needSkipMarker.map fun place => (⟨place, .skipMarker, tag⟩ : Slot T)).toList ++
        layFrames layout tag result.allocatedPosition entries,
      result.nextPosition)

theorem aligned_alignedLen (entries : List WalEntry) :
    layout.Aligned (alignedLen layout entries) := by
  induction entries with
  | nil => exact Nat.dvd_zero _
  | cons entry rest ih => exact Nat.dvd_add (layout.aligned_align _) ih

theorem alignedLen_pos {entries : List WalEntry} (nonempty : entries ≠ []) :
    0 < alignedLen layout entries := by
  cases entries with
  | nil => exact absurd rfl nonempty
  | cons entry rest =>
      have fits := layout.le_align (entry.len + crcHeaderLength)
      have positive := crcHeaderLength_pos
      simp only [alignedLen, List.map_cons, List.sum_cons]
      omega

theorem framesOf_layFrames (offset : Nat) (entries : List WalEntry) :
    (framesOf (layFrames layout tag offset entries)).map (fun frame => frame.2.1) = entries := by
  induction entries generalizing offset with
  | nil => rfl
  | cons entry rest ih => exact congrArg (entry :: ·) (ih _)

theorem of_mem_layFrames {offset : Nat} {entries : List WalEntry} :
    ∀ slot ∈ layFrames layout tag offset entries, slot.tag = tag ∧ slot.item ≠ .skipMarker := by
  induction entries generalizing offset with
  | nil => exact fun _ member => absurd member List.not_mem_nil
  | cons entry rest ih =>
      intro slot member
      rcases List.mem_cons.mp member with rfl | later
      · exact ⟨rfl, nofun⟩
      · exact ih slot later

variable {layout}

theorem chained_layFrames {offset map : Nat} {entries : List WalEntry}
    (low : layout.mapStart map ≤ offset)
    (high : offset + alignedLen layout entries ≤ layout.mapStart (map + 1)) :
    Chained layout offset (layFrames layout tag offset entries)
        (offset + alignedLen layout entries) ∧
      ∀ slot ∈ layFrames layout tag offset entries, layout.locate slot.offset = map := by
  induction entries generalizing offset with
  | nil => exact ⟨rfl, fun _ member => absurd member List.not_mem_nil⟩
  | cons entry rest ih =>
      have room : offset + layout.align (entry.len + crcHeaderLength) + alignedLen layout rest ≤
          layout.mapStart (map + 1) := by
        rw [Nat.add_assoc]
        exact high
      have fits := layout.le_align (entry.len + crcHeaderLength)
      have positive := crcHeaderLength_pos
      have here : layout.locate offset = map := layout.locate_eq_iff.mpr ⟨low, by omega⟩
      have ok : Slot.Ok layout ⟨offset, .frame entry, tag⟩ := by
        refine ⟨Nat.add_le_add_left fits _, ?_⟩
        simp only [Slot.stop, DiskItem.len, here]
        omega
      obtain ⟨chain, places⟩ := ih (by omega) room
      refine ⟨⟨rfl, ok, by rintro ⟨⟩, ?_⟩, fun slot member => ?_⟩
      · rw [Nat.add_assoc] at chain
        exact chain
      · rcases List.mem_cons.mp member with rfl | later
        · exact here
        · exact places slot later

/-- What a write puts in the log: a skip marker where it starts in another fragment, and
its frames in one fragment. -/
structure LaidOut (layout : WalLayout) (tag : T) (position : Nat) (entries : List WalEntry)
    (slots : List (Slot T)) (stop : Nat) : Prop where
  chain : Chained layout position slots stop
  aligned : layout.Aligned stop
  parts : ∃ marker frames map, slots = marker ++ frames ∧
    (∀ slot ∈ marker, slot.item = .skipMarker) ∧ (∀ slot ∈ frames, slot.item ≠ .skipMarker) ∧
    (framesOf frames).map (fun frame => frame.2.1) = entries ∧
    (∀ slot ∈ frames, layout.locate slot.offset = map) ∧
    (layout.mapStart (layout.locate position) = position → marker = [])
  tagged : ∀ slot ∈ slots, slot.tag = tag

/-- A write behind a skip marker starts with a frame. -/
theorem LaidOut.joined {tag : T} {first position stop : Nat} {entries : List WalEntry}
    {slots front : List (Slot T)} (laid : LaidOut layout tag position entries slots stop)
    (chain : Chained layout first front position) :
    ∀ last ∈ front.getLast?, last.item = .skipMarker →
      ∀ next ∈ slots.head?, next.item ≠ .skipMarker := by
  obtain ⟨marker, frames, map, parts, _, isFrame, _, _, straight⟩ := laid.parts
  intro last isLast marked next isNext
  have ends := chain.stop_getLast last isLast
  rw [Slot.stop, marked] at ends
  rw [parts, straight (by rw [← ends, layout.locate_mapStart])] at isNext
  exact isFrame next (List.mem_of_mem_head? isNext)

theorem multiWrite_spec {position stop : Nat} (aligned : layout.Aligned position)
    {entries : List WalEntry} (nonempty : entries ≠ []) {slots : List (Slot T)}
    (written : multiWrite layout tag position entries = some (slots, stop)) :
    LaidOut layout tag position entries slots stop := by
  obtain ⟨result, allocated, same⟩ := Option.map_eq_some_iff.mp written
  cases same
  obtain ⟨previous, low, length⟩ := WalLayout.allocate_spec allocated
  obtain ⟨place, high⟩ := WalLayout.allocate_place allocated
  have size : result.lenAligned = alignedLen layout entries :=
    length.trans (layout.align_of_aligned (aligned_alignedLen layout entries))
  rw [AllocationResult.nextPosition, size] at high ⊢
  obtain ⟨chain, places⟩ :=
    chained_layFrames tag (layout.mapStart_locate_le result.allocatedPosition) high
  have made : ∀ slot ∈ layFrames layout tag result.allocatedPosition entries,
      slot.tag = tag ∧ slot.item ≠ .skipMarker := of_mem_layFrames layout tag
  unfold AllocationResult.needSkipMarker
  rw [previous]
  by_cases straight : position = result.allocatedPosition
  · simp only [straight, ne_eq, not_true_eq_false, if_false, Option.map_none, Option.toList_none,
      List.nil_append]
    refine ⟨chain, Nat.dvd_add (straight ▸ aligned) (aligned_alignedLen layout entries), ?_,
      fun slot member => (made slot member).1⟩
    exact ⟨[], _, _, rfl, fun _ member => absurd member List.not_mem_nil,
      fun slot member => (made slot member).2, framesOf_layFrames layout tag _ _, places,
      fun _ => rfl⟩
  · have jump := place.resolve_left (Ne.symm straight)
    simp only [ne_eq, straight, not_false_eq_true, if_true, Option.map_some, Option.toList_some,
      List.singleton_append]
    have start : layout.Aligned result.allocatedPosition := by
      rw [jump]
      exact layout.aligned_mapStart _
    have room : position + crcHeaderLength ≤ result.allocatedPosition := by
      have before := layout.lt_mapStart_locate position
      rw [← jump] at before
      have gap := Nat.le_of_dvd (Nat.sub_pos_of_lt before) (Nat.dvd_sub start aligned)
      have wide : crcHeaderLength ≤ alignment layout.directIo := by
        cases layout.directIo <;> decide
      omega
    refine ⟨⟨rfl, ⟨?_, Nat.le_refl _⟩, fun _ next member => ?_, ?_⟩,
      Nat.dvd_add start (aligned_alignedLen layout entries), ?_, fun slot member => ?_⟩
    · rw [Slot.stop, ← jump]
      exact room
    · exact (made next (List.mem_of_mem_head? member)).2
    · rw [Slot.stop, ← jump]
      exact chain
    · refine ⟨[_], _, _, rfl, fun slot member => ?_, fun slot member => (made slot member).2,
        framesOf_layFrames layout tag _ _, places, fun first => ?_⟩
      · obtain rfl := List.mem_singleton.mp member
        rfl
      · refine absurd (WalLayout.allocate_at_start allocated first ?_).symm straight
        rw [← length, size]
        exact alignedLen_pos layout nonempty
    · rcases List.mem_cons.mp member with rfl | later
      · rfl
      · exact (made slot later).1

end LayOut

/-! ## Reading a chain -/

/-- The files of everything on disk exist. -/
def Disk.Filed (layout : WalLayout) (disk : Disk T) : Prop :=
  ∀ offset held, disk.item offset = some held → layout.locateFile offset ∈ disk.files

theorem Disk.Filed.wipe {layout : WalLayout} {disk : Disk T} (filed : disk.Filed layout)
    (start stop : Nat) : (disk.wipe start stop).Filed layout := by
  intro offset held found
  rw [item_wipe, Option.filter_eq_some_iff] at found
  exact filed offset held found.1

theorem Disk.Filed.write {layout : WalLayout} {disk : Disk T} (filed : disk.Filed layout)
    (offset : Nat) (item : DiskItem) (tag : T) : (disk.write layout offset item tag).Filed layout := by
  intro other held found
  by_cases here : other = offset
  · rw [here]
    exact List.mem_cons_self
  · rw [item_write_of_ne _ _ _ _ here] at found
    exact List.mem_cons_of_mem _ (filed.wipe _ _ other held found)

theorem Disk.Filed.writeAll {layout : WalLayout} {disk : Disk T} (filed : disk.Filed layout)
    (slots : List (Slot T)) : (disk.writeAll layout slots).Filed layout := by
  induction slots generalizing disk with
  | nil => exact filed
  | cons first rest ih => exact ih (filed.write _ _ _)

theorem Disk.mem_files_writeAll (layout : WalLayout) {disk : Disk T} {file : Nat}
    (created : file ∈ disk.files) (slots : List (Slot T)) :
    file ∈ (disk.writeAll layout slots).files := by
  induction slots generalizing disk with
  | nil => exact created
  | cons first rest ih => exact ih (List.mem_cons_of_mem _ created)

/-- A reader stopped at a position: that fragment is mapped, unless it has no file. -/
structure WalIterator.StoppedAt (layout : WalLayout) (disk : Disk T) (position : Nat)
    (iterator : WalIterator) : Prop where
  here : iterator.position = position
  mapped : iterator.map = layout.locate position ∨ layout.locateFile position ∉ disk.files

namespace WalIterator

variable {layout : WalLayout} {disk : Disk T}

theorem readOne_of_some (filed : disk.Filed layout) {position : Nat} {held : DiskItem × T}
    (found : disk.item position = some held) (map : Nat) :
    readOne layout disk ⟨position, map⟩ = (⟨position, layout.locate position⟩, some held) := by
  unfold readOne
  by_cases same : map = layout.locate position
  · simp [same, found]
  · have file : layout.fileForMap (layout.locate position) ∈ disk.files := by
      rw [WalLayout.fileForMap_locate]
      exact filed _ _ found
    simp [same, file, found]

theorem readOne_of_none (layout : WalLayout) {position : Nat}
    (missing : disk.item position = none) (map : Nat) :
    ∃ final : WalIterator, readOne layout disk ⟨position, map⟩ = (final, none) ∧
      final.StoppedAt layout disk position := by
  unfold readOne
  by_cases same : map = layout.locate position
  · exact ⟨⟨position, map⟩, by simp [same, missing], rfl, Or.inl same⟩
  · by_cases file : layout.fileForMap (layout.locate position) ∈ disk.files
    · exact ⟨⟨position, layout.locate position⟩, by simp [same, file, missing], rfl, Or.inl rfl⟩
    · refine ⟨⟨position, map⟩, by simp [same, file], rfl, Or.inr ?_⟩
      rwa [WalLayout.fileForMap_locate] at file

/-- A whole frame is read and the reader stands behind it. -/
theorem next_of_frame (filed : disk.Filed layout) {position : Nat} {entry : WalEntry} {tag : T}
    (found : disk.item position = some (.frame entry, tag)) (map : Nat) :
    next layout disk ⟨position, map⟩ =
      (⟨position + layout.align (entry.len + crcHeaderLength), layout.locate position⟩,
        some (position, entry, tag)) := by
  unfold next
  rw [readOne_of_some filed found map]

/-- Where nothing is on disk the log ends. -/
theorem next_of_missing (layout : WalLayout) {position : Nat}
    (missing : disk.item position = none) (map : Nat) :
    ∃ final : WalIterator, next layout disk ⟨position, map⟩ = (final, none) ∧
      final.StoppedAt layout disk position := by
  obtain ⟨final, read, stopped⟩ := readOne_of_none layout missing map
  refine ⟨final, ?_, stopped⟩
  unfold next
  rw [read]

/-- A skip marker is as good as standing at the start of the next fragment. -/
theorem next_of_marker (filed : disk.Filed layout) {position : Nat} {tag : T}
    (found : disk.item position = some (.skipMarker, tag))
    (plain : ∀ other, disk.item (layout.mapStart (layout.locate position + 1)) ≠
      some (.skipMarker, other)) (map : Nat) :
    next layout disk ⟨position, map⟩ =
      next layout disk ⟨layout.mapStart (layout.locate position + 1), layout.locate position⟩ := by
  unfold next
  rw [readOne_of_some filed found map]
  simp only
  cases behind : disk.item (layout.mapStart (layout.locate position + 1)) with
  | none =>
      obtain ⟨final, read, _⟩ := readOne_of_none layout behind (layout.locate position)
      simp only [read]
  | some held =>
      obtain ⟨item, other⟩ := held
      cases item with
      | frame entry => simp only [readOne_of_some filed behind]
      | skipMarker => exact absurd behind (plain other)

/-- A reader follows a chain that is on disk to its end. -/
theorem scan_of_present (filed : disk.Filed layout) {start middle : Nat} {slots : List (Slot T)}
    (chain : Chained layout start slots middle) (present : ∀ slot ∈ slots, slot.Present disk)
    (missing : disk.item middle = none) {fuel : Nat} (enough : slots.length < fuel) (map : Nat) :
    ∃ final : WalIterator, scan layout disk fuel ⟨start, map⟩ = (framesOf slots, final) ∧
      final.StoppedAt layout disk middle := by
  induction slots generalizing start fuel map with
  | nil =>
      obtain rfl : start = middle := chain
      obtain ⟨final, ended, stopped⟩ := next_of_missing layout missing map
      cases fuel with
      | zero => exact absurd enough (Nat.not_lt_zero _)
      | succ fuel => exact ⟨final, by rw [scan, ended]; rfl, stopped⟩
  | cons slot rest ih =>
      obtain ⟨offset, item, tag⟩ := slot
      obtain ⟨rfl, _, followed, behind⟩ := chain
      have found : disk.item offset = some (item, tag) := present _ List.mem_cons_self
      have others : ∀ slot ∈ rest, slot.Present disk := fun slot member =>
        present slot (List.mem_cons_of_mem _ member)
      cases fuel with
      | zero => exact absurd enough (Nat.not_lt_zero _)
      | succ fuel =>
          have fewer : rest.length < fuel := Nat.lt_of_succ_lt_succ enough
          cases item with
          | frame entry =>
              obtain ⟨final, scanned, stopped⟩ := ih behind others fewer (layout.locate offset)
              refine ⟨final, ?_, stopped⟩
              simp only [Slot.stop, DiskItem.len] at scanned
              rw [scan, next_of_frame filed found]
              simp only [scanned]
              rfl
          | skipMarker =>
              obtain ⟨final, scanned, stopped⟩ :=
                ih behind others (Nat.lt_succ_of_lt fewer) (layout.locate offset)
              refine ⟨final, ?_, stopped⟩
              have plain : ∀ other, disk.item (layout.mapStart (layout.locate offset + 1)) ≠
                  some (.skipMarker, other) := by
                intro other marker
                cases rest with
                | nil =>
                    obtain rfl : layout.mapStart (layout.locate offset + 1) = middle := behind
                    rw [missing] at marker
                    cases marker
                | cons next more =>
                    have place : next.offset = layout.mapStart (layout.locate offset + 1) := behind.1
                    have here : disk.item next.offset = some (next.item, next.tag) :=
                      others next List.mem_cons_self
                    rw [place, marker, Option.some.injEq, Prod.mk.injEq] at here
                    exact followed rfl next rfl here.1.symm
              rw [scan, next_of_marker filed found plain]
              exact scanned

end WalIterator

/-! ## Recovering a chain -/

/-- Slots on disk at different offsets are no more than the disk holds. -/
theorem length_le_size {disk : Disk T} {slots : List (Slot T)}
    (present : ∀ slot ∈ slots, slot.Present disk) (nodup : (slots.map Slot.offset).Nodup) :
    slots.length ≤ disk.items.size := by
  have held : slots.map Slot.offset ⊆ disk.items.keys := by
    intro offset member
    obtain ⟨slot, inside, rfl⟩ := List.mem_map.mp member
    exact SortedMap.mem_keys_iff.mpr ⟨_, present slot inside⟩
  have fewer := (List.subperm_of_subset nodup held).length_le
  rwa [List.length_map, SortedMap.keys, List.length_map] at fewer

/-- Recovery returns the frames of a chain that is on disk, and ends the log behind it or
where the batch starts that is open there. -/
theorem recover_of_present {layout : WalLayout} {disk : Disk T} (filed : disk.Filed layout)
    {start middle : Nat} {slots : List (Slot T)} (chain : Chained layout start slots middle)
    (present : ∀ slot ∈ slots, slot.Present disk) (missing : disk.item middle = none)
    (file : layout.locateFile start ∈ disk.files) :
    ∃ recovered, recover layout disk start = some recovered ∧
      recovered.frames = framesOf slots ∧
      recovered.position = (OpenBatch.closed.run (framesOf slots)).start.getD middle ∧
      (recovered.disk = disk.wipe recovered.position
          (layout.mapStart (layout.locate recovered.position + 1)) ∨
        recovered.disk = disk ∧ (layout.locate recovered.position = layout.locate middle →
          layout.locateFile middle ∉ disk.files)) := by
  have opened : WalIterator.new layout disk start = some ⟨start, layout.locate start⟩ := by
    rw [WalIterator.new, WalLayout.fileForMap_locate, if_pos (by simpa using file)]
  have enough := Nat.lt_succ_of_le (length_le_size present chain.nodup)
  obtain ⟨final, scanned, here, mapped⟩ :=
    WalIterator.scan_of_present filed chain present missing enough (layout.locate start)
  refine ⟨_, by rw [recover, opened, Option.map_some, scanned], rfl, ?_, ?_⟩
  · simp only [WalIterator.intoWriter, here]
  · simp only [WalIterator.intoWriter, WalIterator.clearFragmentFromPosition]
    split
    · exact Or.inl rfl
    · rename_i elsewhere
      exact Or.inr ⟨rfl, fun same => mapped.resolve_left fun isMap => elsewhere (same.trans isMap.symm)⟩

/-- What the new writer finds on disk: the fragment it starts in is cleared behind its
position. -/
theorem Disk.Exactly.recovered {layout : WalLayout} {disk : Disk T} {held : Slot T → Prop}
    (exact : disk.Exactly held) (filed : disk.Filed layout)
    (ok : ∀ slot, held slot → slot.Ok layout) {position middle : Nat} {cleared : Disk T}
    (place : layout.locate position = layout.locate middle)
    (isCleared : cleared = disk.wipe position (layout.mapStart (layout.locate position + 1)) ∨
      cleared = disk ∧ (layout.locate position = layout.locate middle →
        layout.locateFile middle ∉ disk.files)) :
    cleared.Exactly fun slot => held slot ∧
      (slot.offset + slot.item.len ≤ position ∨
        layout.mapStart (layout.locate position + 1) ≤ slot.offset) := by
  rcases isCleared with rfl | ⟨rfl, noFile⟩
  · exact exact.wipe _ _
  · refine exact.congr fun slot => ⟨fun isHeld => ⟨isHeld, ?_⟩, And.left⟩
    have present := exact.present isHeld
    have different : layout.locate slot.offset ≠ layout.locate position := fun same => by
      refine noFile place ?_
      rw [← WalLayout.fileForMap_locate, ← place, ← same, WalLayout.fileForMap_locate]
      exact filed _ _ present
    rcases Nat.lt_or_gt_of_ne different with before | behind
    · left
      have stops := (ok slot isHeld).fits.trans (ok slot isHeld).inside
      have fragments : layout.mapStart (layout.locate slot.offset + 1) ≤
          layout.mapStart (layout.locate position) := Nat.mul_le_mul_left _ before
      exact stops.trans (fragments.trans (layout.mapStart_locate_le position))
    · right
      have fragments : layout.mapStart (layout.locate position + 1) ≤
          layout.mapStart (layout.locate slot.offset) := Nat.mul_le_mul_left _ behind
      exact fragments.trans (layout.mapStart_locate_le slot.offset)

end Tidehunter.Wal
