import Tidehunter.Db.Restored
import Tidehunter.Wal.Cut

/-!
# Replay of a log cut at a byte

A frame changes the position of a key by the operations it holds; a drop of cells takes
the position away. Replay gives every key what the frames of the whole writes make of its
position in the control region. The first frames of a batch that is not whole are
gathered too, and left out again because they lie behind its start.
-/

namespace Tidehunter.Db

open Library Wal Index Flusher LargeTable

/-! ## The effect of frames -/

/-- The operations of a frame that replay applies. -/
def replayedOps : WalEntry → List BatchOp
  | .record ks key value relocated => if relocated then [] else [⟨ks, key, some value⟩]
  | .remove ks key => [⟨ks, key, none⟩]
  | .batchStart _ => []
  | .compressedBatch inner _ => inner
  | .dropCells _ _ _ _ => []

/-- What an operation makes of the position of a key of a cell. -/
def opEffect (config : Config) (ref : CellReference) (key : Bytes) (position : WalPosition)
    (current : Option WalPosition) (op : BatchOp) : Option WalPosition :=
  if ((config.keySpaces op.ks).reduceKey op.key).any fun reduced =>
      ref = ⟨op.ks, (config.keySpaces op.ks).cellId reduced⟩ && key = reduced then
    some (if op.value.isSome then position else .invalid)
  else current

/-- What a frame makes of the position of a key of a cell. -/
def frameEffect (config : Config) (ref : CellReference) (key : Bytes)
    (current : Option WalPosition) (frame : Nat × WalEntry) : Option WalPosition :=
  match frame.2 with
  | .dropCells ks fromCell toCell _ =>
      if (⟨ks, fromCell, toCell⟩ : DroppedCells).covers ref then none else current
  | entry => (replayedOps entry).foldl
      (opEffect config ref key (WalPosition.ofEntry frame.1 entry)) current

/-- The keys of a frame can be reduced: their write did not panic. -/
def Routed (config : Config) (entry : WalEntry) : Prop :=
  ∀ op ∈ replayedOps entry, ((config.keySpaces op.ks).reduceKey op.key).isSome = true

/-- What a gathered write makes of the position of a key of a cell. -/
def ReplayedWrite.effect (ref : CellReference) (key : Bytes) (current : Option WalPosition)
    (write : ReplayedWrite) : Option WalPosition :=
  if write.ref = ref && key = write.key then some write.position.intoWalPosition else current

theorem routeWrite_effect {config : Config} {op : BatchOp} (position : WalPosition)
    (routed : ((config.keySpaces op.ks).reduceKey op.key).isSome = true) :
    ∃ write, routeWrite config op.ks op.key
        (if op.value.isSome then .newModified position else .newRemoved position) = some write ∧
      write.position.offset = position.offset ∧
      ∀ ref key current, write.effect ref key current = opEffect config ref key position current op := by
  obtain ⟨reduced, isReduced⟩ := Option.isSome_iff_exists.mp routed
  refine ⟨_, by rw [routeWrite, isReduced, Option.map_some], ?_, fun ref key current => ?_⟩
  · split <;> rfl
  · simp only [ReplayedWrite.effect, opEffect, isReduced, Option.any_some, eq_comm]
    congr 2
    split <;> rfl

theorem routeWrites_effect {config : Config} (position : WalPosition) {ops : List BatchOp}
    (routed : ∀ op ∈ ops, ((config.keySpaces op.ks).reduceKey op.key).isSome = true) :
    ∃ writes, (ops.mapM fun op => routeWrite config op.ks op.key
        (if op.value.isSome then .newModified position else .newRemoved position)) = some writes ∧
      (∀ write ∈ writes, write.position.offset = position.offset) ∧
      ∀ ref key current, writes.foldl (ReplayedWrite.effect ref key) current =
        ops.foldl (opEffect config ref key position) current := by
  induction ops with
  | nil => exact ⟨[], rfl, fun _ member => absurd member List.not_mem_nil, fun _ _ _ => rfl⟩
  | cons op rest ih =>
      obtain ⟨write, isWrite, place, effect⟩ :=
        routeWrite_effect position (routed op List.mem_cons_self)
      obtain ⟨writes, isWrites, places, effects⟩ :=
        ih fun other member => routed other (List.mem_cons_of_mem _ member)
      refine ⟨write :: writes, ?_, fun other member => ?_, fun ref key current => ?_⟩
      · rw [List.mapM_cons, isWrite, isWrites]
        rfl
      · rcases List.mem_cons.mp member with rfl | later
        · exact place
        · exact places other later
      · rw [List.foldl_cons, List.foldl_cons, effects, effect]

/-- The writes of a frame have the effect of its operations. -/
theorem frameWrites_effect {config : Config} (position : WalPosition) {entry : WalEntry}
    (routed : Routed config entry) :
    ∃ writes, frameWrites config position entry = some writes ∧
      (∀ write ∈ writes, write.position.offset = position.offset) ∧
      ∀ ref key current, writes.foldl (ReplayedWrite.effect ref key) current =
        (replayedOps entry).foldl (opEffect config ref key position) current := by
  obtain ⟨writes, isWrites, spec⟩ := routeWrites_effect position routed
  refine ⟨writes, ?_, spec⟩
  rw [← isWrites]
  cases entry with
  | record ks key value relocated =>
      cases relocated with
      | true => rfl
      | false => simp [frameWrites, replayedOps, Option.map_eq_bind]
  | remove ks key => simp [frameWrites, replayedOps, Option.map_eq_bind]
  | batchStart count => rfl
  | compressedBatch inner bodyLen => rfl
  | dropCells ks fromCell toCell cellsLen => rfl

/-! ## One step of replay -/

/-- What replay has gathered makes this of the position of a key of a cell. -/
def Replay.effect (replay : Replay) (ref : CellReference) (key : Bytes)
    (initial : Option WalPosition) : Option WalPosition :=
  replay.buffer.foldl (ReplayedWrite.effect ref key)
    (if replay.dropped.any fun range => range.covers ref then none else initial)

/-- The batch replay is in. -/
def Replay.openBatch (replay : Replay) : OpenBatch :=
  ⟨replay.batchRemaining, replay.batchStartPosition⟩

/-- A frame that replay expects: inside a batch an operation, outside no empty batch. -/
def Expected (batch : OpenBatch) : WalEntry → Prop
  | .record _ _ _ _ => True
  | .remove _ _ => True
  | .batchStart count => batch.remaining = 0 ∧ count ≠ 0
  | .compressedBatch _ _ => batch.remaining = 0
  | .dropCells _ _ _ _ => batch.remaining = 0

/-- What replay does with one frame. -/
structure Replay.Stepped (config : Config) (replay : Replay) (offset : Nat) (entry : WalEntry)
    (next : Replay) : Prop where
  stepped : replay.step config offset entry = some next
  batch : next.openBatch = replay.openBatch.step offset entry
  effect : ∀ ref key initial, next.effect ref key initial =
    frameEffect config ref key (replay.effect ref key initial) (offset, entry)
  places : ∀ write ∈ next.buffer, write ∈ replay.buffer ∨ write.position.offset = offset
  /-- Only a drop takes back what was gathered. -/
  added : (∃ ks fromCell toCell cellsLen, entry = .dropCells ks fromCell toCell cellsLen) ∨
    next.dropped = replay.dropped ∧ ∃ writes, next.buffer = replay.buffer ++ writes ∧
      ∀ write ∈ writes, write.position.offset = offset

/-- A drop takes away the position of every key of the range and of no other. -/
theorem Replay.effect_dropCellsInRange (replay : Replay) (range : DroppedCells)
    (ref : CellReference) (key : Bytes) (initial : Option WalPosition) :
    (replay.dropCellsInRange range).effect ref key initial =
      if range.covers ref then none else replay.effect ref key initial := by
  have gathered : ∀ (buffer : List ReplayedWrite) (current : Option WalPosition),
      (buffer.filter fun write => !range.covers write.ref).foldl (ReplayedWrite.effect ref key)
          current =
        if range.covers ref then current else buffer.foldl (ReplayedWrite.effect ref key) current := by
    intro buffer
    induction buffer with
    | nil => simp
    | cons write rest ih =>
        intro current
        by_cases here : write.ref = ref
        · cases covered : range.covers ref <;> simp [here, covered, ih]
        · have skipped : write.effect ref key current = current := by
            simp [ReplayedWrite.effect, here]
          rw [List.foldl_cons, skipped, ← ih]
          cases covered : range.covers write.ref <;> simp [covered, skipped]
  simp only [effect, dropCellsInRange, gathered, List.any_append, List.any_cons, List.any_nil,
    Bool.or_false]
  cases covered : range.covers ref <;> simp

/-- Gathering the writes of a frame. -/
theorem Replay.stepped_of_writes {config : Config} {replay : Replay} {offset : Nat}
    {entry : WalEntry} {writes : List ReplayedWrite} {batch : OpenBatch}
    (places : ∀ write ∈ writes, write.position.offset = offset)
    (effects : ∀ ref key current, writes.foldl (ReplayedWrite.effect ref key) current =
      frameEffect config ref key current (offset, entry))
    (stepped : replay.step config offset entry =
      some { replay with
        buffer := replay.buffer ++ writes
        batchRemaining := batch.remaining
        batchStartPosition := batch.start })
    (isBatch : batch = replay.openBatch.step offset entry) :
    ∃ next, replay.Stepped config offset entry next := by
  refine ⟨_, stepped, isBatch, fun ref key initial => ?_, fun write member => ?_,
    Or.inr ⟨rfl, writes, rfl, places⟩⟩
  · rw [← effects]
    exact List.foldl_append
  · exact (List.mem_append.mp member).imp_right (places write)

theorem Replay.step_spec {config : Config} {replay : Replay} (offset : Nat) {entry : WalEntry}
    (routed : Routed config entry) (expected : Expected replay.openBatch entry) :
    ∃ next, replay.Stepped config offset entry next := by
  obtain ⟨writes, isWrites, places, effects⟩ :=
    frameWrites_effect (WalPosition.ofEntry offset entry) routed
  -- An operation is gathered in the same way inside and outside of a batch.
  have operation : (∃ ks key value relocated, entry = .record ks key value relocated) ∨
      (∃ ks key, entry = .remove ks key) → ∃ next, replay.Stepped config offset entry next := by
    intro isOperation
    refine stepped_of_writes places (fun ref key current => ?_) ?_ rfl
    · rcases isOperation with ⟨ks, other, value, relocated, rfl⟩ | ⟨ks, other, rfl⟩ <;>
        exact effects ref key current
    · rcases isOperation with ⟨ks, other, value, relocated, rfl⟩ | ⟨ks, other, rfl⟩ <;>
        by_cases inside : 0 < replay.batchRemaining <;>
        simp only [Replay.step, isWrites, OpenBatch.step, openBatch, inside, if_true, if_false,
          Option.map_some] <;>
        rfl
  cases entry with
  | record ks key value relocated => exact operation (Or.inl ⟨ks, key, value, relocated, rfl⟩)
  | remove ks key => exact operation (Or.inr ⟨ks, key, rfl⟩)
  | batchStart count =>
      have outside : replay.batchRemaining = 0 := expected.1
      cases isWrites
      refine stepped_of_writes places (fun ref key current => effects ref key current) ?_ rfl
      simp [Replay.step, OpenBatch.step, openBatch, outside, expected.2]
  | compressedBatch inner bodyLen =>
      have outside : replay.batchRemaining = 0 := expected
      refine stepped_of_writes places (fun ref key current => effects ref key current) ?_ rfl
      simp [Replay.step, isWrites, OpenBatch.step, openBatch, outside]
  | dropCells ks fromCell toCell cellsLen =>
      have outside : replay.batchRemaining = 0 := expected
      refine ⟨replay.dropCellsInRange ⟨ks, fromCell, toCell⟩, ?_, ?_, fun ref key initial => ?_,
        fun write member => Or.inl (List.mem_of_mem_filter member),
        Or.inl ⟨ks, fromCell, toCell, cellsLen, rfl⟩⟩
      · simp [Replay.step, outside]
      · simp [OpenBatch.step, openBatch, dropCellsInRange, outside]
      · exact replay.effect_dropCellsInRange ⟨ks, fromCell, toCell⟩ ref key initial

/-! ## Runs of replay -/

/-- Every frame is one that replay expects. -/
def AllExpected (config : Config) : OpenBatch → List (Nat × WalEntry × Nat) → Prop
  | _, [] => True
  | batch, (offset, entry, _) :: rest =>
      Routed config entry ∧ Expected batch entry ∧ AllExpected config (batch.step offset entry) rest

theorem AllExpected.append {config : Config} {batch : OpenBatch}
    {first second : List (Nat × WalEntry × Nat)} (front : AllExpected config batch first)
    (back : AllExpected config (batch.run first) second) :
    AllExpected config batch (first ++ second) := by
  induction first generalizing batch with
  | nil => exact back
  | cons frame rest ih => exact ⟨front.1, front.2.1, ih front.2.2 back⟩

/-- The frames as replay gets them. -/
def untagged (frames : List (Nat × WalEntry × Nat)) : List (Nat × WalEntry) :=
  frames.map fun frame => (frame.1, frame.2.1)

/-- What replay does with frames. -/
structure Replay.Ran (config : Config) (replay : Replay) (frames : List (Nat × WalEntry × Nat))
    (final : Replay) : Prop where
  ran : Replay.run config (untagged frames) replay = some final
  batch : final.openBatch = replay.openBatch.run frames
  effect : ∀ ref key initial, final.effect ref key initial =
    (untagged frames).foldl (frameEffect config ref key) (replay.effect ref key initial)
  places : ∀ write ∈ final.buffer,
    write ∈ replay.buffer ∨ ∃ frame ∈ frames, write.position.offset = frame.1
  added : (∀ frame ∈ frames, ∀ ks fromCell toCell cellsLen,
      frame.2.1 ≠ .dropCells ks fromCell toCell cellsLen) →
    final.dropped = replay.dropped ∧ ∃ writes, final.buffer = replay.buffer ++ writes ∧
      ∀ write ∈ writes, ∃ frame ∈ frames, write.position.offset = frame.1

theorem Replay.run_spec {config : Config} {frames : List (Nat × WalEntry × Nat)} {replay : Replay}
    (expected : AllExpected config replay.openBatch frames) :
    ∃ final, replay.Ran config frames final := by
  induction frames generalizing replay with
  | nil =>
      exact ⟨replay, rfl, rfl, fun _ _ _ => rfl, fun _ => Or.inl, fun _ =>
        ⟨rfl, [], (List.append_nil _).symm, fun _ member => absurd member List.not_mem_nil⟩⟩
  | cons frame rest ih =>
      obtain ⟨offset, entry, tag⟩ := frame
      obtain ⟨next, one⟩ := step_spec offset expected.1 expected.2.1
      have later := expected.2.2
      rw [← one.batch] at later
      obtain ⟨final, others⟩ := ih later
      refine ⟨final, ?_, ?_, fun ref key initial => ?_, fun write member => ?_, fun noDrop => ?_⟩
      · simp only [untagged, List.map_cons, Replay.run, one.stepped]
        exact others.ran
      · rw [others.batch, one.batch]
        rfl
      · rw [others.effect, one.effect]
        rfl
      · rcases others.places write member with before | ⟨other, inside, place⟩
        · exact (one.places write before).imp_right fun place => ⟨_, List.mem_cons_self, place⟩
        · exact Or.inr ⟨other, List.mem_cons_of_mem _ inside, place⟩
      · obtain ⟨sameDropped, writes, isBuffer, places⟩ :=
          others.added fun other member => noDrop other (List.mem_cons_of_mem _ member)
        rcases one.added with ⟨ks, fromCell, toCell, cellsLen, isDrop⟩ |
          ⟨dropped, first, buffer, place⟩
        · exact absurd isDrop (noDrop _ List.mem_cons_self ks fromCell toCell cellsLen)
        · refine ⟨sameDropped.trans dropped, first ++ writes, ?_, fun write member => ?_⟩
          · rw [isBuffer, buffer, List.append_assoc]
          · rcases List.mem_append.mp member with early | late
            · exact ⟨_, List.mem_cons_self, place write early⟩
            · obtain ⟨other, inside, place⟩ := places write late
              exact ⟨other, List.mem_cons_of_mem _ inside, place⟩

/-- The frames of operations are expected everywhere. -/
theorem allExpected_ops {config : Config} {frames : List (Nat × WalEntry × Nat)}
    (ops : ∀ frame ∈ frames, ∃ op : BatchOp, frame.2.1 = op.entry)
    (routed : ∀ frame ∈ frames, Routed config frame.2.1) (batch : OpenBatch) :
    AllExpected config batch frames := by
  induction frames generalizing batch with
  | nil => trivial
  | cons frame rest ih =>
      refine ⟨routed frame List.mem_cons_self, ?_,
        ih (fun other member => ops other (List.mem_cons_of_mem _ member))
          (fun other member => routed other (List.mem_cons_of_mem _ member)) _⟩
      obtain ⟨op, isOp⟩ := ops frame List.mem_cons_self
      rw [isOp, BatchOp.entry]
      split <;> trivial

theorem allExpected_single {config : Config} {frame : Nat × WalEntry × Nat}
    (routed : Routed config frame.2.1) (notStart : ∀ count, frame.2.1 ≠ .batchStart count) :
    AllExpected config OpenBatch.closed [frame] := by
  obtain ⟨offset, entry, tag⟩ := frame
  refine ⟨routed, ?_, trivial⟩
  cases entry with
  | batchStart count => exact absurd rfl (notStart count)
  | _ => trivial

/-- The first frames of a write are expected; in those of a batch nothing is dropped. -/
theorem allExpected_write {config : Config} {write : WalWrite}
    (routed : ∀ entry ∈ write.entries, Routed config entry)
    {frames : List (Nat × WalEntry × Nat)} {missing : List WalEntry}
    (split : frames.map (fun frame => frame.2.1) ++ missing = write.entries) :
    AllExpected config OpenBatch.closed frames ∧
      ((OpenBatch.closed.run frames).start ≠ none → ∀ frame ∈ frames,
        ∀ ks fromCell toCell cellsLen, frame.2.1 ≠ .dropCells ks fromCell toCell cellsLen) := by
  have routedFrames : ∀ frame ∈ frames, Routed config frame.2.1 := by
    intro frame member
    refine routed _ ?_
    rw [← split]
    exact List.mem_append_left _ (List.mem_map_of_mem member)
  cases frames with
  | nil => exact ⟨trivial, fun _ _ member => absurd member List.not_mem_nil⟩
  | cons frame others =>
      -- A write of one frame is whole when that frame is there.
      have single : ∀ entry, write.entries = [entry] → (∀ count, entry ≠ .batchStart count) →
          AllExpected config OpenBatch.closed (frame :: others) ∧
            ((OpenBatch.closed.run (frame :: others)).start ≠ none → ∀ other ∈ frame :: others,
              ∀ ks fromCell toCell cellsLen, other.2.1 ≠ .dropCells ks fromCell toCell cellsLen) := by
        intro entry one notStart
        rw [one, List.map_cons, List.cons_append, List.cons.injEq, List.append_eq_nil_iff,
          List.map_eq_nil_iff] at split
        obtain ⟨rfl, rfl, rfl⟩ := split
        refine ⟨allExpected_single (routedFrames frame List.mem_cons_self) notStart, fun isOpen => ?_⟩
        have closed : OpenBatch.closed.run [frame] = OpenBatch.closed := OpenBatch.run_write one.symm
        rw [closed] at isOpen
        exact absurd rfl isOpen
      cases write with
      | batch first rest =>
          simp only [List.map_cons, List.cons_append, WalWrite.entries, List.cons.injEq] at split
          obtain ⟨opening, tail⟩ := split
          have ops : ∀ frame ∈ others, ∃ op : BatchOp, frame.2.1 = op.entry := by
            intro frame member
            have inside : frame.2.1 ∈ (first :: rest).map BatchOp.entry := by
              rw [List.map_cons, ← tail]
              exact List.mem_append_left _ (List.mem_map_of_mem member)
            obtain ⟨op, _, isOp⟩ := List.mem_map.mp inside
            exact ⟨op, isOp.symm⟩
          refine ⟨⟨routedFrames frame List.mem_cons_self, ?_, allExpected_ops ops
            (fun other member => routedFrames other (List.mem_cons_of_mem _ member)) _⟩, ?_⟩
          · rw [opening]
            exact ⟨rfl, Nat.succ_ne_zero _⟩
          · intro _ other member ks fromCell toCell cellsLen isDrop
            rcases List.mem_cons.mp member with rfl | later
            · rw [opening] at isDrop
              cases isDrop
            · obtain ⟨op, isOp⟩ := ops other later
              rw [isOp, BatchOp.entry] at isDrop
              split at isDrop <;> cases isDrop
      | record ks key value relocated => exact single _ rfl (by rintro _ ⟨⟩)
      | remove ks key => exact single _ rfl (by rintro _ ⟨⟩)
      | dropCells ks fromCell toCell cellsLen => exact single _ rfl (by rintro _ ⟨⟩)
      | compressedBatch inner bodyLen => exact single _ rfl (by rintro _ ⟨⟩)

/-- The frames of whole regions are expected. -/
theorem allExpected_regions {layout : WalLayout} {config : Config} {regions : List Region}
    (ok : ∀ region ∈ regions, region.Ok layout)
    (routed : ∀ region ∈ regions, ∀ entry ∈ region.write.entries, Routed config entry) :
    AllExpected config OpenBatch.closed (framesOf (regions.flatMap Region.all)) := by
  induction regions with
  | nil => trivial
  | cons region rest ih =>
      obtain ⟨markers, frames, _, split, isMarker, _, entries, _⟩ :=
        (ok region List.mem_cons_self).all_parts
      have others := ih (fun other member => ok other (List.mem_cons_of_mem _ member))
        fun other member => routed other (List.mem_cons_of_mem _ member)
      rw [List.flatMap_cons, framesOf_append, split, framesOf_append, framesOf_markers isMarker,
        List.nil_append]
      refine (allExpected_write (routed region List.mem_cons_self)
        ((List.append_nil _).trans entries)).1.append ?_
      rw [OpenBatch.run_write entries]
      exact others

/-! ## Cells after replay -/

/-- What gathered writes make of the position of a key in their cell. -/
def gatheredEffect (key : Bytes) (current : Option WalPosition)
    (write : Bytes × IndexWalPosition) : Option WalPosition :=
  if key = write.1 then some write.2.intoWalPosition else current

theorem foldl_gatheredEffect_or (writes : List (Bytes × IndexWalPosition)) (key : Bytes)
    (initial : Option WalPosition) :
    writes.foldl (gatheredEffect key) initial =
      (writes.foldl (gatheredEffect key) none).or initial := by
  induction writes generalizing initial with
  | nil => rfl
  | cons write rest ih =>
      rw [List.foldl_cons, List.foldl_cons, ih, ih (gatheredEffect key none write)]
      unfold gatheredEffect
      split
      · cases rest.foldl _ none <;> rfl
      · rw [Option.or_none]

theorem lookup_insertAll_gathered (map : SortedMap Bytes IndexWalPosition)
    (writes : List (Bytes × IndexWalPosition)) (key : Bytes) :
    ((map.insertAll writes).lookup key).map IndexWalPosition.intoWalPosition =
      writes.foldl (gatheredEffect key)
        ((map.lookup key).map IndexWalPosition.intoWalPosition) := by
  induction writes generalizing map with
  | nil => rfl
  | cons write rest ih =>
      refine (ih (map.insert write.1 write.2)).trans ?_
      rw [SortedMap.lookup_insert, List.foldl_cons, gatheredEffect]
      by_cases here : key = write.1 <;> simp [here]

/-- A table built from gathered writes shows the last of each key. -/
theorem get_ofGathered (writes : List (Bytes × IndexWalPosition)) (key : Bytes) :
    IndexTable.get ⟨SortedMap.empty, SortedMap.empty.insertAll writes⟩ key =
      writes.foldl (gatheredEffect key) none :=
  lookup_insertAll_gathered SortedMap.empty writes key

/-- A cell of the table before replay: nothing in memory, and empty if it has no levels. -/
structure Unread (entry : Entry Bytes) : Prop where
  data : entry.data = IndexTable.empty
  state : entry.state = .unloaded ∨ entry.state = .empty ∧ entry.levels.isEmpty = true

theorem lookup_of_isEmpty {levels : IndexLevels Bytes} (nothing : levels.isEmpty = true)
    (key : Bytes) : levels.lookup key = none ∧ levels.deep.lookup key = none := by
  obtain ⟨l0, deep⟩ := levels
  cases l0 with
  | some blob => cases nothing
  | none =>
      cases deep with
      | none => exact ⟨rfl, rfl⟩
      | l1 blob => cases nothing
      | sharded shards => cases nothing

/-- A cell after replay: the gathered writes over its levels. -/
theorem get_applyReplayBuffer {entry : Entry Bytes} (unread : Unread entry)
    (buffer : List (Bytes × IndexWalPosition)) (cutoff : Option Nat) (key : Bytes) :
    (entry.applyReplayBuffer buffer cutoff).get key =
      readable ((buffer.filter fun write => cutoff.all fun cut => write.2.offset < cut).foldl
        (gatheredEffect key) (entry.levels.lookup key)) := by
  unfold Entry.applyReplayBuffer
  rw [foldl_gatheredEffect_or]
  cases kept : buffer.filter fun write => cutoff.all fun cut => write.2.offset < cut with
  | nil =>
      rcases unread.state with unloaded | ⟨isEmpty, nothing⟩
      · simp [Entry.get, Entry.probe, unloaded, Entry.beneath, EntryState.coversL0]
      · simp [Entry.get, Entry.probe, isEmpty, (lookup_of_isEmpty nothing key).1]
  | cons first rest =>
      rcases unread.state with unloaded | ⟨isEmpty, nothing⟩
      · simp [Entry.get, Entry.probe, Entry.setData, unloaded, EntryState.markDirty,
          Entry.beneath, EntryState.coversL0, get_ofGathered]
      · simp [Entry.get, Entry.probe, Entry.setData, isEmpty, EntryState.markDirty,
          Entry.beneath, EntryState.coversL0, get_ofGathered, (lookup_of_isEmpty nothing key).1,
          (lookup_of_isEmpty nothing key).2]

theorem Replay.unread_tableEntry (replay : Replay) (controlRegion : ControlRegion)
    (ref : CellReference) : Unread (replay.tableEntry controlRegion ref) := by
  unfold tableEntry
  split
  · exact ⟨rfl, Or.inr ⟨rfl, rfl⟩⟩
  · refine ⟨rfl, ?_⟩
    unfold Entry.fromSnapshotData
    cases nothing : (controlRegion.levels ref).isEmpty with
    | true => exact Or.inr ⟨rfl, rfl⟩
    | false => exact Or.inl rfl

theorem Replay.lookup_tableEntry (replay : Replay) (controlRegion : ControlRegion)
    (ref : CellReference) (key : Bytes) :
    (replay.tableEntry controlRegion ref).levels.lookup key =
      if replay.dropped.any fun range => range.covers ref then none
      else (controlRegion.levels ref).lookup key := by
  unfold tableEntry
  split <;> rfl

theorem foldl_cellBuffer (buffer : List ReplayedWrite) (ref : CellReference) (key : Bytes)
    (initial : Option WalPosition) :
    ((buffer.filter fun write => write.ref = ref).map fun write =>
        (write.key, write.position)).foldl (gatheredEffect key) initial =
      buffer.foldl (ReplayedWrite.effect ref key) initial := by
  induction buffer generalizing initial with
  | nil => rfl
  | cons write rest ih =>
      by_cases here : write.ref = ref <;>
        simp [here, ih, gatheredEffect, ReplayedWrite.effect]

/-- A cell after replay shows what was gathered in front of the cutoff. -/
theorem Replay.get_entry (replay : Replay) (controlRegion : ControlRegion) (ref : CellReference)
    (key : Bytes) :
    (replay.entry controlRegion ref).get key =
      readable ((replay.buffer.filter fun write =>
          replay.batchStartPosition.all fun cut => write.position.offset < cut).foldl
        (ReplayedWrite.effect ref key)
        (if replay.dropped.any fun range => range.covers ref then none
          else (controlRegion.levels ref).lookup key)) := by
  rw [entry, get_applyReplayBuffer (replay.unread_tableEntry controlRegion ref),
    replay.lookup_tableEntry, cellBuffer, List.filter_map, List.filter_filter,
    ← foldl_cellBuffer, List.filter_filter]
  simp only [Function.comp_def, Bool.and_comm]

/-! ## Every cut -/

/-- Replay of a log that was cut keeps the frames of the whole regions, and of the batch
the cut falls into nothing. -/
theorem replayed_of_cutRead {layout : WalLayout} {config : Config} {start : Nat}
    {regions whole : List Region} {markers frames : List (Slot Nat)} {recovered : Recovered Nat}
    (read : CutRead layout start regions whole markers frames recovered)
    (sublist : whole.Sublist regions) (ok : ∀ region ∈ regions, region.Ok layout)
    (routed : ∀ region ∈ regions, ∀ entry ∈ region.write.entries, Routed config entry) :
    ∃ replay, Replay.run config (untagged recovered.frames) Replay.new = some replay ∧
      replay.batchStartPosition = frames.head?.map Slot.offset ∧
      ∀ controlRegion ref key, (replay.entry controlRegion ref).get key =
        readable ((untagged (framesOf (whole.flatMap Region.all))).foldl
          (frameEffect config ref key) ((controlRegion.levels ref).lookup key)) := by
  have okWhole : ∀ region ∈ whole, region.Ok layout := fun region member =>
    ok region (sublist.subset member)
  obtain ⟨before, ranWhole⟩ := @Replay.run_spec config _ Replay.new
    (allExpected_regions okWhole fun region member => routed region (sublist.subset member))
  have closed : before.openBatch = OpenBatch.closed := ranWhole.batch.trans (run_regions okWhole)
  have early : ∀ write ∈ before.buffer, write.position.offset < recovered.position := by
    intro write member
    rcases ranWhole.places write member with new | ⟨frame, inside, place⟩
    · cases new
    · obtain ⟨slot, inWhole, here, _⟩ := mem_framesOf inside
      have inChain := List.mem_append_left markers inWhole
      have ends := (read.chain.between slot inChain).2
      have positive := (read.chain.ok slot inChain).offset_lt_stop
      omega
  have tornExpected : AllExpected config before.openBatch (framesOf frames) ∧
      (frames ≠ [] → ∀ frame ∈ framesOf frames, ∀ ks fromCell toCell cellsLen,
        frame.2.1 ≠ .dropCells ks fromCell toCell cellsLen) := by
    rw [closed]
    cases frames with
    | nil => exact ⟨trivial, fun nonempty => absurd rfl nonempty⟩
    | cons first rest =>
        obtain ⟨_, region, inside, missing, split⟩ := read.torn first rfl
        obtain ⟨expected, noDrop⟩ := allExpected_write (routed region inside) split
        exact ⟨expected, fun _ => noDrop (by rw [read.batch]; nofun)⟩
  obtain ⟨replay, ranTorn⟩ := Replay.run_spec tornExpected.1
  have isStart : replay.batchStartPosition = frames.head?.map Slot.offset := by
    have batch := congrArg OpenBatch.start ranTorn.batch
    rw [closed, read.batch] at batch
    exact batch
  have kept : replay.dropped = before.dropped ∧
      (replay.buffer.filter fun write =>
        replay.batchStartPosition.all fun cut => write.position.offset < cut) = before.buffer := by
    rw [isStart]
    cases frames with
    | nil =>
        obtain rfl : before = replay := Option.some.inj ranTorn.ran
        simp
    | cons first rest =>
        obtain ⟨dropped, writes, buffer, places⟩ :=
          ranTorn.added (tornExpected.2 (List.cons_ne_nil _ _))
        refine ⟨dropped, ?_⟩
        rw [buffer, List.filter_append, List.filter_eq_self.mpr, List.filter_eq_nil_iff.mpr,
          List.append_nil]
        · intro write member
          obtain ⟨frame, inside, place⟩ := places write member
          obtain ⟨slot, inFrames, here, _⟩ := mem_framesOf inside
          have late := read.behind slot inFrames
          have isFirst := read.position first rfl
          simp only [List.head?_cons, Option.map_some, Option.all_some, decide_eq_true_eq]
          omega
        · intro write member
          have isEarly := early write member
          rw [read.position first rfl] at isEarly
          simpa using isEarly
  refine ⟨replay, ?_, isStart, fun controlRegion ref key => ?_⟩
  · rw [read.read, untagged, List.map_append, Replay.run_append]
    exact (congrArg (Option.bind · _) ranWhole.ran).trans ranTorn.ran
  · rw [Replay.get_entry, kept.1, kept.2]
    exact congrArg readable (ranWhole.effect ref key _)

/-- What becomes of a log that is cut at a byte. -/
structure CutReplay (layout : WalLayout) (config : Config) (start : Nat) (regions : List Region)
    (dangling : List (Slot Nat)) (cut : Nat) (recovered : Recovered Nat) (replay : Replay) :
    Prop where
  read : recover layout (cutDisk layout start (regions.flatMap Region.all ++ dangling) cut) start =
    some recovered
  ran : Replay.run config (untagged recovered.frames) Replay.new = some replay
  /-- Every key gets the effect of the writes in front of the cut, all of them and nothing
  else. -/
  effect : ∀ controlRegion ref key, (replay.entry controlRegion ref).get key =
    readable ((untagged (framesOf ((wholeRegions cut regions).flatMap Region.all))).foldl
      (frameEffect config ref key) ((controlRegion.levels ref).lookup key))
  /-- The writer starts behind them. -/
  position : ∃ markers : List (Slot Nat), (∀ slot ∈ markers, slot.item = .skipMarker) ∧
    Chained layout start ((wholeRegions cut regions).flatMap Region.all ++ markers)
      recovered.position
  /-- It starts at the first frame read of the batch the cut falls into. -/
  batch : ∀ torn ∈ (recovered.frames.drop
      (framesOf ((wholeRegions cut regions).flatMap Region.all)).length).head?,
    recovered.position = torn.1
  /-- Whatever is written then, and wherever the log is cut again, the frames of that batch
  are not read again. -/
  again : ∀ tag writes more last,
    layWrites layout tag recovered.position writes = some (more, last) → ∀ later, ∃ again,
      recover layout (recovered.disk.writeAll layout (cutSlots later (more.flatMap Region.all)))
        start = some again ∧
      again.frames = framesOf ((wholeRegions cut regions).flatMap Region.all) ++
        framesOf (cutSlots later (more.flatMap Region.all))

end Tidehunter.Db
