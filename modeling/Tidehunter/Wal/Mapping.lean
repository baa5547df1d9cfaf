import Tidehunter.Wal.Lineage
import Tidehunter.Wal.Mapper
import Tidehunter.Wal.Tracking

/-!
# Writers, the tracker and the mapper

A writer takes space, gets the map of the fragment that its skip marker lies in and writes the
marker, gets the map of its region, sends the allocation to the tracker, copies, and drops the
guard. The tracker tells the mapper of each fragment that its frontier has left; the mapper makes
it read-only, hands it to the syncer and maps one more. All of this interleaves, also with
requests to delete files.
-/

namespace Tidehunter.Wal

open Library

/-! ## The fragments that a chain leaves -/

theorem range'_join {low middle high : Nat} (first : low ≤ middle) (second : middle ≤ high) :
    List.range' low (middle - low) ++ List.range' middle (high - middle) =
      List.range' low (high - low) := by
  have joined : List.range' low (middle - low) ++
      List.range' (low + (middle - low)) (high - middle) =
        List.range' low (middle - low + (high - middle)) := List.range'_append_1
  rw [Nat.add_sub_cancel' first] at joined
  rw [joined]
  congr 1
  omega

namespace WalLayout

/-- The fragment that is open when the log ends at a position: a fragment filled to its end is
left by the next allocation. -/
def openFragment (layout : WalLayout) (position : Nat) : Nat := layout.locate (position - 1)

variable {layout : WalLayout}

theorem locate_mono (layout : WalLayout) {first second : Nat} (ordered : first ≤ second) :
    layout.locate first ≤ layout.locate second :=
  Nat.div_le_div_right ordered

theorem openFragment_mono (layout : WalLayout) {first second : Nat} (ordered : first ≤ second) :
    layout.openFragment first ≤ layout.openFragment second :=
  layout.locate_mono (Nat.sub_le_sub_right ordered 1)

theorem openFragment_le (layout : WalLayout) (position : Nat) :
    layout.openFragment position ≤ layout.locate position :=
  layout.locate_mono (Nat.sub_le _ _)

theorem locate_le_openFragment (layout : WalLayout) (position : Nat) :
    layout.locate position ≤ layout.openFragment position + 1 := by
  have inside := layout.lt_mapStart_locate (position - 1)
  change position - 1 < layout.mapStart (layout.openFragment position + 1) at inside
  have before : position ≤ layout.mapStart (layout.openFragment position + 1) := by omega
  have ordered := layout.locate_mono before
  rwa [layout.locate_mapStart] at ordered

/-- Inside a fragment the open one is the fragment itself. -/
theorem openFragment_eq_locate {position : Nat}
    (inside : layout.mapStart (layout.locate position) ≠ position) :
    layout.openFragment position = layout.locate position := by
  have low := layout.mapStart_locate_le position
  have high := layout.lt_mapStart_locate position
  exact layout.locate_eq_iff.mpr ⟨by omega, by omega⟩

theorem openFragment_mapStart (layout : WalLayout) (map : Nat) :
    layout.openFragment (layout.mapStart (map + 1)) = map := by
  have wide : layout.mapStart (map + 1) = layout.mapStart map + layout.fragSize := Nat.mul_add_one _ _
  have positive := layout.fragSize_pos
  exact layout.locate_eq_iff.mpr ⟨by omega, by omega⟩

/-- A region as an allocation makes it: at the start of a fragment there is no gap. -/
structure Allocated (layout : WalLayout) (result : AllocationResult) : Prop where
  placed : ∃ len, layout.Placed len result
  atStart : layout.mapStart (layout.locate result.previousPosition) = result.previousPosition →
    result.allocatedPosition = result.previousPosition

theorem Allocated.le {result : AllocationResult} (allocated : layout.Allocated result) :
    result.previousPosition ≤ result.allocatedPosition := by
  obtain ⟨len, placed⟩ := allocated.placed
  have next := layout.lt_mapStart_locate result.previousPosition
  rcases placed.starts with same | moved
  · exact same.ge
  · omega

/-- An allocation leaves the open fragment if it lies in the next one. -/
theorem Allocated.leftFragment_eq {result : AllocationResult} (allocated : layout.Allocated result) :
    (WalTrackerThread.leftFragment layout result).toList =
      List.range' (layout.openFragment result.previousPosition)
        (layout.openFragment result.nextPosition -
          layout.openFragment result.previousPosition) := by
  obtain ⟨⟨len, placed⟩, atStart⟩ := allocated
  have after : layout.openFragment result.nextPosition = layout.locate result.allocatedPosition :=
    placed.inFragment.symm
  rw [after, WalTrackerThread.leftFragment]
  by_cases first : layout.mapStart (layout.locate result.previousPosition) = result.previousPosition
  · rw [atStart first, if_pos first.symm]
    cases fragment : layout.locate result.previousPosition with
    | zero =>
        rw [Nat.zero_sub]
        rfl
    | succ map =>
        have before : layout.openFragment result.previousPosition = map := by
          rw [← first, fragment, openFragment_mapStart]
        rw [before, Nat.add_sub_cancel_left]
        rfl
  · rw [openFragment_eq_locate first]
    rcases placed.starts with same | moved
    · rw [same, if_neg (Ne.symm first), Nat.sub_self]
      rfl
    · rw [moved, layout.locate_mapStart, if_pos rfl, Nat.add_sub_cancel_left]
      rfl

end WalLayout

/-- A chain leaves one fragment after the other. -/
theorem AllocationChain.leftFragments {layout : WalLayout} {start stop : Nat}
    {results : List AllocationResult} (chained : AllocationChain start results stop)
    (allocated : ∀ result ∈ results, layout.Allocated result) :
    results.filterMap (WalTrackerThread.leftFragment layout) =
      List.range' (layout.openFragment start)
        (layout.openFragment stop - layout.openFragment start) := by
  induction results generalizing start with
  | nil =>
      obtain rfl : start = stop := chained
      rw [Nat.sub_self]
      rfl
  | cons result rest ih =>
      obtain ⟨previous, forward, chained⟩ := chained
      obtain ⟨here, later⟩ := List.forall_mem_cons.mp allocated
      have split : (result :: rest).filterMap (WalTrackerThread.leftFragment layout) =
          (WalTrackerThread.leftFragment layout result).toList ++
            rest.filterMap (WalTrackerThread.leftFragment layout) := by
        rw [List.filterMap_cons]
        cases WalTrackerThread.leftFragment layout result <;> rfl
      rw [split, here.leftFragment_eq, ih chained later, ← previous]
      exact range'_join (layout.openFragment_mono forward.le) (layout.openFragment_mono chained.le)

namespace TrackedWal

variable {layout : WalLayout} {start : Nat} {wal next : TrackedWal}

def results (wal : TrackedWal) : List AllocationResult := wal.allocator.results.map Prod.snd

/-- The internal frontier. -/
def frontier (wal : TrackedWal) : Nat := wal.thread.state.lastProcessed

/-- The mapper is told of every fragment that the frontier has left, in order. -/
structure Leaves (layout : WalLayout) (start : Nat) (wal : TrackedWal) : Prop where
  allocated : ∀ result ∈ wal.results, layout.Allocated result
  finalized : wal.finalized = List.range' (layout.openFragment start)
    (layout.openFragment wal.frontier - layout.openFragment start)

theorem leaves_start (layout : WalLayout) (position : Nat) :
    (TrackedWal.start position).Leaves layout position :=
  ⟨nofun, (congrArg (List.range' _) (Nat.sub_self (layout.openFragment position))).symm⟩

theorem frontier_le (ok : wal.Ok layout start) : start ≤ wal.frontier := by
  obtain ⟨done, rest, stop, -, doneChain, -⟩ := ok.thread.tracks.split
  exact doneChain.le

theorem Leaves.allocate (leaves : wal.Leaves layout start) (ok : wal.Ok layout start)
    {event : WalAllocator.Event} (sized : event.Sized layout) {allocator : WalAllocator}
    (stepped : wal.allocator.step layout event = some allocator) :
    Leaves layout start { wal with allocator } := by
  refine ⟨?_, leaves.finalized⟩
  have sound := WalAllocator.sound_step ok.sound sized stepped
  rcases WalAllocator.step_cases stepped with ⟨thread, len, -, rfl⟩ | ⟨thread, len, -, rfl⟩ |
    ⟨thread, len, currentPos, -, rfl⟩ | ⟨thread, len, result, -, allocated, rfl⟩
  · exact leaves.allocated
  · exact leaves.allocated
  · exact leaves.allocated
  · intro other member
    change other ∈ (wal.allocator.results ++ [(len, result)]).map Prod.snd at member
    rw [List.map_append] at member
    rcases List.mem_append.mp member with old | new
    · exact leaves.allocated other old
    · rw [List.mem_singleton.mp new]
      have placed := sound.placed (len, result)
        (List.mem_append_right _ (List.mem_singleton_self _))
      obtain ⟨previous, -, taken⟩ := WalLayout.allocate_spec allocated
      refine ⟨⟨len, placed⟩, fun first => ?_⟩
      rw [previous] at first ⊢
      have positive := placed.len_pos
      exact WalLayout.allocate_at_start allocated first
        (positive.trans_le (layout.le_align len))

theorem Leaves.receive (leaves : wal.Leaves layout start) (ok : wal.Ok layout start)
    {message : WalTrackerMessage} {rest : List WalTrackerMessage}
    (isNext : wal.channel = message :: rest) :
    (wal.handleMessage layout message rest).Leaves layout start := by
  refine ⟨leaves.allocated, ?_⟩
  have nothing {thread : WalTrackerThread} (same : thread.state = wal.thread.state) :
      wal.finalized ++ [] = List.range' (layout.openFragment start)
        (layout.openFragment thread.state.lastProcessed - layout.openFragment start) := by
    rw [List.append_nil, same]
    exact leaves.finalized
  cases message with
  | allocation result =>
      obtain ⟨taken, fresh⟩ := ok.brings isNext result (List.mem_singleton_self _)
      obtain ⟨-, done, later, stop, isResults, doneChain, processedChain, -⟩ :=
        ok.thread.tracks.addProcessed_spec taken fresh
      have allocated : ∀ other ∈ (wal.thread.state.addProcessed result).2,
          layout.Allocated other := by
        intro other member
        refine leaves.allocated other ?_
        rw [results, isResults]
        exact List.mem_append_right _ (List.mem_append_left _ member)
      have told : (wal.thread.handle layout (.allocation result)).2.2 =
          (wal.thread.state.addProcessed result).2.filterMap
            (WalTrackerThread.leftFragment layout) := by
        simp only [WalTrackerThread.handle]
        split <;> rfl
      have moved : (wal.thread.handle layout (.allocation result)).1.state =
          (wal.thread.state.addProcessed result).1 := by
        simp only [WalTrackerThread.handle]
        split <;> rfl
      show wal.finalized ++ (wal.thread.handle layout (.allocation result)).2.2 =
        List.range' _ (layout.openFragment (wal.thread.handle layout
          (.allocation result)).1.state.lastProcessed - _)
      rw [told, moved, processedChain.leftFragments allocated, leaves.finalized]
      exact range'_join (layout.openFragment_mono doneChain.le)
        (layout.openFragment_mono processedChain.le)
  | latchRequest response =>
      simp only [handleMessage, frontier, WalTrackerThread.handle]
      split
      · exact nothing rfl
      · exact nothing rfl
  | latchRelease latch => exact nothing rfl
  | waitProcessed response =>
      simp only [handleMessage, frontier, WalTrackerThread.handle]
      split
      · exact nothing rfl
      · exact nothing rfl
  | barrier => exact nothing rfl

theorem Leaves.step (leaves : wal.Leaves layout start) (ok : wal.Ok layout start) {event : Event}
    (sized : event.Sized layout) (stepped : wal.step layout event = some next) :
    next.Leaves layout start := by
  cases event with
  | allocate event =>
      obtain ⟨allocator, moved, rfl⟩ := Option.map_eq_some_iff.mp stepped
      exact leaves.allocate ok sized moved
  | allocated result =>
      simp only [TrackedWal.step] at stepped
      split at stepped
      · cases stepped
        exact ⟨leaves.allocated, leaves.finalized⟩
      · cases stepped
  | dropGuard result =>
      cases stepped
      exact ⟨leaves.allocated, leaves.finalized⟩
  | requestLatch =>
      cases stepped
      exact ⟨leaves.allocated, leaves.finalized⟩
  | releaseLatch latch =>
      cases stepped
      exact ⟨leaves.allocated, leaves.finalized⟩
  | requestWait =>
      cases stepped
      exact ⟨leaves.allocated, leaves.finalized⟩
  | barrier =>
      cases stepped
      exact ⟨leaves.allocated, leaves.finalized⟩
  | receive =>
      simp only [TrackedWal.step] at stepped
      split at stepped
      · cases stepped
      · rename_i message rest isNext
        split at stepped
        · cases stepped
          exact leaves.receive ok isNext
        · cases stepped

/-- Behind the frontier nothing is missing: an allocation that is not received begins at or
behind it. -/
theorem frontier_le_of_not_received (ok : wal.Ok layout start) {result : AllocationResult}
    (taken : result ∈ wal.results) (missing : result ∉ wal.received) :
    wal.frontier ≤ result.previousPosition := by
  obtain ⟨done, rest, stop, isResults, doneChain, restChain, -, known⟩ := ok.thread.tracks.split
  change wal.results = _ at isResults
  rw [isResults] at taken
  rcases List.mem_append.mp taken with isDone | inRest
  · exact absurd ((known result).mpr (.inl isDone)) missing
  · exact (restChain.mem_bounds inRest).1

theorem received_sent (ok : wal.Ok layout start) {result : AllocationResult}
    (received : result ∈ wal.received) : result ∈ wal.sent :=
  ok.inFlight result (List.mem_append_right _ received)

end TrackedWal

/-! ## The machine -/

structure MappedWal where
  tracked : TrackedWal
  /-- Allocations that have the map for their skip marker. -/
  marking : List AllocationResult
  /-- Allocations whose skip marker is written. -/
  marked : List AllocationResult
  /-- Allocations that have the map for their region. -/
  mapped : List AllocationResult
  /-- Allocations whose region is copied. -/
  copied : List AllocationResult
  mapper : WalMapperThread
  channel : List WalMapperMessage
  /-- A writer found a map that is not writeable. -/
  panicked : Bool

namespace MappedWal

def start (position : Nat) (mapper : WalMapperThread) : MappedWal :=
  ⟨.start position, [], [], [], [], mapper, [], false⟩

inductive Event where
  /-- Any step of the allocator, the tracker and those that wait for it. -/
  | track (event : TrackedWal.Event)
  | findMarkerMap (result : AllocationResult)
  | writeSkipMarker (result : AllocationResult)
  | findMap (result : AllocationResult)
  | copy (result : AllocationResult)
  /-- Ask the mapper to delete files. -/
  | request (message : WalMapperMessage)
  /-- The mapper handles the next message. -/
  | receive
  deriving DecidableEq, Repr

/-- An allocation is sent by a writer that has its map, and its guard is dropped once it is
copied. -/
def admits (wal : MappedWal) : TrackedWal.Event → Bool
  | .allocated result => wal.mapped.contains result
  | .dropGuard result => wal.copied.contains result
  | _ => true

/-- Look for the map of a position. None while the writer waits for the mapper. -/
def getWriteableMap (layout : WalLayout) (wal : MappedWal) (position : Nat)
    (found : MappedWal) : Option MappedWal :=
  match wal.mapper.maps.lookup (layout.locate position) with
  | none => none
  | some true => some found
  | some false => some { wal with panicked := true }

/-- The steps. A panic of the mapper ends the run. -/
def step (layout : WalLayout) (maxMaps : Nat) (wal : MappedWal) : Event → Option MappedWal
  | .track event =>
      if wal.admits event then
        (wal.tracked.step layout event).map fun tracked =>
          { wal with
            tracked
            channel := wal.channel ++
              (tracked.finalized.drop wal.tracked.finalized.length).map .mapFinalized }
      else none
  | .findMarkerMap result =>
      if result ∈ wal.tracked.results ∧ result ∉ wal.marking then
        match result.needSkipMarker with
        | none => none
        | some marker =>
            wal.getWriteableMap layout marker { wal with marking := result :: wal.marking }
      else none
  | .writeSkipMarker result =>
      if result ∈ wal.marking then some { wal with marked := result :: wal.marked } else none
  | .findMap result =>
      if result ∈ wal.tracked.results ∧ result ∉ wal.mapped ∧
          (result.needSkipMarker = none ∨ result ∈ wal.marked) then
        wal.getWriteableMap layout result.allocatedPosition
          { wal with mapped := result :: wal.mapped }
      else none
  | .copy result =>
      if result ∈ wal.tracked.sent then some { wal with copied := result :: wal.copied } else none
  | .request message =>
      match message with
      | .mapFinalized _ => none
      | .minWalPositionUpdated _ => some { wal with channel := wal.channel ++ [message] }
      | .deleteFiles _ => some { wal with channel := wal.channel ++ [message] }
  | .receive =>
      match wal.channel with
      | [] => none
      | message :: channel =>
          (wal.mapper.handle layout maxMaps message).map fun mapper => { wal with mapper, channel }

/-- The fragments that messages in a channel finalize. -/
def finalizing (channel : List WalMapperMessage) : List Nat :=
  channel.filterMap fun
    | .mapFinalized map => some map
    | .minWalPositionUpdated _ => none
    | .deleteFiles _ => none

/-- What finalization guarantees to a writer that started at a position. -/
structure Safe (layout : WalLayout) (position : Nat) (wal : MappedWal) : Prop where
  /-- What lies in a fragment handed to the syncer is copied, and so are skip markers. -/
  copied : ∀ map ∈ wal.mapper.synced, ∀ result ∈ wal.tracked.results,
    (layout.locate result.allocatedPosition = map → result ∈ wal.copied) ∧
    ∀ marker, result.needSkipMarker = some marker → layout.locate marker = map →
      result ∈ wal.marked
  writeable : wal.panicked = false
  /-- The fragments that the writer left are finalized in order and once: those already handed to
  the syncer, then those of the messages that wait. -/
  inOrder : (wal.mapper.synced ++ finalizing wal.channel).filter
      (fun map => decide (layout.locate position ≤ map)) =
    List.range' (layout.locate position)
      (layout.openFragment wal.tracked.frontier - layout.locate position)
  /-- What was mapped and is not finalized is mapped. -/
  kept : ∀ map, layout.locate position ≤ map → map ≤ wal.mapper.mapId → map ∉ wal.mapper.synced →
    wal.mapper.maps.lookup map = some true

/-! ## The window of the mapper -/

/-- The maps between the next fragment to be finalized and the last one: `first` is the fragment
of the writer's start, `left` the fragment that is open at the frontier. -/
structure Window (maxMaps first left : Nat) (waiting : List Nat) (mapper : WalMapperThread)
    (next : Nat) : Prop where
  atLeast : first ≤ next + 1
  atMost : next ≤ left
  waiting : waiting = List.range' next (left - next)
  covers : mapper.maps.Covers (max first next) (mapper.mapId + 1)
  below : mapper.maps.Below maxMaps (mapper.mapId + 1)
  fits : mapper.mapId + 1 ≤ max first next + maxMaps
  synced : mapper.synced.filter (fun map => decide (first ≤ map)) = List.range' first (next - first)
  finalized : ∀ map ∈ mapper.synced, map < next
  readonly : ∀ map, mapper.maps.lookup map = some false → map < max first next

variable {layout : WalLayout} {maxMaps first left next : Nat} {waiting : List Nat}
  {mapper moved : WalMapperThread}

theorem Window.extend (window : Window maxMaps first left waiting mapper next) {later : Nat}
    (ordered : left ≤ later) :
    Window maxMaps first later (waiting ++ List.range' left (later - left)) mapper next :=
  { window with
    atMost := window.atMost.trans ordered
    waiting := by
      rw [window.waiting]
      exact range'_join window.atMost ordered }

theorem Window.deleteFiles (window : Window maxMaps first left waiting mapper next)
    (files : List Nat) :
    Window maxMaps first left waiting (mapper.deleteFiles layout files) next := by
  refine ⟨window.atLeast, window.atMost, window.waiting, fun map low high => ?_,
    window.below.of_subset fun map writeable found => ?_, window.fits, window.synced,
    window.finalized, fun map found => ?_⟩
  · show SortedMap.lookup (SortedMap.filter _ _) map = some true
    rw [SortedMap.lookup_filter, window.covers map low high]
    rfl
  · change SortedMap.lookup (SortedMap.filter _ _) map = some writeable at found
    rw [SortedMap.lookup_filter] at found
    exact ⟨writeable, (Option.filter_eq_some_iff.mp found).1⟩
  · change SortedMap.lookup (SortedMap.filter _ _) map = some false at found
    rw [SortedMap.lookup_filter] at found
    exact window.readonly map (Option.filter_eq_some_iff.mp found).1

/-- Messages come in order. -/
theorem Window.waiting_cons {map : Nat} {rest : List Nat}
    (window : Window maxMaps first left (map :: rest) mapper next) :
    next = map ∧ next < left ∧ rest = List.range' (next + 1) (left - (next + 1)) := by
  have waiting := window.waiting
  cases count : left - next with
  | zero =>
      rw [count] at waiting
      cases waiting
  | succ more =>
      rw [count, List.range'_succ] at waiting
      obtain ⟨isNext, isRest⟩ := List.cons.inj waiting
      exact ⟨isNext.symm, by omega, by rw [isRest, show left - (next + 1) = more by omega]⟩

/-- A fragment in front of the writer's that is not mapped for writing. -/
theorem Window.skip {map : Nat} {rest : List Nat}
    (window : Window maxMaps first left (map :: rest) mapper next) (front : next < first) :
    Window maxMaps first left rest mapper (next + 1) := by
  obtain ⟨-, more, isRest⟩ := window.waiting_cons
  have atLeast := window.atLeast
  have same : max first (next + 1) = max first next := by omega
  have none : next + 1 - first = next - first := by omega
  exact ⟨by omega, more, isRest, same ▸ window.covers, window.below, same ▸ window.fits,
    none ▸ window.synced, fun map member => (window.finalized map member).trans (Nat.lt_succ_self _),
    same ▸ window.readonly⟩

theorem Window.finalize {map : Nat} {rest : List Nat}
    (window : Window maxMaps first left (map :: rest) mapper next)
    (writeable : mapper.maps.lookup map = some true)
    (made : WalMapperThread.makeMap layout maxMaps
      { mapper with
        maps := mapper.maps.insert map false
        synced := mapper.synced ++ [map] } (mapper.mapId + 1) = some moved) :
    Window maxMaps first left rest moved (next + 1) := by
  obtain ⟨rfl, more, isRest⟩ := window.waiting_cons
  have atLeast := window.atLeast
  -- The range that stays mapped is not longer than before, or the fragment was in front of it.
  have fits : mapper.mapId + 2 ≤ max first (next + 1) + maxMaps := by
    by_cases front : next < first
    · have covers : mapper.maps.Covers next (mapper.mapId + 1) := by
        intro map low high
        rcases Nat.eq_or_lt_of_le low with rfl | above
        · exact writeable
        · exact window.covers map (by omega) high
      have size := covers.le_size.trans window.below.size
      omega
    · have before := window.fits
      omega
  obtain ⟨files, -, mapped, -, isLast, isSynced⟩ := WalMapperThread.makeMap_eq_some made
  have covers : WalMaps.Covers (mapper.maps.insert next false) (max first (next + 1))
      (mapper.mapId + 1) := by
    intro map low high
    rw [SortedMap.lookup_insert_of_ne _ _ (by omega)]
    exact window.covers map (by omega) high
  have below : WalMaps.Below (mapper.maps.insert next false) maxMaps (mapper.mapId + 1) := by
    refine window.below.of_subset fun map before found => ?_
    rw [SortedMap.lookup_insert] at found
    split at found
    · rename_i same
      exact ⟨true, same ▸ writeable⟩
    · exact ⟨before, found⟩
  obtain ⟨maps, again, covers, below, origin⟩ := covers.map_next below (by omega)
  obtain rfl := Option.some.inj (mapped.symm.trans again)
  refine ⟨by omega, more, isRest, isLast ▸ covers, isLast ▸ below,
    by rw [isLast]; omega, ?_, fun map member => ?_, fun map found => ?_⟩
  · rw [isSynced, List.filter_append, window.synced, List.filter_singleton]
    by_cases front : next < first
    · rw [decide_eq_false (Nat.not_le.mpr front), show next + 1 - first = 0 by omega,
        show next - first = 0 by omega]
      rfl
    · rw [decide_eq_true (Nat.le_of_not_lt front),
        show next + 1 - first = next - first + 1 by omega, List.range'_concat]
      simp only [cond_true, Nat.one_mul]
      rw [Nat.add_sub_cancel' (Nat.le_of_not_lt front)]
  · rw [isSynced] at member
    rcases List.mem_append.mp member with old | new
    · exact (window.finalized map old).trans (Nat.lt_succ_self _)
    · rw [List.mem_singleton.mp new]
      exact Nat.lt_succ_self _
  · rcases origin map false found with ⟨-, isFalse⟩ | before
    · cases isFalse
    · rw [SortedMap.lookup_insert] at before
      split at before
      · rename_i same
        omega
      · have old := window.readonly map before
        omega

/-! ## Runs -/

/-- Writers go one step after the other, the tracker has told the mapper of every fragment left,
and the maps form a window. -/
structure Ok (layout : WalLayout) (maxMaps position : Nat) (wal : MappedWal) : Prop where
  tracked : wal.tracked.Ok layout position
  leaves : wal.tracked.Leaves layout position
  marking : ∀ result ∈ wal.marked, result ∈ wal.marking
  marked : ∀ result ∈ wal.mapped, result.needSkipMarker = none ∨ result ∈ wal.marked
  sent : ∀ result ∈ wal.tracked.sent, result ∈ wal.mapped
  copied : ∀ result ∈ wal.tracked.sent, result ∈ wal.tracked.held ∨ result ∈ wal.copied
  reached : ∀ result ∈ wal.mapped, layout.locate result.allocatedPosition ≤ wal.mapper.mapId
  started : layout.locate position ≤ wal.mapper.mapId
  writeable : wal.panicked = false
  window : ∃ next, Window maxMaps (layout.locate position)
    (layout.openFragment wal.tracked.frontier) (finalizing wal.channel) wal.mapper next

variable {position : Nat} {wal reached : MappedWal}

theorem Ok.mapped_of_received (ok : wal.Ok layout maxMaps position) {result : AllocationResult}
    (received : result ∈ wal.tracked.received) : result ∈ wal.mapped :=
  ok.sent result (TrackedWal.received_sent ok.tracked received)

theorem Ok.copied_of_received (ok : wal.Ok layout maxMaps position) {result : AllocationResult}
    (received : result ∈ wal.tracked.received) : result ∈ wal.copied :=
  (ok.copied result (TrackedWal.received_sent ok.tracked received)).resolve_left
    (ok.tracked.dropped result received)

/-- The fragment at the frontier is mapped. -/
theorem Ok.open_le (ok : wal.Ok layout maxMaps position) :
    layout.openFragment wal.tracked.frontier ≤ wal.mapper.mapId := by
  have isReached := ok.tracked.thread.tracks.isFrontier.reached
  change Reached position wal.tracked.received wal.tracked.frontier at isReached
  generalize wal.tracked.frontier = frontier at isReached
  cases isReached with
  | start => exact (layout.openFragment_le position).trans ok.started
  | @next result member _ =>
      have taken := ok.tracked.sent result (TrackedWal.received_sent ok.tracked member)
      obtain ⟨len, placed⟩ := (ok.leaves.allocated result taken).placed
      exact placed.inFragment.symm.trans_le (ok.reached result (ok.mapped_of_received member))

/-- A writer in front of the tracker never finds a map that is not writeable. -/
theorem Ok.not_readonly (ok : wal.Ok layout maxMaps position) {result : AllocationResult}
    (taken : result ∈ wal.tracked.results) (missing : result ∉ wal.mapped) {offset : Nat}
    (behind : result.previousPosition ≤ offset) :
    wal.mapper.maps.lookup (layout.locate offset) ≠ some false := by
  intro found
  obtain ⟨next, window⟩ := ok.window
  have frontier := TrackedWal.frontier_le_of_not_received ok.tracked taken fun received =>
    missing (ok.mapped_of_received received)
  have first := layout.locate_mono ((TrackedWal.frontier_le ok.tracked).trans (frontier.trans behind))
  have left := (layout.openFragment_le _).trans (layout.locate_mono (frontier.trans behind))
  have atMost := window.atMost
  have isFinalized := window.readonly _ found
  omega

theorem Ok.getWriteableMap (ok : wal.Ok layout maxMaps position) {result : AllocationResult}
    (taken : result ∈ wal.tracked.results) (missing : result ∉ wal.mapped) {offset : Nat}
    (behind : result.previousPosition ≤ offset) {found : MappedWal}
    (gets : wal.getWriteableMap layout offset found = some reached) :
    reached = found ∧ wal.mapper.maps.lookup (layout.locate offset) = some true := by
  have notReadonly := ok.not_readonly taken missing behind
  unfold MappedWal.getWriteableMap at gets
  split at gets
  · cases gets
  · rename_i writeable
    exact ⟨(Option.some.inj gets).symm, writeable⟩
  · rename_i readonly
    exact absurd readonly notReadonly

theorem finalizing_append (channel more : List WalMapperMessage) :
    finalizing (channel ++ more) = finalizing channel ++ finalizing more :=
  List.filterMap_append

theorem finalizing_mapFinalized (maps : List Nat) :
    finalizing (maps.map .mapFinalized) = maps := by
  induction maps with
  | nil => rfl
  | cons map rest ih => exact congrArg (map :: ·) ih

/-- What a step of the tracker does to the guards. -/
theorem sent_step {tracked next : TrackedWal} {event : TrackedWal.Event}
    (stepped : tracked.step layout event = some next) :
    (∃ result, event = .allocated result ∧ next.sent = result :: tracked.sent ∧
      next.held = result :: tracked.held) ∨
    (∃ result, event = .dropGuard result ∧ next.sent = tracked.sent ∧
      next.held = tracked.held.filter fun other => other ≠ result) ∨
    (next.sent = tracked.sent ∧ next.held = tracked.held) := by
  cases event with
  | allocate event =>
      obtain ⟨allocator, -, rfl⟩ := Option.map_eq_some_iff.mp stepped
      exact .inr (.inr ⟨rfl, rfl⟩)
  | allocated result =>
      simp only [TrackedWal.step] at stepped
      split at stepped
      · cases stepped
        exact .inl ⟨result, rfl, rfl, rfl⟩
      · cases stepped
  | dropGuard result =>
      cases stepped
      exact .inr (.inl ⟨result, rfl, rfl, rfl⟩)
  | requestLatch =>
      cases stepped
      exact .inr (.inr ⟨rfl, rfl⟩)
  | releaseLatch latch =>
      cases stepped
      exact .inr (.inr ⟨rfl, rfl⟩)
  | requestWait =>
      cases stepped
      exact .inr (.inr ⟨rfl, rfl⟩)
  | barrier =>
      cases stepped
      exact .inr (.inr ⟨rfl, rfl⟩)
  | receive =>
      simp only [TrackedWal.step] at stepped
      split at stepped
      · cases stepped
      · split at stepped
        · cases stepped
          exact .inr (.inr ⟨rfl, rfl⟩)
        · cases stepped

/-- Space is asked for by the byte, at most a fragment at once. -/
def Event.Sized (layout : WalLayout) : Event → Prop
  | .track event => event.Sized layout
  | _ => True

theorem Ok.track (ok : wal.Ok layout maxMaps position) {event : TrackedWal.Event}
    (sized : event.Sized layout) (admitted : wal.admits event = true) {tracked : TrackedWal}
    (stepped : wal.tracked.step layout event = some tracked) :
    Ok layout maxMaps position { wal with
      tracked
      channel := wal.channel ++
        (tracked.finalized.drop wal.tracked.finalized.length).map .mapFinalized } := by
  obtain ⟨trackedOk, -, advances⟩ := ok.tracked.step sized stepped
  have leaves := ok.leaves.step ok.tracked sized stepped
  obtain ⟨next, window⟩ := ok.window
  have forward : layout.openFragment wal.tracked.frontier ≤ layout.openFragment tracked.frontier :=
    layout.openFragment_mono advances
  have told : tracked.finalized.drop wal.tracked.finalized.length =
      List.range' (layout.openFragment wal.tracked.frontier)
        (layout.openFragment tracked.frontier - layout.openFragment wal.tracked.frontier) := by
    rw [leaves.finalized, ok.leaves.finalized,
      ← range'_join (layout.openFragment_mono (TrackedWal.frontier_le ok.tracked)) forward,
      List.drop_left]
  have windowLater : Window maxMaps (layout.locate position) (layout.openFragment tracked.frontier)
      (finalizing (wal.channel ++
        (tracked.finalized.drop wal.tracked.finalized.length).map .mapFinalized))
      wal.mapper next := by
    rw [finalizing_append, finalizing_mapFinalized, told]
    exact window.extend forward
  rcases sent_step stepped with ⟨result, rfl, isSent, isHeld⟩ | ⟨result, rfl, isSent, isHeld⟩ |
    ⟨isSent, isHeld⟩
  · refine { ok with
      tracked := trackedOk
      leaves
      sent := fun other member => ?_
      copied := fun other member => ?_
      window := ⟨next, windowLater⟩ }
    · rcases List.mem_cons.mp (isSent ▸ member) with rfl | old
      · exact List.contains_iff_mem.mp admitted
      · exact ok.sent other old
    · show other ∈ tracked.held ∨ other ∈ wal.copied
      rw [isHeld]
      rcases List.mem_cons.mp (isSent ▸ member) with rfl | old
      · exact .inl List.mem_cons_self
      · exact (ok.copied other old).imp_left (List.mem_cons_of_mem _)
  · refine { ok with
      tracked := trackedOk
      leaves
      sent := fun other member => ok.sent other (isSent ▸ member)
      copied := fun other member => ?_
      window := ⟨next, windowLater⟩ }
    show other ∈ tracked.held ∨ other ∈ wal.copied
    by_cases same : other = result
    · exact .inr (same ▸ List.contains_iff_mem.mp admitted)
    · refine (ok.copied other (isSent ▸ member)).imp_left fun held => ?_
      rw [isHeld]
      exact List.mem_filter.mpr ⟨held, decide_eq_true same⟩
  · exact { ok with
      tracked := trackedOk
      leaves
      sent := fun other member => ok.sent other (isSent ▸ member)
      copied := fun other member => isHeld ▸ ok.copied other (isSent ▸ member)
      window := ⟨next, windowLater⟩ }

theorem Ok.receive (ok : wal.Ok layout maxMaps position) {message : WalMapperMessage}
    {channel : List WalMapperMessage} (isNext : wal.channel = message :: channel)
    {mapper : WalMapperThread} (handled : wal.mapper.handle layout maxMaps message = some mapper) :
    Ok layout maxMaps position { wal with mapper, channel } := by
  obtain ⟨next, window⟩ := ok.window
  rw [isNext] at window
  have keeps (low : wal.mapper.mapId ≤ mapper.mapId) {later : Nat}
      (window : Window maxMaps (layout.locate position)
        (layout.openFragment wal.tracked.frontier) (finalizing channel) mapper later) :
      Ok layout maxMaps position { wal with mapper, channel } :=
    { ok with
      reached := fun result member => (ok.reached result member).trans low
      started := ok.started.trans low
      window := ⟨later, window⟩ }
  cases message with
  | mapFinalized map =>
      change Window _ _ _ (map :: finalizing channel) _ _ at window
      obtain ⟨rfl, more, -⟩ := window.waiting_cons
      -- From the writer's fragment on the next one to be finalized is mapped for writing.
      have front (notWriteable : wal.mapper.maps.lookup next ≠ some true) :
          next < layout.locate position := by
        refine Nat.lt_of_not_le fun atStart => notWriteable ?_
        have atOpen := ok.open_le
        exact window.covers next (by omega) (by omega)
      simp only [WalMapperThread.handle] at handled
      split at handled
      · rename_i absent
        cases handled
        exact keeps (Nat.le_refl _) (window.skip (front (absent ▸ nofun)))
      · rename_i readonly
        cases handled
        exact keeps (Nat.le_refl _) (window.skip (front (readonly ▸ nofun)))
      · rename_i writeable
        obtain ⟨-, -, -, -, isLast, -⟩ := WalMapperThread.makeMap_eq_some handled
        exact keeps (isLast ▸ Nat.le_succ _) (window.finalize writeable handled)
  | minWalPositionUpdated watermark =>
      cases handled
      exact keeps (Nat.le_refl _) (window.deleteFiles _)
  | deleteFiles files =>
      cases handled
      exact keeps (Nat.le_refl _) (window.deleteFiles _)

theorem Ok.request (ok : wal.Ok layout maxMaps position) {message : WalMapperMessage}
    (nothing : finalizing [message] = []) :
    Ok layout maxMaps position { wal with channel := wal.channel ++ [message] } := by
  obtain ⟨next, window⟩ := ok.window
  refine { ok with window := ⟨next, ?_⟩ }
  show Window _ _ _ (finalizing (wal.channel ++ [message])) _ _
  rw [finalizing_append, nothing, List.append_nil]
  exact window

theorem next_ok (ok : wal.Ok layout maxMaps position) {event : Event} (sized : event.Sized layout)
    (stepped : wal.step layout maxMaps event = some reached) :
    reached.Ok layout maxMaps position := by
  cases event with
  | track event =>
      simp only [step] at stepped
      split at stepped
      · rename_i admitted
        obtain ⟨tracked, moved, rfl⟩ := Option.map_eq_some_iff.mp stepped
        exact ok.track sized admitted moved
      · cases stepped
  | findMarkerMap result =>
      simp only [step] at stepped
      split at stepped
      · rename_i isNew
        split at stepped
        · cases stepped
        · rename_i marker needed
          have missing : result ∉ wal.mapped := by
            intro isMapped
            rcases ok.marked result isMapped with none | isMarked
            · rw [none] at needed
              cases needed
            · exact isNew.2 (ok.marking result isMarked)
          have isPrevious : result.previousPosition = marker := by
            unfold AllocationResult.needSkipMarker at needed
            split at needed
            · exact Option.some.inj needed
            · cases needed
          obtain ⟨rfl, -⟩ := ok.getWriteableMap isNew.1 missing isPrevious.le stepped
          exact { ok with
            marking := fun other member => List.mem_cons_of_mem _ (ok.marking other member) }
      · cases stepped
  | writeSkipMarker result =>
      simp only [step] at stepped
      split at stepped
      · rename_i isMarking
        cases stepped
        exact { ok with
          marking := List.forall_mem_cons.mpr ⟨isMarking, ok.marking⟩
          marked := fun other member => (ok.marked other member).imp_right (List.mem_cons_of_mem _) }
      · cases stepped
  | findMap result =>
      simp only [step] at stepped
      split at stepped
      · rename_i isNew
        obtain ⟨rfl, writeable⟩ := ok.getWriteableMap isNew.1 isNew.2.1
          (ok.leaves.allocated result isNew.1).le stepped
        obtain ⟨next, window⟩ := ok.window
        have below := window.below.keys _ (SortedMap.mem_entries_of_lookup writeable)
        exact { ok with
          marked := List.forall_mem_cons.mpr ⟨isNew.2.2, ok.marked⟩
          sent := fun other member => List.mem_cons_of_mem _ (ok.sent other member)
          reached := List.forall_mem_cons.mpr ⟨Nat.le_of_lt_succ below, ok.reached⟩ }
      · cases stepped
  | copy result =>
      simp only [step] at stepped
      split at stepped
      · cases stepped
        exact { ok with
          copied := fun other member => (ok.copied other member).imp_right (List.mem_cons_of_mem _) }
      · cases stepped
  | request message =>
      simp only [step] at stepped
      split at stepped
      · cases stepped
      · cases stepped
        exact ok.request rfl
      · cases stepped
        exact ok.request rfl
  | receive =>
      simp only [step] at stepped
      split at stepped
      · cases stepped
      · rename_i message channel isNext
        obtain ⟨mapper, handled, rfl⟩ := Option.map_eq_some_iff.mp stepped
        exact ok.receive isNext handled

theorem final_ok {events : List Event} (sized : ∀ event ∈ events, event.Sized layout)
    (ok : wal.Ok layout maxMaps position)
    (ran : runEvents (step layout maxMaps) events wal = some reached) :
    reached.Ok layout maxMaps position := by
  have met : AllSteps (step layout maxMaps) (fun _ event => event.Sized layout) events wal :=
    allSteps_of_mem (fun event member _ => sized event member) wal
  exact runEvents_invariant (fun held met => next_ok held met) ok met ran

theorem filter_waiting (atLeast : first ≤ next + 1) (atMost : next ≤ left) :
    List.range' first (next - first) ++
        (List.range' next (left - next)).filter (fun map => decide (first ≤ map)) =
      List.range' first (left - first) := by
  by_cases front : next < first
  · obtain rfl : first = next + 1 := by omega
    rw [show next - (next + 1) = 0 by omega]
    cases count : left - next with
    | zero =>
        rw [show left - (next + 1) = 0 by omega]
        rfl
    | succ more =>
        rw [List.range'_succ, List.filter_cons_of_neg (by simp),
          show left - (next + 1) = more by omega]
        refine List.filter_eq_self.mpr fun map member => decide_eq_true ?_
        exact (List.mem_range'_1.mp member).1
  · rw [List.filter_eq_self.mpr fun map member =>
      decide_eq_true ((Nat.le_of_not_lt front).trans (List.mem_range'_1.mp member).1)]
    exact range'_join (Nat.le_of_not_lt front) atMost

theorem Ok.safe (ok : wal.Ok layout maxMaps position) : wal.Safe layout position := by
  obtain ⟨next, window⟩ := ok.window
  -- What is not received lies in the open fragment or behind it.
  have isReceived {result : AllocationResult} (taken : result ∈ wal.tracked.results) {offset : Nat}
      (behind : result.previousPosition ≤ offset)
      (isSynced : layout.locate offset ∈ wal.mapper.synced) : result ∈ wal.tracked.received := by
    by_contra missing
    have frontier := TrackedWal.frontier_le_of_not_received ok.tracked taken missing
    have left := (layout.openFragment_le _).trans (layout.locate_mono (frontier.trans behind))
    have atMost := window.atMost
    have finalized := window.finalized _ isSynced
    omega
  refine ⟨fun map isSynced result taken => ⟨fun isMap => ?_, fun marker needed isMap => ?_⟩,
    ok.writeable, ?_, fun map atStart atMost notSynced => ?_⟩
  · exact ok.copied_of_received
      (isReceived taken (ok.leaves.allocated result taken).le (isMap ▸ isSynced))
  · have isPrevious : result.previousPosition ≤ marker := by
      obtain ⟨len, placed⟩ := (ok.leaves.allocated result taken).placed
      exact (placed.gap marker needed).1.ge
    have received := isReceived taken isPrevious (isMap ▸ isSynced)
    rcases ok.marked result (ok.mapped_of_received received) with none | isMarked
    · rw [none] at needed
      cases needed
    · exact isMarked
  · rw [List.filter_append, window.synced, window.waiting]
    exact filter_waiting window.atLeast window.atMost
  · refine window.covers map (Nat.max_le.mpr ⟨atStart, Nat.le_of_not_lt fun isFinalized => ?_⟩)
      (Nat.lt_succ_of_le atMost)
    have member : map ∈ wal.mapper.synced.filter fun map => decide (layout.locate position ≤ map) := by
      rw [window.synced]
      exact List.mem_range'_1.mpr ⟨atStart, by omega⟩
    exact notSynced (List.mem_filter.mp member).1

theorem ok_start {recovery : WalRecovery layout}
    (started : recovery.intoWriter maxMaps = some mapper)
    (fits : recovery.last + 3 ≤ layout.locate recovery.position + maxMaps) :
    (start recovery.position mapper).Ok layout maxMaps recovery.position := by
  obtain ⟨opened, isLast, isSynced⟩ := WalRecovery.opened started
  have atFirst := layout.locate_mono recovery.lower
  rw [layout.locate_mapStart] at atFirst
  have atLast := layout.locate_mono recovery.upper
  rw [layout.locate_mapStart] at atLast
  have isFirst : max (layout.locate recovery.position) (layout.openFragment recovery.position) =
      layout.locate recovery.position := Nat.max_eq_left (layout.openFragment_le _)
  refine ⟨TrackedWal.ok_start recovery.aligned, TrackedWal.leaves_start layout recovery.position,
    List.forall_mem_nil _, List.forall_mem_nil _, List.forall_mem_nil _, List.forall_mem_nil _,
    List.forall_mem_nil _, ?_, rfl, layout.openFragment recovery.position,
    layout.locate_le_openFragment _, Nat.le_refl _, ?_, ?_, ?_, ?_, ?_, ?_, ?_⟩
  · show _ ≤ mapper.mapId
    omega
  · exact (congrArg (List.range' _) (Nat.sub_self _)).symm
  · rw [isFirst]
    show mapper.maps.Covers _ (mapper.mapId + 1)
    rw [isLast]
    exact opened.covers _ atFirst (by omega)
  · show mapper.maps.Below maxMaps (mapper.mapId + 1)
    rw [isLast]
    exact opened.below
  · show mapper.mapId + 1 ≤ _
    rw [isFirst, isLast]
    exact fits
  · show mapper.synced.filter _ = _
    rw [isSynced, Nat.sub_eq_zero_of_le (layout.openFragment_le _)]
    rfl
  · show ∀ map ∈ mapper.synced, _
    rw [isSynced]
    exact List.forall_mem_nil _
  · intro map found
    rw [isFirst]
    exact (opened.readonly map found).trans_le atFirst

/-- Whatever a recovery left and however writers, tracker and mapper interleave: finalization is
safe exactly if the fragments from the writer's start to the two ahead of the last one that was
read can be mapped at once. -/
theorem finalized_after_copied (maxMaps : Nat) (recovery : WalRecovery layout)
    (started : recovery.intoWriter maxMaps = some mapper) :
    (∀ events wal, (∀ event ∈ events, Event.Sized layout event) →
        runEvents (step layout maxMaps) events (start recovery.position mapper) = some wal →
        wal.Safe layout recovery.position) ↔
      recovery.last + 3 ≤ layout.locate recovery.position + maxMaps := by
  constructor
  · intro safe
    obtain ⟨opened, isLast, isSynced⟩ := WalRecovery.opened started
    have kept := (safe [] _ nofun rfl).kept
    have covers : mapper.maps.Covers (layout.locate recovery.position) (recovery.last + 3) := by
      intro map low high
      refine kept map low ?_ ?_
      · show map ≤ mapper.mapId
        omega
      · show map ∉ mapper.synced
        rw [isSynced]
        exact List.not_mem_nil
    have size := covers.le_size.trans opened.below.size
    omega
  · intro fits events wal sized ran
    exact (final_ok sized (ok_start started fits) ran).safe

/-- A new log. -/
def newLog : WalRecovery .small :=
  ⟨0, 0, 0, [0], [], fun _ => false, by decide, Nat.dvd_zero _, by decide, by decide⟩

/-- Two writes, the second one in the next fragment. -/
def leavesFragment : List Event :=
  WalAllocator.contended.map (fun event => .track (.allocate event)) ++
    [.findMarkerMap ⟨40, 64, 32⟩, .findMap ⟨0, 0, 40⟩, .writeSkipMarker ⟨40, 64, 32⟩,
      .findMap ⟨40, 64, 32⟩, .track (.allocated ⟨40, 64, 32⟩), .copy ⟨40, 64, 32⟩,
      .track (.allocated ⟨0, 0, 40⟩), .track (.dropGuard ⟨40, 64, 32⟩), .track .receive,
      .copy ⟨0, 0, 40⟩, .track (.dropGuard ⟨0, 0, 40⟩), .track .receive, .receive]

theorem finalized_after_copied_leavesFragment :
    ∃ mapper wal, newLog.intoWriter 3 = some mapper ∧
      runEvents (step WalLayout.small 3) leavesFragment (start 0 mapper) = some wal ∧
      wal.mapper.synced = [0] ∧ wal.Safe WalLayout.small 0 := by
  have sized : ∀ event ∈ leavesFragment, Event.Sized WalLayout.small event := by
    simp [leavesFragment, WalAllocator.contended, Event.Sized, TrackedWal.Event.Sized,
      WalAllocator.Event.Sized, WalLayout.small]
  have runs : (newLog.intoWriter 3).any (fun mapper =>
      (runEvents (step WalLayout.small 3) leavesFragment (start 0 mapper)).any fun wal =>
        decide (wal.mapper.synced = [0])) = true := by
    decide +kernel
  obtain ⟨mapper, started, met⟩ := (Option.any_eq_true _ _).mp runs
  obtain ⟨wal, ran, met⟩ := (Option.any_eq_true _ _).mp met
  exact ⟨mapper, wal, started, ran, of_decide_eq_true met,
    (finalized_after_copied 3 newLog started).mpr (by decide) leavesFragment wal sized ran⟩

end MappedWal

/-! ## What reading a log leaves -/

section Reading

variable {T : Type} {layout : WalLayout} {disk : Disk T} {start : Nat}

/-- Each item lies in one fragment, in which a checked read finds it. -/
def Disk.InFragments (layout : WalLayout) (disk : Disk T) : Prop :=
  ∀ offset held, disk.item offset = some held →
    offset + layout.align held.1.len ≤ layout.mapStart (layout.locate offset + 1)

/-- The fragment that a recovery maps last. -/
def lastMapped (layout : WalLayout) (disk : Disk T) (start : Nat) : Option Nat :=
  (WalIterator.new layout disk start).map fun iterator =>
    (iterator.scan layout disk (disk.items.size + 1)).2.map

namespace WalIterator

/-- The position lies in the fragment mapped last or at its end. -/
structure Within (layout : WalLayout) (start : Nat) (iterator : WalIterator) : Prop where
  aligned : layout.Aligned iterator.position
  first : layout.locate start ≤ iterator.map
  behind : start ≤ iterator.position
  low : layout.mapStart iterator.map ≤ iterator.position
  high : iterator.position ≤ layout.mapStart (iterator.map + 1)

/-- A place between where reading starts and a position. -/
def ReadBetween (layout : WalLayout) (start stop offset : Nat) : Prop :=
  layout.Aligned offset ∧ start ≤ offset ∧ offset ≤ stop

/-- A reader went on to another place and read some frames on the way. -/
structure ReadsTo (layout : WalLayout) (start : Nat) (iterator after : WalIterator)
    (frames : List (Nat × WalEntry × T)) : Prop where
  within : after.Within layout start
  forward : iterator.position ≤ after.position
  between : ∀ frame ∈ frames, ReadBetween layout start after.position frame.1

variable {iterator middle after : WalIterator} {frames more : List (Nat × WalEntry × T)}

theorem ReadsTo.trans (first : ReadsTo layout start iterator middle frames)
    (second : ReadsTo layout start middle after more) :
    ReadsTo layout start iterator after (frames ++ more) := by
  refine ⟨second.within, first.forward.trans second.forward,
    List.forall_mem_append.mpr ⟨fun frame member => ?_, second.between⟩⟩
  obtain ⟨aligned, behind, before⟩ := first.between frame member
  exact ⟨aligned, behind, before.trans second.forward⟩

theorem Within.readOne (within : iterator.Within layout start) {found : Option (DiskItem × T)}
    (read : iterator.readOne layout disk = (after, found)) :
    ReadsTo (T := T) layout start iterator after [] ∧ ∀ held, found = some held →
      after.map = layout.locate after.position ∧ disk.item after.position = some held := by
  have switched : Within layout start ⟨iterator.position, layout.locate iterator.position⟩ :=
    ⟨within.aligned, layout.locate_mono within.behind, within.behind, layout.mapStart_locate_le _,
      (layout.lt_mapStart_locate _).le⟩
  unfold WalIterator.readOne at read
  simp only at read
  split at read
  · rename_i same
    cases read
    exact ⟨⟨within, Nat.le_refl _, nofun⟩, fun held isFound => ⟨same, isFound⟩⟩
  · split at read <;> cases read
    · exact ⟨⟨switched, Nat.le_refl _, nofun⟩, fun held isFound => ⟨rfl, isFound⟩⟩
    · exact ⟨⟨within, Nat.le_refl _, nofun⟩, nofun⟩

/-- Jumping over a skip marker. -/
theorem Within.skip (within : iterator.Within layout start) :
    ReadsTo (T := T) layout start iterator
      { iterator with position := layout.mapStart (iterator.map + 1) } [] :=
  ⟨⟨layout.aligned_mapStart _, within.first, within.behind.trans within.high,
    within.low.trans within.high, Nat.le_refl _⟩, within.high, nofun⟩

/-- Going on behind a frame. -/
theorem Within.advance (within : iterator.Within layout start)
    (inFragments : disk.InFragments layout) {entry : WalEntry} {tag : T}
    (found : iterator.map = layout.locate iterator.position ∧
      disk.item iterator.position = some (.frame entry, tag)) :
    ReadsTo layout start iterator
      { iterator with position := iterator.position + layout.align (entry.len + crcHeaderLength) }
      [(iterator.position, entry, tag)] := by
  have inside := inFragments _ _ found.2
  rw [← found.1] at inside
  have longer := Nat.le_add_right iterator.position (layout.align (entry.len + crcHeaderLength))
  exact ⟨⟨Nat.dvd_add within.aligned (layout.aligned_align _), within.first,
    within.behind.trans longer, within.low.trans longer, inside⟩, longer,
    List.forall_mem_singleton.mpr ⟨within.aligned, within.behind, longer⟩⟩

theorem Within.next (within : iterator.Within layout start) (inFragments : disk.InFragments layout)
    {frame : Option (Nat × WalEntry × T)} (read : iterator.next layout disk = (after, frame)) :
    ReadsTo layout start iterator after frame.toList := by
  unfold WalIterator.next at read
  generalize isRead : iterator.readOne layout disk = outcome at read
  obtain ⟨middle, held⟩ := outcome
  obtain ⟨first, found⟩ := within.readOne isRead
  rcases held with _ | ⟨_ | _, tag⟩
  · cases read
    exact first
  · cases read
    exact first.trans (first.within.advance inFragments (found _ rfl))
  · -- A skip marker: the read at the start of the next fragment decides.
    simp only at read
    generalize isAgain : WalIterator.readOne layout disk
      { middle with position := layout.mapStart (middle.map + 1) } = outcome at read
    obtain ⟨last, held⟩ := outcome
    have skipped := first.trans first.within.skip
    obtain ⟨second, found⟩ := skipped.within.readOne isAgain
    have again := skipped.trans second
    rcases held with _ | ⟨_ | _, tag⟩ <;> cases read
    · exact again
    · exact again.trans (second.within.advance inFragments (found _ rfl))
    · exact again

theorem Within.scan (within : iterator.Within layout start) (inFragments : disk.InFragments layout)
    (fuel : Nat) :
    ReadsTo layout start iterator (iterator.scan layout disk fuel).2
      (iterator.scan layout disk fuel).1 := by
  induction fuel generalizing iterator with
  | zero => exact ⟨within, Nat.le_refl _, nofun⟩
  | succ fuel ih =>
      unfold WalIterator.scan
      split
      · rename_i read
        exact within.next inFragments read
      · rename_i read
        have first := within.next inFragments read
        exact first.trans (ih first.within)

end WalIterator

/-- An open batch starts at a frame that was read. -/
theorem OpenBatch.start_mem {batch : OpenBatch} {frames : List (Nat × WalEntry × T)} {offset : Nat}
    (isStart : (batch.run frames).start = some offset) :
    batch.start = some offset ∨ ∃ frame ∈ frames, frame.1 = offset := by
  induction frames generalizing batch with
  | nil => exact .inl isStart
  | cons frame rest ih =>
      rcases ih isStart with here | ⟨later, member, isOffset⟩
      · change (batch.step frame.1 frame.2.1).start = some offset at here
        unfold OpenBatch.step at here
        split at here
        · split at here
          · cases here
          · exact .inl here
        · split at here
          · exact .inr ⟨frame, List.mem_cons_self, Option.some.inj here⟩
          all_goals exact .inl here
      · exact .inr ⟨later, List.mem_cons_of_mem _ member, isOffset⟩

/-- Reading a log from a position and reopening it leaves the fragments from that of the position
on, and a writer that starts in one of them or at the end of the last. -/
theorem exists_recovery (aligned : layout.Aligned start) (inFragments : disk.InFragments layout)
    {recovered : Recovered T} {last : Nat} (read : recover layout disk start = some recovered)
    (isLast : lastMapped layout disk start = some last) (files live : List Nat)
    (covered : Nat → Bool) :
    ∃ recovery : WalRecovery layout, recovery.first = layout.locate start ∧ recovery.last = last ∧
      recovery.position = recovered.position ∧ recovery.files = files ∧ recovery.live = live ∧
      recovery.covered = covered := by
  obtain ⟨iterator, isNew, rfl⟩ := Option.map_eq_some_iff.mp read
  obtain ⟨same, isNewAgain, rfl⟩ := Option.map_eq_some_iff.mp isLast
  obtain rfl := Option.some.inj (isNew.symm.trans isNewAgain)
  have within : iterator.Within layout start := by
    unfold WalIterator.new at isNew
    split at isNew <;> cases isNew
    exact ⟨aligned, Nat.le_refl _, Nat.le_refl _, layout.mapStart_locate_le _,
      (layout.lt_mapStart_locate _).le⟩
  obtain ⟨lastWithin, -, between⟩ := within.scan inFragments (disk.items.size + 1)
  generalize iterator.scan layout disk (disk.items.size + 1) = outcome at lastWithin between
  obtain ⟨frames, iterator⟩ := outcome
  -- The writer starts where reading ended, or at a frame that was read.
  have place : WalIterator.ReadBetween layout start iterator.position
      ((OpenBatch.closed.run frames).start.getD iterator.position) := by
    cases isStart : (OpenBatch.closed.run frames).start with
    | none => exact ⟨lastWithin.aligned, lastWithin.behind, Nat.le_refl _⟩
    | some offset =>
        rcases OpenBatch.start_mem isStart with isNone | ⟨frame, member, rfl⟩
        · cases isNone
        · exact between frame member
  obtain ⟨isAligned, behind, before⟩ := place
  exact ⟨⟨layout.locate start, iterator.map, _, files, live, covered, lastWithin.first, isAligned,
    (layout.mapStart_locate_le start).trans behind, before.trans lastWithin.high⟩,
    rfl, rfl, rfl, rfl, rfl, rfl⟩

/-- A batch of two whose second frame is missing, over two fragments. -/
def tornBatch : Disk Nat :=
  ⟨⟨[(0, .frame (.batchStart 2), 0), (16, .skipMarker, 0), (64, .frame (.remove 0 []), 0)],
    by decide⟩, [0, 1]⟩

theorem exists_recovery_tornBatch :
    ∃ recovery : WalRecovery .small,
      recovery.first = 0 ∧ recovery.last = 1 ∧ recovery.position = 0 := by
  have inFragments : ∀ found ∈ tornBatch.items.entries,
      found.1 + WalLayout.small.align found.2.1.len ≤
        WalLayout.small.mapStart (WalLayout.small.locate found.1 + 1) := by
    decide +kernel
  have reads : (recover .small tornBatch 0).any (fun recovered =>
      decide (recovered.position = 0 ∧ lastMapped .small tornBatch 0 = some 1)) = true := by
    decide +kernel
  obtain ⟨recovered, read, met⟩ := (Option.any_eq_true _ _).mp reads
  obtain ⟨isStart, isLast⟩ := of_decide_eq_true met
  obtain ⟨recovery, first, last, position, -⟩ := exists_recovery (Nat.dvd_zero _)
    (fun _ _ found => inFragments _ (SortedMap.mem_entries_of_lookup found)) read isLast [0, 1] []
    fun _ => true
  exact ⟨recovery, first, last, position.trans isStart⟩

end Reading

namespace MappedWal

/-- A crash takes the write of the first fragment and leaves the others. The next writer fills
the first fragment again and starts a batch over the old frame of the second one, in front of the
old skip marker. -/
def batchOverOldFrames : List Lineage.Event :=
  [.write (.record 0 [] (List.replicate 52 1) false), .write (.record 0 [] [1, 1, 1, 1] false),
    .write (.record 0 [] (List.replicate 52 2) false), .release 1, .release 2,
    .crash 0 fun _ => .missing,
    .write (.record 0 [] (List.replicate 52 3) false), .release 0,
    .write (.batch ⟨0, [], some [4, 4, 4, 4]⟩ [⟨0, [], some [5, 5, 5, 5]⟩])]

/-- Of the batch only the start is on disk. -/
def onlyBatchStart (offset : Nat) : Fate := if offset = 64 then .whole else .missing

private theorem atBatchStart_first_le : 0 ≤ 2 := by decide

private theorem atBatchStart_aligned : WalLayout.small.Aligned 64 :=
  WalLayout.small.aligned_mapStart 1

private theorem atBatchStart_lower : WalLayout.small.mapStart 0 ≤ 64 := by decide

private theorem atBatchStart_upper : 64 ≤ WalLayout.small.mapStart (2 + 1) := by decide

/-- What the recovery leaves: the old skip marker led it to the third fragment, and the writer
starts at the batch. -/
def atBatchStart : WalRecovery .small :=
  ⟨0, 2, 64, [0, 1, 2], [], fun _ => false, atBatchStart_first_le, atBatchStart_aligned,
    atBatchStart_lower, atBatchStart_upper⟩

/-- With three maps the fragment that the writer starts in is unmapped before it writes. -/
theorem start_fragment_unmapped :
    ∃ log recovered mapper,
      runEvents (Lineage.step .small) batchOverOldFrames Lineage.new = some log ∧
      recover .small (log.crashDisk .small onlyBatchStart) 0 = some recovered ∧
      lastMapped .small (log.crashDisk .small onlyBatchStart) 0 = some atBatchStart.last ∧
      recovered.position = atBatchStart.position ∧
      atBatchStart.intoWriter 3 = some mapper ∧
      mapper.maps.lookup (WalLayout.small.locate atBatchStart.position) = none ∧
      ¬(start atBatchStart.position mapper).Safe .small atBatchStart.position := by
  have recovers : (runEvents (Lineage.step .small) batchOverOldFrames Lineage.new).any (fun log =>
      (recover .small (log.crashDisk .small onlyBatchStart) 0).any fun recovered =>
        decide (lastMapped .small (log.crashDisk .small onlyBatchStart) 0 = some atBatchStart.last ∧
          recovered.position = atBatchStart.position)) = true := by
    decide +kernel
  have starts : (atBatchStart.intoWriter 3).any (fun mapper =>
      decide (mapper.maps.lookup 1 = none ∧ 1 ≤ mapper.mapId ∧ mapper.synced = [])) = true := by
    decide +kernel
  obtain ⟨log, ran, met⟩ := (Option.any_eq_true _ _).mp recovers
  obtain ⟨recovered, isRecovered, met⟩ := (Option.any_eq_true _ _).mp met
  obtain ⟨isLast, isPosition⟩ := of_decide_eq_true met
  obtain ⟨mapper, started, met⟩ := (Option.any_eq_true _ _).mp starts
  obtain ⟨unmapped, wasMapped, notSynced⟩ := of_decide_eq_true met
  refine ⟨log, recovered, mapper, ran, isRecovered, isLast, isPosition, started, unmapped,
    fun safe => ?_⟩
  have kept := safe.kept 1 (by decide) wasMapped (by
    show 1 ∉ mapper.synced
    rw [notSynced]
    exact List.not_mem_nil)
  change mapper.maps.lookup 1 = some true at kept
  rw [unmapped] at kept
  cases kept

end MappedWal

end Tidehunter.Wal
