import Tidehunter.Wal.Lineage
import Mathlib

/-!
# What a recovery returns

A recovery reads the lineage up to the first item that is missing. It ends the log there,
or at the start of the batch that item belongs to, and the next writer continues exactly
what lies in front, as long as nothing has survived in a later fragment.
-/

namespace Tidehunter.Wal

open Library

/-! ## Regions -/

/-- A region of the lineage: frames in one fragment, behind skip markers. -/
structure Region.Ok (layout : WalLayout) (region : Region) : Prop where
  lead : ∀ slot ∈ region.lead, slot.item = .skipMarker
  parts : ∃ marker frames map, region.slots = marker ++ frames ∧
    (∀ slot ∈ marker, slot.item = .skipMarker) ∧ (∀ slot ∈ frames, slot.item ≠ .skipMarker) ∧
    (framesOf frames).map (fun frame => frame.2.1) = region.write.entries ∧
    ∀ slot ∈ frames, layout.locate slot.offset = map

theorem framesOf_append {T : Type} (first second : List (Slot T)) :
    framesOf (first ++ second) = framesOf first ++ framesOf second :=
  List.filterMap_append

theorem mem_framesOf {T : Type} {slots : List (Slot T)} {frame : Nat × WalEntry × T}
    (member : frame ∈ framesOf slots) : ∃ slot ∈ slots, slot.offset = frame.1 ∧ slot.tag = frame.2.2 := by
  obtain ⟨slot, inside, isFrame⟩ := List.mem_filterMap.mp member
  unfold Slot.frame? at isFrame
  split at isFrame
  · cases isFrame
    exact ⟨slot, inside, rfl, rfl⟩
  · cases isFrame

theorem framesOf_markers {T : Type} {slots : List (Slot T)}
    (markers : ∀ slot ∈ slots, slot.item = .skipMarker) : framesOf slots = [] := by
  refine List.filterMap_eq_nil_iff.mpr fun slot member => ?_
  rw [Slot.frame?, markers slot member]

theorem framesOf_frame {T : Type} {slot : Slot T} (isFrame : slot.item ≠ .skipMarker)
    (rest : List (Slot T)) :
    ∃ entry, framesOf (slot :: rest) = (slot.offset, entry, slot.tag) :: framesOf rest := by
  obtain ⟨offset, item, tag⟩ := slot
  cases item with
  | frame entry => exact ⟨entry, rfl⟩
  | skipMarker => exact absurd rfl isFrame

namespace Region.Ok

variable {layout : WalLayout} {region : Region}

theorem all_parts (ok : region.Ok layout) :
    ∃ markers frames map, region.all = markers ++ frames ∧
      (∀ slot ∈ markers, slot.item = .skipMarker) ∧ (∀ slot ∈ frames, slot.item ≠ .skipMarker) ∧
      (framesOf frames).map (fun frame => frame.2.1) = region.write.entries ∧
      ∀ slot ∈ frames, layout.locate slot.offset = map := by
  obtain ⟨marker, frames, map, split, isMarker, others⟩ := ok.parts
  refine ⟨region.lead ++ marker, frames, map, ?_, fun slot member => ?_, others⟩
  · rw [Region.all, split, List.append_assoc]
  · exact (List.mem_append.mp member).elim (ok.lead slot) (isMarker slot)

/-- Behind a whole region no batch is open. -/
theorem run_all (ok : region.Ok layout) :
    OpenBatch.closed.run (framesOf region.all) = OpenBatch.closed := by
  obtain ⟨markers, frames, map, split, isMarker, _, entries, _⟩ := ok.all_parts
  rw [split, framesOf_append, framesOf_markers isMarker, List.nil_append]
  exact OpenBatch.run_write entries

/-- The slots in front of a missing one: skip markers, and then frames of a batch that is
open from the first of them on, in the fragment of the missing one. -/
theorem torn (ok : region.Ok layout) {kept more : List (Slot Nat)} {lost : Slot Nat}
    (split : region.all = kept ++ lost :: more) :
    ∃ markers frames, kept = markers ++ frames ∧ (∀ slot ∈ markers, slot.item = .skipMarker) ∧
      (OpenBatch.closed.run (framesOf frames)).start = frames.head?.map Slot.offset ∧
      ∀ first ∈ frames.head?, layout.locate first.offset = layout.locate lost.offset ∧
        first.item ≠ .skipMarker ∧ ∃ missing, (framesOf frames).map (fun frame => frame.2.1) ++ missing =
          region.write.entries := by
  obtain ⟨marker, frames, map, parts, isMarker, isFrame, entries, places⟩ := ok.all_parts
  rw [parts] at split
  rcases List.append_eq_append_iff.mp split with ⟨front, isKept, isFrames⟩ | ⟨back, isMarkers, _⟩
  · refine ⟨marker, front, isKept, isMarker, ?_⟩
    cases front with
    | nil => exact ⟨rfl, nofun⟩
    | cons first rest =>
        have firstFrame : first ∈ frames := by
          rw [isFrames]
          exact List.mem_cons_self
        have lostFrame : lost ∈ frames := by
          rw [isFrames]
          exact List.mem_append_right _ List.mem_cons_self
        obtain ⟨entry, framesFirst⟩ := framesOf_frame (isFrame first firstFrame) rest
        obtain ⟨lostEntry, framesLost⟩ := framesOf_frame (isFrame lost lostFrame) more
        rw [isFrames, framesOf_append, List.map_append] at entries
        rw [framesLost, List.map_cons] at entries
        refine ⟨?_, fun slot isFirst => ?_⟩
        · exact OpenBatch.run_torn entries (List.cons_ne_nil _ _) (congrArg List.head? framesFirst)
        · cases isFirst
          exact ⟨(places first firstFrame).trans (places lost lostFrame).symm,
            isFrame first firstFrame, _, entries⟩
  · refine ⟨kept, [], (List.append_nil _).symm, fun slot member => ?_, rfl, nofun⟩
    refine isMarker slot ?_
    rw [isMarkers]
    exact List.mem_append_left _ member

end Region.Ok

/-- Behind whole regions no batch is open. -/
theorem run_regions {layout : WalLayout} {regions : List Region}
    (ok : ∀ region ∈ regions, region.Ok layout) :
    OpenBatch.closed.run (framesOf (regions.flatMap Region.all)) = OpenBatch.closed := by
  induction regions with
  | nil => rfl
  | cons region rest ih =>
      rw [List.flatMap_cons, framesOf_append, OpenBatch.run_append,
        (ok region List.mem_cons_self).run_all]
      exact ih fun other member => ok other (List.mem_cons_of_mem _ member)

/-- What is read of regions up to the first item that is missing: whole regions, then skip
markers, and the first frames of a batch in the fragment of the missing item. -/
theorem kept_parts {layout : WalLayout} (items : Region → List (Slot Nat × Bool))
    (same : ∀ region, (items region).map Prod.fst = region.all) {regions : List Region}
    (ok : ∀ region ∈ regions, region.Ok layout) {ending : List (Slot Nat × Bool)}
    (ends : ∀ item ∈ ending, item.1.item = .skipMarker) :
    ∃ markers frames,
      ((regions.flatMap items ++ ending).takeWhile Prod.snd).map Prod.fst =
        (regions.takeWhile fun region => (items region).all Prod.snd).flatMap Region.all ++
          (markers ++ frames) ∧
      (∀ slot ∈ markers, slot.item = .skipMarker) ∧
      (OpenBatch.closed.run (framesOf frames)).start = frames.head?.map Slot.offset ∧
      ∀ first ∈ frames.head?,
        (∃ lost ∈ ((regions.flatMap items ++ ending).dropWhile Prod.snd).head?,
          layout.locate first.offset = layout.locate lost.1.offset) ∧
        first.item ≠ .skipMarker ∧ ∃ region ∈ regions, ∃ missing,
          (framesOf frames).map (fun frame => frame.2.1) ++ missing = region.write.entries := by
  induction regions with
  | nil =>
      refine ⟨(ending.takeWhile Prod.snd).map Prod.fst, [], ?_, fun slot member => ?_, rfl, nofun⟩
      · rw [List.append_nil]
        rfl
      · obtain ⟨item, inside, rfl⟩ := List.mem_map.mp member
        exact ends item ((List.takeWhile_sublist _).subset inside)
  | cons region rest ih =>
      rw [List.flatMap_cons, List.append_assoc]
      cases whole : (items region).all Prod.snd with
      | true =>
          obtain ⟨markers, frames, split, isMarker, batch, places⟩ :=
            ih fun other member => ok other (List.mem_cons_of_mem _ member)
          have chosen := List.takeWhile_cons_of_pos (l := rest)
            (p := fun region => (items region).all Prod.snd) whole
          rw [List.all_eq_true] at whole
          refine ⟨markers, frames, ?_, isMarker, batch, fun first isFirst => ?_⟩
          · rw [List.takeWhile_append_of_pos whole, List.map_append, split, same, chosen,
              List.flatMap_cons, List.append_assoc]
          · rw [List.dropWhile_append_of_pos whole]
            obtain ⟨place, isFrame, other, inside, front⟩ := places first isFirst
            exact ⟨place, isFrame, other, List.mem_cons_of_mem _ inside, front⟩
      | false =>
          have split := List.takeWhile_append_dropWhile (l := items region) (p := Prod.snd)
          obtain ⟨lost, more, behind⟩ : ∃ lost more,
              (items region).dropWhile Prod.snd = lost :: more := by
            refine List.exists_cons_of_ne_nil fun nothing => ?_
            rw [List.dropWhile_eq_nil_iff, ← List.all_eq_true, whole] at nothing
            cases nothing
          have absent : lost.2 = false := by
            have first := List.head?_dropWhile_not Prod.snd (items region)
            rw [behind] at first
            simpa using first
          have present : ∀ item ∈ (items region).takeWhile Prod.snd, item.2 = true :=
            fun item member => List.mem_takeWhile_imp member
          rw [behind] at split
          have slots := same region
          rw [← split, List.map_append, List.map_cons] at slots
          obtain ⟨markers, frames, isKept, isMarker, batch, places⟩ :=
            (ok region List.mem_cons_self).torn slots.symm
          refine ⟨markers, frames, ?_, isMarker, batch, fun first isFirst =>
            ⟨⟨lost, ?_, (places first isFirst).1⟩, (places first isFirst).2.1, region,
              List.mem_cons_self, (places first isFirst).2.2⟩⟩
          · rw [List.takeWhile_cons_of_neg (by simp [whole]), ← isKept, ← split,
              List.append_assoc, List.takeWhile_append_of_pos present, List.cons_append,
              List.takeWhile_cons_of_neg (by simp [absent]), List.append_nil, split]
            rfl
          · rw [← split, List.append_assoc, List.dropWhile_append_of_pos present,
              List.cons_append, List.dropWhile_cons_of_neg (by simp [absent])]
            rfl

namespace Lineage

variable {layout : WalLayout} {log : Lineage} {fate : Nat → Fate}

/-! ## The first missing item -/

/-- The regions that survive a crash. -/
def wholeSlots (log : Lineage) (fate : Nat → Fate) : List (Slot Nat) :=
  (log.regions.takeWhile (Region.survives fate)).flatMap Region.all

/-- What survives of a lineage, and what is lost behind it. -/
theorem slots_eq_survivors (log : Lineage) (fate : Nat → Fate) :
    ∃ lost, log.slots = log.survivors fate ++ lost ∧
      log.firstMissing fate = (lost.head?.map Slot.offset).getD log.position ∧
      ∀ first ∈ lost.head?, (first, false) ∈ log.items fate := by
  refine ⟨((log.items fate).dropWhile Prod.snd).map Prod.fst, ?_, ?_, fun first isFirst => ?_⟩
  · rw [← fst_items log fate, survivors, ← List.map_append, List.takeWhile_append_dropWhile]
  · rw [firstMissing, List.head?_map, Option.map_map]
    rfl
  · rw [List.head?_map, Option.mem_def, Option.map_eq_some_iff] at isFirst
    obtain ⟨⟨slot, present⟩, isHead, rfl⟩ := isFirst
    have absent := List.head?_dropWhile_not Prod.snd (log.items fate)
    rw [isHead] at absent
    have member := List.mem_of_mem_head? isHead
    cases present with
    | true => cases absent
    | false => exact (List.dropWhile_sublist _).subset member

/-- What survives of a lineage: whole regions, then skip markers, and the first frames of
a batch in the fragment of the first missing item. -/
theorem survivors_parts (regions : ∀ region ∈ log.regions, region.Ok layout)
    (dangling : ∀ slot ∈ log.dangling, slot.item = .skipMarker) :
    ∃ markers frames, log.survivors fate = log.wholeSlots fate ++ (markers ++ frames) ∧
      (∀ slot ∈ markers, slot.item = .skipMarker) ∧
      (OpenBatch.closed.run (framesOf frames)).start = frames.head?.map Slot.offset ∧
      ∀ first ∈ frames.head?,
        layout.locate first.offset = layout.locate (log.firstMissing fate) := by
  have same : ∀ region : Region, (region.items fate).map Prod.fst = region.all := fun region => by
    simp only [Region.items, List.map_append, List.map_map, Function.comp_def, List.map_id']
    rfl
  have survives : (fun region : Region => (region.items fate).all Prod.snd) =
      Region.survives fate := by
    funext region
    cases released : region.released <;>
      simp [Region.items, Region.survives, released, Function.comp_def]
  have ends : ∀ item ∈ log.dangling.map fun slot => (slot, true), item.1.item = .skipMarker := by
    intro item member
    obtain ⟨slot, inside, rfl⟩ := List.mem_map.mp member
    exact dangling slot inside
  obtain ⟨markers, frames, split, isMarker, batch, places⟩ :=
    kept_parts (Region.items fate) same regions ends
  rw [survives] at split
  refine ⟨markers, frames, split, isMarker, batch, fun first isFirst => ?_⟩
  obtain ⟨⟨lost, isLost, place⟩, _⟩ := places first isFirst
  rw [firstMissing, items, isLost]
  exact place

theorem mem_items_of_survivors {slot : Slot Nat} (member : slot ∈ log.survivors fate) :
    (slot, true) ∈ log.items fate := by
  obtain ⟨⟨other, present⟩, inside, rfl⟩ := List.mem_map.mp member
  obtain rfl : present = true := List.mem_takeWhile_imp inside
  exact (List.takeWhile_sublist _).subset inside

theorem mem_slots {slot : Slot Nat} {present : Bool} (member : (slot, present) ∈ log.items fate) :
    slot ∈ log.slots := by
  rw [← fst_items log fate]
  exact List.mem_map_of_mem member

/-- A crash leaves at least what was on disk. -/
theorem survivors_missing_append (log : Lineage) (fate : Nat → Fate) :
    ∃ more, log.survivors fate = (log.survivors fun _ => .missing) ++ more := by
  unfold survivors
  rw [items_eq_map log fate]
  induction log.items fun _ => .missing with
  | nil => exact ⟨[], rfl⟩
  | cons item rest ih =>
      obtain ⟨slot, present⟩ := item
      cases present with
      | false => exact ⟨_, rfl⟩
      | true =>
          obtain ⟨more, rest⟩ := ih
          exact ⟨more, congrArg (slot :: ·) rest⟩

/-! ## The invariant -/

/-- A log in the hands of a writer: its lineage is one chain, what is known to be on disk
is on disk and nothing else, and what is older than a recovery lies in front of its cut. -/
structure Ok (layout : WalLayout) (log : Lineage) : Prop where
  chain : Chained layout 0 log.slots log.position
  regions : ∀ region ∈ log.regions, region.Ok layout
  dangling : ∀ slot ∈ log.dangling, slot.item = .skipMarker
  disk : log.disk.Exactly log.Durable
  filed : log.disk.Filed layout
  cuts : ∀ slot ∈ log.slots, ∀ index cut, log.cuts[index]? = some cut → slot.tag ≤ index →
    slot.offset < cut

theorem ok_new (layout : WalLayout) : new.Ok layout where
  chain := rfl
  regions := fun _ member => absurd member List.not_mem_nil
  dangling := fun _ member => absurd member List.not_mem_nil
  disk := fun _ _ => ⟨nofun, fun ⟨_, held, _⟩ => absurd held List.not_mem_nil⟩
  filed := nofun
  cuts := fun _ member => absurd member List.not_mem_nil

namespace Ok

/-- Two items of a lineage at one offset are the same. -/
theorem unique (ok : log.Ok layout) {first second : Slot Nat} {present other : Bool}
    (inFirst : (first, present) ∈ log.items fate) (inSecond : (second, other) ∈ log.items fate)
    (same : first.offset = second.offset) : first = second ∧ present = other := by
  have nodup : ((log.items fate).map fun item => item.1.offset).Nodup := by
    have slots := ok.chain.nodup
    rwa [← fst_items log fate, List.map_map] at slots
  exact Prod.mk.inj (List.inj_on_of_nodup_map nodup inFirst inSecond same)

/-- What a crash leaves on disk. -/
theorem exactly_crashDisk (ok : log.Ok layout) (fate : Nat → Fate) :
    (log.crashDisk layout fate).Exactly fun slot => (slot, true) ∈ log.items fate := by
  have nodup : (log.unsettled.map Slot.offset).Nodup := by
    have slots := ok.chain.nodup
    rw [← fst_items log fun _ => .missing] at slots
    exact slots.sublist ((List.filter_sublist.map _).map _)
  refine (exactly_settle layout fate ok.chain.apart (fun slot member => ?_) nodup ok.disk
    (fun slot held => mem_slots held) (fun slot member other held same => ?_)).congr fun slot =>
      mem_items_true.symm
  · exact mem_slots (mem_unsettled.mp member)
  · cases (ok.unique held (mem_unsettled.mp member) same).2

theorem filed_crashDisk (ok : log.Ok layout) (fate : Nat → Fate) :
    (log.crashDisk layout fate).Filed layout :=
  filed_settle fate _ ok.filed

/-! ### Steps that write -/

theorem write (ok : log.Ok layout) {write : WalWrite} {next : Lineage}
    (stepped : log.step layout (.write write) = some next) : next.Ok layout := by
  obtain ⟨⟨slots, stop⟩, written, rfl⟩ := Option.map_eq_some_iff.mp stepped
  have aligned := ok.chain.aligned (Nat.dvd_zero _)
  have laid := multiWrite_spec _ aligned write.entries_ne_nil written
  obtain ⟨marker, frames, map, parts, isMarker, isFrame, entries, places, _⟩ := laid.parts
  have allSlots : Lineage.slots { log with
      regions := log.regions ++ [⟨write, log.dangling, slots, false⟩]
      dangling := []
      position := stop } = log.slots ++ slots := by
    simp [Lineage.slots, Region.all]
  constructor
  · rw [allSlots]
    exact ok.chain.append laid.chain (laid.joined ok.chain)
  · intro region member
    rcases List.mem_append.mp member with old | new
    · exact ok.regions region old
    · obtain rfl := List.mem_singleton.mp new
      exact ⟨ok.dangling, marker, frames, map, parts, isMarker, isFrame, entries, places⟩
  · exact fun _ member => absurd member List.not_mem_nil
  · refine ok.disk.congr fun slot => ?_
    simp [Durable, items, Region.items]
  · exact ok.filed
  · rw [allSlots]
    intro slot member index cut isCut old
    rcases List.mem_append.mp member with before | new
    · exact ok.cuts slot before index cut isCut old
    · rw [laid.tagged slot new] at old
      exact absurd (List.getElem?_eq_some_iff.mp isCut).1 (Nat.not_lt.mpr old)

theorem release (ok : log.Ok layout) {index : Nat} {next : Lineage}
    (stepped : log.step layout (.release index) = some next) : next.Ok layout := by
  simp only [step] at stepped
  split at stepped
  · rename_i region rest behind
    split at stepped
    · cases stepped
    · rename_i unreleased
      cases stepped
      rw [Bool.not_eq_true] at unreleased
      have split : log.regions = log.regions.take index ++ region :: rest := by
        rw [← behind, List.take_append_drop]
      have inside : region ∈ log.regions := by
        rw [split]
        exact List.mem_append_right _ List.mem_cons_self
      have pending : ∀ slot ∈ region.slots, (slot, false) ∈ log.items fun _ => .missing := by
        intro slot member
        rw [items]
        refine List.mem_append_left _ (List.mem_flatMap.mpr ⟨region, inside, ?_⟩)
        exact List.mem_append_right _ (List.mem_map.mpr ⟨slot, member, by simp [unreleased]⟩)
      have sameSlots : ∀ disk, Lineage.slots { log with
          disk := disk
          regions := log.regions.take index ++ { region with released := true } :: rest } =
            log.slots := by
        intro disk
        unfold Lineage.slots
        conv_rhs => rw [split]
        simp [Region.all]
      have nodup : (region.slots.map Slot.offset).Nodup := by
        have slots := ok.chain.nodup
        rw [Lineage.slots, split] at slots
        refine slots.sublist (List.Sublist.map _ ?_)
        refine List.Sublist.trans ?_ (List.sublist_append_left _ _)
        rw [List.flatMap_append, List.flatMap_cons]
        exact ((List.sublist_append_right _ _).trans (List.sublist_append_left _ _)).trans
          (List.sublist_append_right _ _)
      constructor
      · rw [sameSlots]
        exact ok.chain
      · intro other member
        rcases List.mem_append.mp member with before | later
        · exact ok.regions other (List.mem_of_mem_take before)
        · rcases List.mem_cons.mp later with rfl | last
          · exact ⟨(ok.regions region inside).lead, (ok.regions region inside).parts⟩
          · refine ok.regions other ?_
            rw [split]
            exact List.mem_append_right _ (List.mem_cons_of_mem _ last)
      · exact ok.dangling
      · refine (exactly_settle layout (fun _ => .whole) ok.chain.apart
          (fun slot member => mem_slots (pending slot member)) nodup ok.disk
          (fun slot held => mem_slots held)
          (fun slot member other held same => ?_)).congr fun slot => ?_
        · cases (ok.unique held (pending slot member) same).2
        · unfold Durable items
          conv_lhs => rw [split]
          simp [Region.items, unreleased, or_assoc, or_comm, or_left_comm]
      · exact filed_settle _ _ ok.filed
      · rw [sameSlots]
        exact ok.cuts
  · cases stepped

theorem mapFile (ok : log.Ok layout) {file : Nat} {next : Lineage}
    (stepped : log.step layout (.mapFile file) = some next) : next.Ok layout := by
  cases stepped
  exact ⟨ok.chain, ok.regions, ok.dangling, ok.disk,
    fun offset held found => List.mem_cons_of_mem _ (ok.filed offset held found), ok.cuts⟩

/-! ### Crashes -/

theorem chain_survivors (ok : log.Ok layout) (fate : Nat → Fate) :
    Chained layout 0 (log.survivors fate) (log.firstMissing fate) := by
  obtain ⟨lost, split, first, _⟩ := slots_eq_survivors log fate
  have chain := ok.chain
  rw [split] at chain
  obtain ⟨middle, front, behind⟩ := chain.split
  rw [first]
  cases lost with
  | nil =>
      obtain rfl : middle = log.position := behind
      exact front
  | cons slot rest =>
      obtain rfl : slot.offset = middle := behind.1
      exact front

theorem item_firstMissing (ok : log.Ok layout) (fate : Nat → Fate) :
    (log.crashDisk layout fate).item (log.firstMissing fate) = none := by
  obtain ⟨lost, _, first, absent⟩ := slots_eq_survivors log fate
  refine (ok.exactly_crashDisk fate).item_eq_none fun slot held here => ?_
  rw [first] at here
  cases lost with
  | nil =>
      have bounds := ok.chain.between slot (mem_slots held)
      have positive := (ok.chain.ok slot (mem_slots held)).offset_lt_stop
      have same : slot.offset = log.position := here
      omega
  | cons other rest => cases (ok.unique held (absent other rfl) here).2

/-- Replay starts inside of what is on disk, where no batch is open. -/
theorem frontier_split (ok : log.Ok layout) (fate : Nat → Fate) {start : Nat}
    (frontier : start ∈ log.frontiers layout) :
    ∃ front kept, log.survivors fate = front ++ kept ∧
      OpenBatch.closed.run (framesOf front) = OpenBatch.closed ∧
      Chained layout 0 front start ∧ Chained layout start kept (log.firstMissing fate) := by
  obtain ⟨front, chosen, isStart⟩ := List.mem_map.mp frontier
  obtain ⟨isFront, closed⟩ := List.mem_filter.mp chosen
  obtain ⟨back, durable⟩ := (List.mem_inits _ _).mp isFront
  obtain ⟨more, survivors⟩ := survivors_missing_append log fate
  rw [← durable, List.append_assoc] at survivors
  have chain := ok.chain_survivors fate
  rw [survivors] at chain
  obtain ⟨middle, before, behind⟩ := chain.split
  obtain rfl : middle = start := by
    rw [← isStart]
    cases ends : front.getLast? with
    | none =>
        obtain rfl := List.getLast?_eq_none_iff.mp ends
        exact before.symm
    | some last => exact (before.stop_getLast last ends).symm
  exact ⟨front, back ++ more, survivors, by simpa using closed, before, behind⟩

/-- A recovery returns what survives of the lineage, and leaves whole regions and skip
markers in front of its cut. -/
theorem crash_spec (ok : log.Ok layout) (fate : Nat → Fate) {start : Nat}
    (frontier : start ∈ log.frontiers layout)
    (file : layout.locateFile start ∈ (log.crashDisk layout fate).files) :
    ∃ recovered, log.crash layout start fate = some recovered ∧
      recovered.frames =
        framesOf ((log.survivors fate).filter fun slot => decide (start ≤ slot.offset)) ∧
      recovered.disk.Filed layout ∧
      layout.locate recovered.position = layout.locate (log.firstMissing fate) ∧
      recovered.disk.Exactly (fun slot => (slot, true) ∈ log.items fate ∧
        (slot.offset + slot.item.len ≤ recovered.position ∨
          layout.mapStart (layout.locate recovered.position + 1) ≤ slot.offset)) ∧
      ∃ markers frames, log.survivors fate = log.wholeSlots fate ++ (markers ++ frames) ∧
        (∀ slot ∈ markers, slot.item = .skipMarker) ∧
        Chained layout 0 (log.wholeSlots fate ++ markers) recovered.position ∧
        ∀ slot ∈ frames, recovered.position ≤ slot.offset := by
  obtain ⟨front, kept, survivors, closed, before, behind⟩ := ok.frontier_split fate frontier
  have exact := ok.exactly_crashDisk fate
  have filed := ok.filed_crashDisk fate
  have present : ∀ slot ∈ kept, slot.Present (log.crashDisk layout fate) := by
    intro slot member
    refine exact.present (mem_items_of_survivors ?_)
    rw [survivors]
    exact List.mem_append_right _ member
  obtain ⟨recovered, isRecovered, frames, position, cleared⟩ :=
    recover_of_present filed behind present (ok.item_firstMissing fate) file
  obtain ⟨markers, opened, parts, isMarker, batch, places⟩ :=
    @survivors_parts layout log fate ok.regions ok.dangling
  have wholeClosed : OpenBatch.closed.run (framesOf (log.wholeSlots fate)) = OpenBatch.closed :=
    run_regions fun region member => ok.regions region ((List.takeWhile_sublist _).subset member)
  -- The batch open behind the survivors is the one the frames at their end belong to.
  have isOpen : (OpenBatch.closed.run (framesOf kept)).start = opened.head?.map Slot.offset := by
    have all := congrArg (fun slots => (OpenBatch.closed.run (framesOf slots)).start)
      (survivors.symm.trans parts)
    simp only [framesOf_append, OpenBatch.run_append, closed, wholeClosed,
      framesOf_markers isMarker] at all
    exact all.trans batch
  rw [isOpen] at position
  have chain := ok.chain_survivors fate
  rw [parts, ← List.append_assoc] at chain
  obtain ⟨cut, inFront, torn⟩ := chain.split
  obtain rfl : recovered.position = cut := by
    rw [position]
    cases opened with
    | nil => exact torn.symm
    | cons first rest => exact torn.1
  have place : layout.locate recovered.position = layout.locate (log.firstMissing fate) := by
    rw [position]
    cases opened with
    | nil => rfl
    | cons first rest => exact places first rfl
  refine ⟨recovered, ?_, ?_, ?_, place, ?_, markers, opened, parts, isMarker, inFront,
    fun slot member => (torn.between slot member).1⟩
  · rw [Lineage.crash, if_pos (by simpa using frontier), isRecovered]
  · have read : (front ++ kept).filter (fun slot => decide (start ≤ slot.offset)) = kept := by
      rw [List.filter_append, List.filter_eq_nil_iff.mpr, List.filter_eq_self.mpr,
        List.nil_append]
      · exact fun slot member => decide_eq_true (behind.between slot member).1
      · intro slot member
        have bounds := before.between slot member
        have positive := (before.ok slot member).offset_lt_stop
        simp only [decide_eq_true_eq]
        omega
    rw [frames, survivors, read]
  · rcases cleared with wiped | ⟨same, _⟩
    · rw [wiped]
      exact filed.wipe _ _
    · rw [same]
      exact filed
  · exact exact.recovered filed (fun slot held => ok.chain.ok slot (mem_slots held)) place cleared

end Ok

/-! ## Runs -/

/-- A crash leaves no item in a fragment behind the one of the first missing item. -/
def NothingBehind (layout : WalLayout) (log : Lineage) : Event → Prop
  | .crash _ fate => ∀ item ∈ log.items fate, item.2 = true →
      layout.locate item.1.offset ≤ layout.locate (log.firstMissing fate)
  | .write _ => True
  | .release _ => True
  | .mapFile _ => True

instance (layout : WalLayout) (log : Lineage) : ∀ event, Decidable (log.NothingBehind layout event)
  | .crash _ fate => inferInstanceAs (Decidable (∀ item ∈ log.items fate, item.2 = true →
      layout.locate item.1.offset ≤ layout.locate (log.firstMissing fate)))
  | .write _ => isTrue trivial
  | .release _ => isTrue trivial
  | .mapFile _ => isTrue trivial

theorem items_reopened (fate : Nat → Fate) {recovered : Recovered Nat}
    {markers frames : List (Slot Nat)}
    (parts : log.survivors fate = log.wholeSlots fate ++ (markers ++ frames))
    (chain : Chained layout 0 (log.wholeSlots fate ++ markers) recovered.position)
    (torn : ∀ slot ∈ frames, recovered.position ≤ slot.offset) :
    (log.reopened fate recovered).dangling = markers ∧
      (log.reopened fate recovered).items (fun _ => .missing) =
        (log.wholeSlots fate ++ markers).map fun slot => (slot, true) := by
  have dangling : (log.reopened fate recovered).dangling = markers := by
    change List.filter _ (List.drop (log.wholeSlots fate).length (log.survivors fate)) = markers
    rw [parts, List.drop_left, List.filter_append, List.filter_eq_self.mpr,
      List.filter_eq_nil_iff.mpr, List.append_nil]
    · intro slot member
      simpa using torn slot member
    · intro slot member
      have inside := List.mem_append_right (log.wholeSlots fate) member
      have bounds := chain.between slot inside
      have positive := (chain.ok slot inside).offset_lt_stop
      simp only [decide_eq_true_eq]
      omega
  refine ⟨dangling, ?_⟩
  rw [items, dangling, List.map_append, wholeSlots, List.map_flatMap]
  congr 1
  simp only [reopened, List.flatMap_map]
  refine List.flatMap_congr fun region _ => ?_
  simp [Region.items, Region.all]

/-- A recovery starts at a frontier, in a file that exists. -/
theorem of_crash {start : Nat} {recovered : Recovered Nat}
    (crashed : log.crash layout start fate = some recovered) :
    start ∈ log.frontiers layout ∧
      layout.locateFile start ∈ (log.crashDisk layout fate).files := by
  unfold crash recover at crashed
  split at crashed
  · rename_i frontier
    obtain ⟨iterator, opened, _⟩ := Option.map_eq_some_iff.mp crashed
    rw [WalIterator.new, WalLayout.fileForMap_locate] at opened
    split at opened
    · rename_i file
      exact ⟨by simpa using frontier, by simpa using file⟩
    · cases opened
  · cases crashed

theorem Ok.crash (ok : log.Ok layout) {start : Nat} {next : Lineage}
    (nothingBehind : log.NothingBehind layout (.crash start fate))
    (stepped : log.step layout (.crash start fate) = some next) : next.Ok layout := by
  obtain ⟨recovered, crashed, rfl⟩ := Option.map_eq_some_iff.mp stepped
  obtain ⟨frontier, file⟩ := of_crash crashed
  obtain ⟨same, isSame, _, filed, place, exact, markers, frames, parts, isMarker, chain, torn⟩ :=
    ok.crash_spec fate frontier file
  obtain rfl := Option.some.inj (isSame.symm.trans crashed)
  obtain ⟨dangling, items⟩ := items_reopened fate parts chain torn
  have slots : (log.reopened fate same).slots = log.wholeSlots fate ++ markers := by
    rw [← fst_items _ fun _ => .missing, items, List.map_map]
    exact List.map_id _
  obtain ⟨lost, split, _, _⟩ := slots_eq_survivors log fate
  rw [parts, ← List.append_assoc, List.append_assoc] at split
  have front : ∀ slot ∈ log.wholeSlots fate ++ markers, slot ∈ log.slots := fun slot member => by
    rw [split]
    exact List.mem_append_left _ member
  have before : ∀ slot ∈ log.wholeSlots fate ++ markers,
      slot.offset + slot.item.len ≤ same.position := fun slot member =>
    (chain.ok slot member).fits.trans (chain.between slot member).2
  have behind : ∀ slot ∈ frames ++ lost, same.position ≤ slot.offset := by
    have whole := ok.chain
    rw [split] at whole
    obtain ⟨cut, upTo, rest⟩ := whole.split
    obtain rfl := chain.stop_unique upTo
    exact fun slot member => (rest.between slot member).1
  refine ⟨?_, ?_, ?_, ?_, filed, ?_⟩
  · rw [slots]
    exact chain
  · intro region member
    obtain ⟨old, inside, rfl⟩ := List.mem_map.mp member
    have okOld := ok.regions old ((List.takeWhile_sublist _).subset inside)
    exact ⟨okOld.lead, okOld.parts⟩
  · rw [dangling]
    exact isMarker
  · refine exact.congr fun slot => ?_
    rw [Durable, items, List.mem_map_of_injective fun first second same => (Prod.mk.inj same).1]
    constructor
    · rintro ⟨held, inFront | later⟩
      · have member := mem_slots held
        rw [split] at member
        rcases List.mem_append.mp member with kept | gone
        · exact kept
        · have reaches := behind slot gone
          have positive := slot.item.len_pos
          omega
      · have near := nothingBehind _ held rfl
        rw [← place] at near
        have fragments : layout.mapStart (layout.locate slot.offset + 1) ≤
            layout.mapStart (layout.locate same.position + 1) :=
          Nat.mul_le_mul_left _ (Nat.succ_le_succ near)
        have inside := layout.lt_mapStart_locate slot.offset
        omega
    · intro member
      refine ⟨mem_items_of_survivors ?_, Or.inl (before slot member)⟩
      rw [parts, ← List.append_assoc]
      exact List.mem_append_left _ member
  · rw [slots]
    intro slot member index cut isCut old
    have isCut : (log.cuts ++ [same.position])[index]? = some cut := isCut
    rw [List.getElem?_append] at isCut
    split at isCut
    · exact ok.cuts slot (front slot member) index cut isCut old
    · obtain rfl := List.mem_singleton.mp (List.mem_of_getElem? isCut)
      have inFront := before slot member
      have positive := slot.item.len_pos
      omega

theorem Ok.step (ok : log.Ok layout) {event : Event} {next : Lineage}
    (nothingBehind : log.NothingBehind layout event)
    (stepped : log.step layout event = some next) : next.Ok layout := by
  cases event with
  | write write => exact ok.write stepped
  | release index => exact ok.release stepped
  | mapFile file => exact ok.mapFile stepped
  | crash start fate => exact ok.crash nothingBehind stepped

/-- Over any number of crashes and recoveries, as long as no crash has left an item behind
the fragment its log ended in: a recovery returns the frames of the lineage from where it
starts up to the first missing item, and of the frames older than an earlier recovery only
those in front of where that one ended the log. -/
theorem crash_returns_lineage (layout : WalLayout) {events : List Event} {log : Lineage}
    (ran : runEvents (step layout) events new = some log)
    (nothingBehind : AllSteps (step layout) (NothingBehind layout) events new)
    (fate : Nat → Fate) {start : Nat} (frontier : start ∈ log.frontiers layout)
    (file : layout.locateFile start ∈ (log.crashDisk layout fate).files) :
    ∃ recovered, log.crash layout start fate = some recovered ∧
      recovered.frames =
        framesOf ((log.survivors fate).filter fun slot => decide (start ≤ slot.offset)) ∧
      ∀ frame ∈ recovered.frames, ∀ index cut, log.cuts[index]? = some cut →
        frame.2.2 ≤ index → frame.1 < cut := by
  have ok : log.Ok layout := runEvents_invariant (fun held met => held.step met) (ok_new layout)
    nothingBehind ran
  obtain ⟨recovered, crashed, frames, _⟩ := ok.crash_spec fate frontier file
  refine ⟨recovered, crashed, frames, fun frame member => ?_⟩
  rw [frames] at member
  obtain ⟨slot, inside, place, age⟩ := mem_framesOf member
  rw [← place, ← age]
  exact ok.cuts slot (mem_slots (mem_items_of_survivors (List.mem_filter.mp inside).1))

/-- A write that fills a fragment of the small layout. -/
def fullRecord (fill : Byte) : WalWrite := .record 0 [] (List.replicate 52 fill) false

theorem crash_returns_lineage_after_two_writes :
    ∃ log, runEvents (step .small) [.write (fullRecord 1), .write (fullRecord 2), .release 0,
        .crash 0 fun _ => .torn, .write (fullRecord 3), .release 1] new = some log ∧
      ∃ recovered, log.crash .small 0 (fun _ => .missing) = some recovered ∧
        recovered.frames = framesOf ((log.survivors fun _ => .missing).filter fun slot =>
          decide (0 ≤ slot.offset)) ∧
        ∀ frame ∈ recovered.frames, ∀ index cut, log.cuts[index]? = some cut →
          frame.2.2 ≤ index → frame.1 < cut := by
  have reached : (runEvents (step .small) [.write (fullRecord 1), .write (fullRecord 2), .release 0,
      .crash 0 fun _ => .torn, .write (fullRecord 3), .release 1] new).any (fun log =>
        (log.frontiers .small).contains 0 && (log.crashDisk .small fun _ => .missing).files.contains
          (WalLayout.small.locateFile 0)) = true := by
    decide +kernel
  obtain ⟨log, ran, met⟩ := (Option.any_eq_true _ _).mp reached
  rw [Bool.and_eq_true, List.contains_iff_mem, List.contains_iff_mem] at met
  exact ⟨log, ran, crash_returns_lineage .small ran (by decide +kernel) (fun _ => .missing) met.1 met.2⟩

/-- Two writes fill a fragment each; a crash takes the first and leaves the second, so the
recovery ends the log at its start. The next writer fills the first fragment again, and
the next recovery reads the old frame behind it. -/
theorem crash_revives_discarded_frame :
    ((runEvents (step .small) [.write (fullRecord 1), .write (fullRecord 2), .release 1,
        .crash 0 fun _ => .missing, .write (fullRecord 3), .release 0] new).bind fun log =>
      (log.crash .small 0 fun _ => .missing).map fun recovered =>
        (recovered.frames, framesOf (log.survivors fun _ => .missing), log.cuts)) =
      some ([(0, .record 0 [] (List.replicate 52 3) false, 1),
          (64, .record 0 [] (List.replicate 52 2) false, 0)],
        [(0, .record 0 [] (List.replicate 52 3) false, 1)], [0]) := by
  decide +kernel

end Lineage

end Tidehunter.Wal
