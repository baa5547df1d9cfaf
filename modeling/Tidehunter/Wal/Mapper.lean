import Tidehunter.Library.SortedMap
import Tidehunter.Wal.Log
import Mathlib

/-!
# The mapper of fragments

The mapper keeps some fragments of the log mapped: the one that is written, two ahead of it, and
older ones up to a limit, of which the lowest goes first. A fragment that the writer has left is
made read-only and handed to the syncer, and one more is mapped ahead. Files below a watermark
are deleted unless a fragment of theirs is mapped for writing.
-/

namespace Tidehunter.Wal

open Library

/-- The mapped fragments and whether they can be written. -/
abbrev WalMaps := SortedMap Nat Bool

namespace WalMaps

/-- Unmap the lowest fragment. -/
def popFirst (maps : WalMaps) : WalMaps := ⟨maps.entries.tail, maps.sorted.tail⟩

/-- Map a fragment for writing, and unmap the lowest one if there are too many. None is a
panic. -/
def map (maxMaps : Nat) (maps : WalMaps) (id : Nat) : Option WalMaps :=
  if maps.contains id then none
  else
    let mapped := maps.insert id true
    some (if maxMaps < mapped.size then popFirst mapped else mapped)

/-- Map fragments for reading. None is a panic. -/
def mapReadonly (maxMaps : Nat) (maps : WalMaps) (id : Nat) : Option WalMaps :=
  if maps.size < maxMaps ∧ maps.contains id = false then some (maps.insert id false) else none

end WalMaps

def mapsBuffer : Nat := 2

structure WalMapperThread where
  maps : WalMaps
  files : List Nat
  /-- The fragment mapped last. -/
  mapId : Nat
  /-- The fragments handed to the syncer. -/
  synced : List Nat
  deriving DecidableEq

inductive WalMapperMessage where
  | mapFinalized (map : Nat)
  | minWalPositionUpdated (watermark : Nat)
  | deleteFiles (files : List Nat)
  deriving DecidableEq, Repr

namespace WalMapperThread

def currentFileId (thread : WalMapperThread) : Nat := thread.files.getLast?.getD 0

/-- The files once a fragment is mapped. None is the panic on a file that is missing or not the
next one. -/
def filesFor (layout : WalLayout) (thread : WalMapperThread) (map : Nat) : Option (List Nat) :=
  let file := layout.fileForMap map
  if thread.currentFileId < file then
    if file = thread.currentFileId + 1 then some (thread.files ++ [file]) else none
  else if file ∈ thread.files then some thread.files
  else none

def makeMap (layout : WalLayout) (maxMaps : Nat) (thread : WalMapperThread) (map : Nat) :
    Option WalMapperThread :=
  (thread.filesFor layout map).bind fun files =>
    (thread.maps.map maxMaps map).map fun maps => { thread with maps, files, mapId := map }

/-- Map the fragments ahead. -/
def start (layout : WalLayout) (maxMaps : Nat) (maps : WalMaps) (files : List Nat) (last : Nat) :
    Option WalMapperThread :=
  (makeMap layout maxMaps ⟨maps, files, last, []⟩ (last + 1)).bind fun thread =>
    thread.makeMap layout maxMaps (last + 2)

/-- Whether a file has a mapped fragment. -/
def isMapped (layout : WalLayout) (maps : WalMaps) (file : Nat) : Bool :=
  maps.keys.any fun map => layout.fileForMap map = file

/-- Unmap what cannot be written in some files, and delete those of them that have no mapped
fragment then. -/
def deleteFiles (layout : WalLayout) (thread : WalMapperThread) (toDelete : List Nat) :
    WalMapperThread :=
  let maps := thread.maps.filter fun map writeable =>
    writeable || !toDelete.contains (layout.fileForMap map)
  { thread with
    maps
    files := thread.files.filter fun file =>
      isMapped layout maps file || !toDelete.contains file }

/-- The files that end at or below a watermark, up to the first that does not. -/
def filesBelow (layout : WalLayout) (thread : WalMapperThread) (watermark : Nat) : List Nat :=
  thread.files.takeWhile fun file => layout.fileStart (file + 1) ≤ watermark

def handle (layout : WalLayout) (maxMaps : Nat) (thread : WalMapperThread) :
    WalMapperMessage → Option WalMapperThread
  | .mapFinalized map =>
      match thread.maps.lookup map with
      -- The map is gone with its file.
      | none => some thread
      -- A fragment below the start of the writer that is mapped for reading.
      | some false => some thread
      | some true =>
          makeMap layout maxMaps
            { thread with
              maps := thread.maps.insert map false
              synced := thread.synced ++ [map] } (thread.mapId + 1)
  | .minWalPositionUpdated watermark =>
      some (thread.deleteFiles layout (thread.filesBelow layout watermark))
  | .deleteFiles files => some (thread.deleteFiles layout files)

end WalMapperThread

/-! ## Recovery -/

/-- The fragments that a recovery maps while it reads from one to another. -/
def replayedMaps (maxMaps first : Nat) : Nat → Option WalMaps
  | 0 => WalMaps.map maxMaps SortedMap.empty first
  | more + 1 => (replayedMaps maxMaps first more).bind fun maps => maps.map maxMaps (first + more + 1)

/-- Map the latest live fragments below the one mapped last for reading, as many as fit beside
the fragments ahead. Fragments without a file that covers them are left out. -/
def premapLiveFragments (maxMaps : Nat) (covered : Nat → Bool) (maps : WalMaps) (last : Nat)
    (live : List Nat) : Option WalMaps :=
  let candidates := (live.filter fun map => map < last && !maps.contains map).dedup
  let latestFirst := candidates.mergeSort fun first second => second ≤ first
  ((latestFirst.filter covered).take (maxMaps - (mapsBuffer + maps.size))).foldlM
    (WalMaps.mapReadonly maxMaps) maps

/-- What a recovery leaves to a writer: the fragments that it read, from the first to the last,
where the writer starts, the files, and the fragments that are live and can be mapped. -/
structure WalRecovery (layout : WalLayout) where
  first : Nat
  last : Nat
  position : Nat
  files : List Nat
  live : List Nat
  covered : Nat → Bool
  first_le : first ≤ last
  aligned : layout.Aligned position
  lower : layout.mapStart first ≤ position
  upper : position ≤ layout.mapStart (last + 1)

/-- Start the mapper. None is a panic. -/
def WalRecovery.intoWriter {layout : WalLayout} (maxMaps : Nat) (recovery : WalRecovery layout) :
    Option WalMapperThread :=
  (replayedMaps maxMaps recovery.first (recovery.last - recovery.first)).bind fun replayed =>
    (premapLiveFragments maxMaps recovery.covered replayed recovery.last recovery.live).bind fun maps =>
      if maps.lookup (layout.locate recovery.position) = some false then none
      else WalMapperThread.start layout maxMaps maps recovery.files recovery.last

/-! ## Windows of fragments -/

theorem length_le_of_ascending {β : Type} {bindings : List (Nat × β)}
    (ascending : bindings.Pairwise fun first second => first.1 < second.1) {low high : Nat}
    (bounds : ∀ binding ∈ bindings, low ≤ binding.1 ∧ binding.1 < high) :
    bindings.length ≤ high - low := by
  induction bindings generalizing low with
  | nil => exact Nat.zero_le _
  | cons first rest ih =>
      obtain ⟨before, ascending⟩ := List.pairwise_cons.mp ascending
      obtain ⟨here, later⟩ := List.forall_mem_cons.mp bounds
      have fewer : rest.length ≤ high - (low + 1) :=
        ih ascending fun binding member => by
          have := before binding member
          exact ⟨by omega, (later binding member).2⟩
      rw [List.length_cons]
      omega

namespace WalMaps

variable {maps : WalMaps} {maxMaps : Nat}

/-- Everything in a range of fragments is mapped for writing. -/
def Covers (maps : WalMaps) (low high : Nat) : Prop :=
  ∀ map, low ≤ map → map < high → maps.lookup map = some true

/-- A range is not larger than the maps that cover it. -/
theorem Covers.le_size {low high : Nat} (covers : maps.Covers low high) :
    high - low ≤ maps.size := by
  have subset : List.range' low (high - low) ⊆ maps.keys := by
    intro map member
    have bounds := List.mem_range'_1.mp member
    exact SortedMap.mem_keys_iff.mpr ⟨true, covers map bounds.1 (by omega)⟩
  have shorter := ((List.nodup_range').subperm subset).length_le
  rw [List.length_range'] at shorter
  exact shorter.trans_eq (List.length_map _)

/-- The maps are not too many and lie below a fragment. -/
structure Below (maps : WalMaps) (maxMaps high : Nat) : Prop where
  size : maps.size ≤ maxMaps
  keys : ∀ binding ∈ maps.entries, binding.1 < high

theorem nodup_keys (maps : WalMaps) : maps.keys.Nodup :=
  List.pairwise_map.mpr (maps.sorted.imp fun before => before.ne)

/-- Changing and unmapping fragments. -/
theorem Below.of_subset {high : Nat} (below : maps.Below maxMaps high) {next : WalMaps}
    (subset : ∀ map writeable, next.lookup map = some writeable →
      ∃ before, maps.lookup map = some before) : next.Below maxMaps high := by
  have keys : next.keys ⊆ maps.keys := by
    intro map member
    obtain ⟨writeable, found⟩ := SortedMap.mem_keys_iff.mp member
    exact SortedMap.mem_keys_iff.mpr (subset map writeable found)
  have fewer := (nodup_keys next |>.subperm keys).length_le
  rw [SortedMap.keys, SortedMap.keys, List.length_map, List.length_map] at fewer
  refine ⟨fewer.trans below.size, fun binding member => ?_⟩
  obtain ⟨before, found⟩ := subset _ _ (SortedMap.lookup_of_mem_entries member)
  exact below.keys (binding.1, before) (SortedMap.mem_entries_of_lookup found)

theorem lookup_popFirst {map : Nat} {writeable : Bool}
    (found : maps.lookup map = some writeable)
    (notFirst : ∀ binding ∈ maps.entries.head?, binding.1 ≠ map) :
    maps.popFirst.lookup map = some writeable := by
  rw [SortedMap.lookup_eq_some_iff] at found ⊢
  show (map, writeable) ∈ maps.entries.tail
  cases entries : maps.entries with
  | nil =>
      rw [entries] at found
      exact absurd found List.not_mem_nil
  | cons first rest =>
      rw [entries] at found notFirst
      rcases List.mem_cons.mp found with rfl | later
      · exact absurd rfl (notFirst _ rfl)
      · exact later

theorem le_of_mem_head? {first binding : Nat × Bool} (isFirst : first ∈ maps.entries.head?)
    (member : binding ∈ maps.entries) : first.1 ≤ binding.1 := by
  have sorted := maps.sorted
  cases entries : maps.entries with
  | nil =>
      rw [entries] at member
      exact absurd member List.not_mem_nil
  | cons head rest =>
      rw [entries] at isFirst member sorted
      obtain rfl := Option.some.inj isFirst
      rcases List.mem_cons.mp member with rfl | later
      · exact Nat.le_refl _
      · exact (List.pairwise_cons.mp sorted |>.1 binding later).le

/-- Mapping the next fragment keeps a range mapped that fits with it. -/
theorem Covers.map_next {low high : Nat} (covers : maps.Covers low high)
    (below : maps.Below maxMaps high) (fits : high + 1 - low ≤ maxMaps) :
    ∃ next, maps.map maxMaps high = some next ∧ next.Covers low (high + 1) ∧
      next.Below maxMaps (high + 1) ∧
      ∀ map writeable, next.lookup map = some writeable →
        map = high ∧ writeable = true ∨ maps.lookup map = some writeable := by
  have absent : maps.contains high = false := by
    rw [← Bool.not_eq_true, SortedMap.contains_iff]
    rintro ⟨writeable, found⟩
    exact (below.keys _ (SortedMap.mem_entries_of_lookup found)).ne rfl
  obtain ⟨mapped, isMapped⟩ : ∃ mapped : WalMaps, mapped = maps.insert high true := ⟨_, rfl⟩
  have entries : mapped.entries = maps.entries ++ [(high, true)] := by
    rw [isMapped, SortedMap.entries_insert_last maps true below.keys]
  have size : mapped.size = maps.size + 1 := by
    rw [SortedMap.size, entries, List.length_append]
    rfl
  have keys : ∀ binding ∈ mapped.entries, binding.1 < high + 1 := by
    intro binding member
    rw [entries] at member
    rcases List.mem_append.mp member with old | new
    · exact (below.keys binding old).trans (Nat.lt_succ_self _)
    · rw [List.mem_singleton.mp new]
      exact Nat.lt_succ_self _
  have mappedCovers : mapped.Covers low (high + 1) := by
    intro map above less
    rw [isMapped, SortedMap.lookup_insert]
    split
    · rfl
    · exact covers map above (by omega)
  have origin : ∀ map writeable, mapped.lookup map = some writeable →
      map = high ∧ writeable = true ∨ maps.lookup map = some writeable := by
    intro map writeable found
    rw [isMapped, SortedMap.lookup_insert] at found
    split at found
    · rename_i isHigh
      exact .inl ⟨isHigh, (Option.some.inj found).symm⟩
    · exact .inr found
  rw [WalMaps.map, if_neg (by rw [absent]; nofun), ← isMapped]
  refine ⟨_, rfl, ?_⟩
  split
  · rename_i tooMany
    refine ⟨fun map above less => ?_, ⟨?_, fun binding member => ?_⟩, fun map writeable found => ?_⟩
    · refine lookup_popFirst (mappedCovers map above less) fun first isFirst same => ?_
      -- The lowest map is in front of the range, as the range fits.
      have bounds : ∀ binding ∈ mapped.entries, map ≤ binding.1 ∧ binding.1 < high + 1 :=
        fun binding member => ⟨same ▸ le_of_mem_head? isFirst member, keys binding member⟩
      have few := length_le_of_ascending mapped.sorted bounds
      change mapped.size ≤ _ at few
      omega
    · show mapped.entries.tail.length ≤ maxMaps
      have atMost := below.size
      rw [List.length_tail]
      change mapped.size - 1 ≤ maxMaps
      omega
    · exact keys binding (List.mem_of_mem_tail member)
    · refine origin map writeable ?_
      rw [SortedMap.lookup_eq_some_iff] at found ⊢
      exact List.mem_of_mem_tail found
  · rename_i fitting
    exact ⟨mappedCovers, ⟨Nat.le_of_not_lt fitting, keys⟩, origin⟩

/-! ## What a recovery leaves mapped -/

/-- The fragments from `first` on that are mapped behind each other up to `high`: the latest of
them, all for writing, as many as fit. -/
structure Opened (maxMaps first high : Nat) (maps : WalMaps) : Prop where
  below : maps.Below maxMaps high
  covers : ∀ low, first ≤ low → high - low ≤ maxMaps → maps.Covers low high
  readonly : ∀ map, maps.lookup map = some false → map < first

variable {first high : Nat}

theorem opened_empty (maxMaps first : Nat) : Opened maxMaps first first SortedMap.empty :=
  ⟨⟨Nat.zero_le _, nofun⟩, fun _ above _ _ low less => absurd (above.trans low) (Nat.not_le.mpr less),
    nofun⟩

theorem Opened.map_next (opened : Opened maxMaps first high maps) :
    ∃ next, maps.map maxMaps high = some next ∧ Opened maxMaps first (high + 1) next := by
  have nothing : maps.Covers (high + 1) high := fun _ low less => by omega
  obtain ⟨next, mapped, -, below, origin⟩ := nothing.map_next opened.below (by omega)
  refine ⟨next, mapped, below, fun low atFirst fits => ?_, fun map found => ?_⟩
  · obtain ⟨same, again, covers, -⟩ :=
      (opened.covers low atFirst (by omega)).map_next opened.below fits
    obtain rfl := Option.some.inj (mapped.symm.trans again)
    exact covers
  · rcases origin map false found with ⟨-, isFalse⟩ | before
    · cases isFalse
    · exact opened.readonly map before

theorem opened_replayedMaps (maxMaps first more : Nat) :
    ∃ maps, replayedMaps maxMaps first more = some maps ∧
      Opened maxMaps first (first + more + 1) maps := by
  induction more with
  | zero => exact (opened_empty maxMaps first).map_next
  | succ more ih =>
      obtain ⟨maps, replayed, opened⟩ := ih
      obtain ⟨next, mapped, opened⟩ := opened.map_next
      exact ⟨next, by rw [replayedMaps, replayed]; exact mapped, opened⟩

/-- With room left nothing was unmapped. -/
theorem Opened.covers_all (opened : Opened maxMaps first high maps) (room : maps.size < maxMaps) :
    maps.Covers first high := by
  refine opened.covers first (Nat.le_refl _) (Nat.le_of_not_lt fun tooMany => ?_)
  have latest := opened.covers (high - maxMaps) (by omega) (by omega)
  have size := latest.le_size
  omega

theorem Opened.mapReadonly (opened : Opened maxMaps first high maps) {map : Nat} (low : map < first)
    (above : first ≤ high) {next : WalMaps} (mapped : maps.mapReadonly maxMaps map = some next) :
    Opened maxMaps first high next := by
  unfold WalMaps.mapReadonly at mapped
  split at mapped
  · rename_i fits
    cases mapped
    have size : (maps.insert map false).size ≤ maps.size + 1 := by
      have keys : (maps.insert map false).keys ⊆ map :: maps.keys := by
        intro other member
        obtain ⟨writeable, found⟩ := SortedMap.mem_keys_iff.mp member
        rw [SortedMap.lookup_insert] at found
        split at found
        · rename_i same
          exact same ▸ List.mem_cons_self
        · exact List.mem_cons_of_mem _ (SortedMap.mem_keys_iff.mpr ⟨writeable, found⟩)
      have fewer := ((nodup_keys _).subperm keys).length_le
      rw [List.length_cons, SortedMap.keys, SortedMap.keys, List.length_map, List.length_map] at fewer
      exact fewer
    refine ⟨⟨by omega, fun binding member => ?_⟩, fun from' atFirst fitting other atLeast less => ?_,
      fun other found => ?_⟩
    · rcases SortedMap.mem_insertEntry member with rfl | old
      · exact low.trans_le above
      · exact opened.below.keys binding old
    · rw [SortedMap.lookup_insert_of_ne _ _ (by omega)]
      exact opened.covers from' atFirst fitting other atLeast less
    · rw [SortedMap.lookup_insert] at found
      split at found
      · rename_i same
        exact same ▸ low
      · exact opened.readonly other found
  · cases mapped

theorem Opened.premapLiveFragments {last : Nat} (opened : Opened maxMaps first (last + 1) maps)
    (above : first ≤ last) {covered : Nat → Bool} {live : List Nat} {next : WalMaps}
    (mapped : premapLiveFragments maxMaps covered maps last live = some next) :
    Opened maxMaps first (last + 1) next := by
  -- A fragment that is not mapped lies in front of the first one, unless there is no room.
  have front : ∀ map ∈ ((((live.filter fun map => map < last && !maps.contains map).dedup.mergeSort
      fun first second => second ≤ first).filter covered).take (maxMaps - (mapsBuffer + maps.size))),
      map < first := by
    intro map member
    have room : maps.size < maxMaps := by
      have nonempty := List.length_pos_of_mem member
      rw [List.length_take] at nonempty
      omega
    have candidate := (List.mem_filter.mp (List.mem_of_mem_take member)).1
    rw [List.mem_mergeSort, List.mem_dedup, List.mem_filter, Bool.and_eq_true, decide_eq_true_eq,
      Bool.not_eq_true'] at candidate
    obtain ⟨-, lower, absent⟩ := candidate
    refine Nat.lt_of_not_le fun atFirst => ?_
    have isMapped := opened.covers_all room map atFirst (by omega)
    rw [SortedMap.contains_iff.mpr ⟨true, isMapped⟩] at absent
    cases absent
  unfold Wal.premapLiveFragments at mapped
  simp only at mapped
  generalize ((((live.filter fun map => map < last && !maps.contains map).dedup.mergeSort
      fun first second => second ≤ first).filter covered).take (maxMaps - (mapsBuffer + maps.size)))
    = fragments at mapped front
  induction fragments generalizing maps with
  | nil =>
      cases mapped
      exact opened
  | cons map rest ih =>
      obtain ⟨here, later⟩ := List.forall_mem_cons.mp front
      obtain ⟨premapped, isPremapped, mapped⟩ := Option.bind_eq_some_iff.mp mapped
      exact ih (opened.mapReadonly here (by omega) isPremapped) mapped later

end WalMaps

theorem WalMapperThread.makeMap_eq_some {layout : WalLayout} {maxMaps map : Nat}
    {thread next : WalMapperThread} (made : thread.makeMap layout maxMaps map = some next) :
    ∃ files, thread.filesFor layout map = some files ∧
      thread.maps.map maxMaps map = some next.maps ∧ next.files = files ∧ next.mapId = map ∧
      next.synced = thread.synced := by
  obtain ⟨files, isFiles, made⟩ := Option.bind_eq_some_iff.mp made
  obtain ⟨maps, mapped, rfl⟩ := Option.map_eq_some_iff.mp made
  exact ⟨files, isFiles, mapped, rfl, rfl, rfl⟩

/-- What is mapped when the mapper starts. -/
theorem WalRecovery.premapped {layout : WalLayout} {maxMaps : Nat} {recovery : WalRecovery layout}
    {mapper : WalMapperThread} (started : recovery.intoWriter maxMaps = some mapper) :
    ∃ maps, WalMaps.Opened maxMaps recovery.first (recovery.last + 1) maps ∧
      WalMapperThread.start layout maxMaps maps recovery.files recovery.last = some mapper := by
  obtain ⟨replayed, isReplayed, started⟩ := Option.bind_eq_some_iff.mp started
  obtain ⟨maps, premapped, started⟩ := Option.bind_eq_some_iff.mp started
  split at started
  · cases started
  · obtain ⟨same, again, opened⟩ := WalMaps.opened_replayedMaps maxMaps recovery.first
      (recovery.last - recovery.first)
    obtain rfl := Option.some.inj (isReplayed.symm.trans again)
    rw [Nat.add_sub_cancel' recovery.first_le] at opened
    exact ⟨maps, opened.premapLiveFragments recovery.first_le premapped, started⟩

/-- The mapper starts with the latest fragments from the first that was replayed on, up to the
two ahead of the last one. -/
theorem WalRecovery.opened {layout : WalLayout} {maxMaps : Nat} {recovery : WalRecovery layout}
    {mapper : WalMapperThread} (started : recovery.intoWriter maxMaps = some mapper) :
    WalMaps.Opened maxMaps recovery.first (recovery.last + 3) mapper.maps ∧
      mapper.mapId = recovery.last + 2 ∧ mapper.synced = [] := by
  obtain ⟨maps, premapped, started⟩ := WalRecovery.premapped started
  obtain ⟨one, madeOne, madeTwo⟩ := Option.bind_eq_some_iff.mp started
  obtain ⟨_, -, mappedOne, -, -, syncedOne⟩ := WalMapperThread.makeMap_eq_some madeOne
  obtain ⟨_, -, mappedTwo, -, isLast, syncedTwo⟩ := WalMapperThread.makeMap_eq_some madeTwo
  obtain ⟨maps, mapped, opened⟩ := premapped.map_next
  obtain rfl := Option.some.inj (mappedOne.symm.trans mapped)
  obtain ⟨maps, mapped, opened⟩ := opened.map_next
  obtain rfl := Option.some.inj (mappedTwo.symm.trans mapped)
  exact ⟨opened, isLast, syncedTwo.trans syncedOne⟩

end Tidehunter.Wal
