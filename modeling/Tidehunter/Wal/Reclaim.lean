import Tidehunter.Library.Machine
import Tidehunter.Wal.Mapper

/-!
# Reclaiming files of the replay log

A watermark lets the mapper delete the files in front of it, apart from those with a fragment
mapped for writing. The writer's fragment and those ahead are mapped so, and so are those that a
recovery has read in front of the writer's start: they are never finalized.
-/

namespace Tidehunter.Wal

open Library

/-! ## Consecutive numbers -/

/-- What a downward closed condition keeps of consecutive numbers. -/
theorem filter_range'_downward {keep : Nat → Bool} (low count : Nat)
    (downward : ∀ first second, low ≤ first → first < second → second < low + count →
      keep second = true → keep first = true) :
    ∃ kept, (List.range' low count).filter keep = List.range' low kept := by
  induction count generalizing low with
  | zero => exact ⟨0, rfl⟩
  | succ count ih =>
      rw [List.range'_succ]
      by_cases here : keep low = true
      · obtain ⟨kept, isKept⟩ := ih (low + 1) fun first second atLeast before less =>
          downward first second (by omega) before (by omega)
        exact ⟨kept + 1, by rw [List.filter_cons_of_pos here, isKept, List.range'_succ]⟩
      · refine ⟨0, ?_⟩
        rw [List.filter_cons_of_neg here]
        refine List.filter_eq_nil_iff.mpr fun later member isKept => here ?_
        have bounds := List.mem_range'_1.mp member
        exact downward low later (Nat.le_refl _) (by omega) (by omega) isKept

/-- What a condition without a hole keeps of consecutive numbers. -/
theorem filter_range'_convex {keep : Nat → Bool} (low count : Nat)
    (convex : ∀ first second third, low ≤ first → first < second → second < third →
      third < low + count → keep first = true → keep third = true → keep second = true) :
    ∃ from' kept, (List.range' low count).filter keep = List.range' from' kept := by
  induction count generalizing low with
  | zero => exact ⟨low, 0, rfl⟩
  | succ count ih =>
      by_cases here : keep low = true
      · obtain ⟨kept, isKept⟩ := filter_range'_downward low (count + 1)
          fun first second atLeast before less isKept => by
            rcases Nat.eq_or_lt_of_le atLeast with rfl | above
            · exact here
            · exact convex low first second (Nat.le_refl _) above before less here isKept
        exact ⟨low, kept, isKept⟩
      · rw [List.range'_succ, List.filter_cons_of_neg here]
        exact ih (low + 1) fun first second third atLeast =>
          fun before after less => convex first second third (by omega) before after (by omega)

namespace WalMapperThread

variable {layout : WalLayout} {maxMaps : Nat} {thread next : WalMapperThread}

/-- The files are consecutive up to the current one. -/
def Contiguous (thread : WalMapperThread) : Prop :=
  ∃ low count, thread.files = List.range' low (count + 1)

/-! ## Mapping -/

/-- The files are consecutive and hold the fragment mapped last, which is mapped for writing. -/
structure Filed (layout : WalLayout) (maxMaps : Nat) (thread : WalMapperThread) : Prop where
  contiguous : thread.Contiguous
  current : layout.fileForMap thread.mapId ∈ thread.files
  mapped : thread.maps.lookup thread.mapId = some true
  below : thread.maps.Below maxMaps (thread.mapId + 1)

/-- Mapping the next fragment does not panic and creates the next file if it is needed. -/
theorem makeMap_next (accepted : 0 < maxMaps) (thread : WalMapperThread)
    (contiguous : thread.Contiguous)
    (current : layout.fileForMap thread.mapId ∈ thread.files)
    (below : thread.maps.Below maxMaps (thread.mapId + 1)) :
    ∃ next, thread.makeMap layout maxMaps (thread.mapId + 1) = some next ∧
      next.Filed layout maxMaps := by
  obtain ⟨low, count, isFiles⟩ := contiguous
  have isCurrent : thread.currentFileId = low + count := by
    rw [currentFileId, isFiles, List.range'_concat, List.getLast?_concat, Nat.one_mul]
    rfl
  rw [isFiles] at current
  have bounds := List.mem_range'_1.mp current
  have rises := layout.fileForMap_mono (Nat.le_add_right thread.mapId 1)
  have atMostOne := layout.fileForMap_succ_le thread.mapId
  obtain ⟨files, isNext, contiguous, present⟩ : ∃ files,
      thread.filesFor layout (thread.mapId + 1) = some files ∧
      (∃ low count, files = List.range' low (count + 1)) ∧
      layout.fileForMap (thread.mapId + 1) ∈ files := by
    unfold filesFor
    simp only [isCurrent]
    split
    · rename_i ahead
      rw [if_pos (by omega)]
      refine ⟨_, rfl, ⟨low, count + 1, ?_⟩, List.mem_append_right _ (List.mem_singleton_self _)⟩
      have isNext : layout.fileForMap (thread.mapId + 1) = low + 1 * (count + 1) := by omega
      rw [List.range'_concat, isFiles, isNext]
    · have present : layout.fileForMap (thread.mapId + 1) ∈ thread.files := by
        rw [isFiles]
        exact List.mem_range'_1.mpr ⟨by omega, by omega⟩
      rw [if_pos present]
      exact ⟨_, rfl, ⟨low, count, isFiles⟩, present⟩
  have nothing : thread.maps.Covers (thread.mapId + 1) (thread.mapId + 1) :=
    fun _ atLeast less => absurd atLeast (Nat.not_le.mpr less)
  obtain ⟨maps, mapped, covers, below, -⟩ := nothing.map_next below (by omega)
  refine ⟨{ thread with maps, files, mapId := thread.mapId + 1 }, ?_,
    contiguous, present, covers _ (Nat.le_refl _) (Nat.lt_succ_self _), below⟩
  rw [makeMap, isNext, Option.bind_some, mapped]
  rfl

/-! ## Deleting -/

/-- A file with a fragment that is mapped for writing. -/
def Written (layout : WalLayout) (thread : WalMapperThread) (file : Nat) : Prop :=
  ∃ map, thread.maps.lookup map = some true ∧ layout.fileForMap map = file

theorem isMapped_iff {maps : WalMaps} {file : Nat} :
    isMapped layout maps file = true ↔
      ∃ map writeable, maps.lookup map = some writeable ∧ layout.fileForMap map = file := by
  rw [isMapped, List.any_eq_true]
  constructor
  · rintro ⟨map, member, isFile⟩
    obtain ⟨writeable, found⟩ := SortedMap.mem_keys_iff.mp member
    exact ⟨map, writeable, found, of_decide_eq_true isFile⟩
  · rintro ⟨map, writeable, found, isFile⟩
    exact ⟨map, SortedMap.mem_keys_iff.mpr ⟨writeable, found⟩, decide_eq_true isFile⟩

/-- A file stays that is not to be deleted or has a fragment mapped for writing. -/
def Stays (layout : WalLayout) (thread : WalMapperThread) (toDelete : List Nat) (file : Nat) :
    Prop :=
  file ∉ toDelete ∨ thread.Written layout file

theorem files_deleteFiles (layout : WalLayout) (thread : WalMapperThread) (toDelete : List Nat) :
    ∃ keep : Nat → Bool, (thread.deleteFiles layout toDelete).files = thread.files.filter keep ∧
      ∀ file, keep file = true ↔ thread.Stays layout toDelete file := by
  refine ⟨_, rfl, fun file => ?_⟩
  have outside : toDelete.contains file = false ↔ file ∉ toDelete := by
    rw [← Bool.not_eq_true, List.contains_iff_mem]
  rw [Bool.or_eq_true, Bool.not_eq_true', isMapped_iff, outside]
  constructor
  · rintro (⟨map, writeable, found, isFile⟩ | kept)
    · rw [SortedMap.lookup_filter] at found
      obtain ⟨found, retained⟩ := Option.filter_eq_some_iff.mp found
      cases writeable with
      | true => exact .inr ⟨map, found, isFile⟩
      | false =>
          rw [Bool.false_or, isFile, Bool.not_eq_true', outside] at retained
          exact .inl retained
    · exact .inl kept
  · rintro (kept | ⟨map, found, isFile⟩)
    · exact .inr kept
    · refine .inl ⟨map, true, ?_, isFile⟩
      rw [SortedMap.lookup_filter, found]
      rfl

theorem mem_files_deleteFiles {toDelete : List Nat} {file : Nat} :
    file ∈ (thread.deleteFiles layout toDelete).files ↔
      file ∈ thread.files ∧ thread.Stays layout toDelete file := by
  obtain ⟨keep, isFiltered, stays⟩ := files_deleteFiles layout thread toDelete
  rw [isFiltered, List.mem_filter, stays]

/-- Between two files that stay none goes, that is none in front of the watermark without a
fragment mapped for writing. -/
def NoHole (layout : WalLayout) (thread : WalMapperThread) (watermark : Nat) : Prop :=
  ∀ first ∈ thread.files, ∀ second ∈ thread.files, ∀ third ∈ thread.files,
    first < second → second < third →
    thread.Stays layout (thread.filesBelow layout watermark) first →
    thread.Stays layout (thread.filesBelow layout watermark) third →
    thread.Stays layout (thread.filesBelow layout watermark) second

theorem Filed.deleteFiles (filed : thread.Filed layout maxMaps) {watermark : Nat}
    (noHole : thread.NoHole layout watermark) :
    (thread.deleteFiles layout (thread.filesBelow layout watermark)).Filed layout maxMaps := by
  have current : layout.fileForMap thread.mapId ∈
      (thread.deleteFiles layout (thread.filesBelow layout watermark)).files :=
    mem_files_deleteFiles.mpr ⟨filed.current, .inr ⟨_, filed.mapped, rfl⟩⟩
  refine ⟨?_, current, ?_, filed.below.of_subset fun map writeable found => ?_⟩
  · obtain ⟨low, count, isFiles⟩ := filed.contiguous
    obtain ⟨keep, isFiltered, stays⟩ :=
      files_deleteFiles layout thread (thread.filesBelow layout watermark)
    have member {file : Nat} (atLeast : low ≤ file) (less : file < low + (count + 1)) :
        file ∈ thread.files := by
      rw [isFiles]
      exact List.mem_range'_1.mpr ⟨atLeast, less⟩
    have convex : ∀ first second third, low ≤ first → first < second → second < third →
        third < low + (count + 1) → keep first = true → keep third = true → keep second = true := by
      intro first second third atLeast before after less firstStays thirdStays
      rw [stays] at firstStays thirdStays ⊢
      exact noHole first (member atLeast (by omega)) second (member (by omega) (by omega)) third
        (member (by omega) less) before after firstStays thirdStays
    obtain ⟨least, kept, isKept⟩ := filter_range'_convex low (count + 1) convex
    rw [isFiltered, isFiles, isKept] at current
    cases kept with
    | zero => exact absurd current List.not_mem_nil
    | succ kept => exact ⟨least, kept, by rw [isFiltered, isFiles, isKept]⟩
  · show SortedMap.lookup (SortedMap.filter _ _) thread.mapId = some true
    rw [SortedMap.lookup_filter, filed.mapped]
    rfl
  · change SortedMap.lookup (SortedMap.filter _ _) map = some writeable at found
    rw [SortedMap.lookup_filter] at found
    exact ⟨writeable, (Option.filter_eq_some_iff.mp found).1⟩

/-- Consecutive files have no hole. -/
theorem Contiguous.mem {first second third : Nat} (contiguous : thread.Contiguous)
    (isFirst : first ∈ thread.files) (isThird : third ∈ thread.files) (before : first < second)
    (after : second < third) : second ∈ thread.files := by
  obtain ⟨low, count, isFiles⟩ := contiguous
  rw [isFiles] at isFirst isThird ⊢
  have firstBounds := List.mem_range'_1.mp isFirst
  have thirdBounds := List.mem_range'_1.mp isThird
  exact List.mem_range'_1.mpr ⟨by omega, by omega⟩

/-! ## Runs -/

/-- What the mapper of the replay log is told. -/
inductive ReplayEvent where
  | finalized (map : Nat)
  | reclaim (watermark : Nat)
  deriving DecidableEq, Repr

def ReplayEvent.message : ReplayEvent → WalMapperMessage
  | .finalized map => .mapFinalized map
  | .reclaim watermark => .minWalPositionUpdated watermark

def step (layout : WalLayout) (maxMaps : Nat) (thread : WalMapperThread) (event : ReplayEvent) :
    Option WalMapperThread :=
  thread.handle layout maxMaps event.message

/-- No reclamation leaves a hole. -/
def ReclaimsWhole (layout : WalLayout) (thread : WalMapperThread) : ReplayEvent → Prop
  | .finalized _ => True
  | .reclaim watermark => thread.NoHole layout watermark

theorem Filed.finalized (accepted : 0 < maxMaps) (filed : thread.Filed layout maxMaps) {map : Nat}
    (handled : thread.handle layout maxMaps (.mapFinalized map) = some next) :
    next.Filed layout maxMaps := by
  simp only [handle] at handled
  split at handled
  · cases handled
    exact filed
  · cases handled
    exact filed
  · rename_i writeable
    have below : WalMaps.Below (thread.maps.insert map false) maxMaps (thread.mapId + 1) := by
      refine filed.below.of_subset fun other before found => ?_
      rw [SortedMap.lookup_insert] at found
      split at found
      · rename_i same
        exact ⟨true, same ▸ writeable⟩
      · exact ⟨before, found⟩
    obtain ⟨made, isMade, madeFiled⟩ := makeMap_next accepted
      { thread with
        maps := thread.maps.insert map false
        synced := thread.synced ++ [map] }
      filed.contiguous filed.current below
    obtain rfl := Option.some.inj (handled.symm.trans isMade)
    exact madeFiled

theorem Filed.step (accepted : 0 < maxMaps) (filed : thread.Filed layout maxMaps)
    {event : ReplayEvent} (whole : thread.ReclaimsWhole layout event)
    (stepped : thread.step layout maxMaps event = some next) : next.Filed layout maxMaps := by
  cases event with
  | finalized map => exact filed.finalized accepted stepped
  | reclaim watermark =>
      cases stepped
      exact filed.deleteFiles whole

theorem filed_intoWriter (accepted : mapsBuffer < maxMaps) {recovery : WalRecovery layout}
    (contiguous : ∃ low count, recovery.files = List.range' low (count + 1))
    (replayed : layout.fileForMap recovery.last ∈ recovery.files)
    (started : recovery.intoWriter maxMaps = some thread) : thread.Filed layout maxMaps := by
  obtain ⟨maps, premapped, started⟩ := WalRecovery.premapped started
  have positive : 0 < maxMaps := Nat.zero_lt_of_lt accepted
  obtain ⟨one, madeOne, oneFiled⟩ := makeMap_next positive
    ⟨maps, recovery.files, recovery.last, []⟩ contiguous replayed premapped.below
  obtain ⟨two, madeTwo, twoFiled⟩ :=
    makeMap_next positive one oneFiled.contiguous oneFiled.current oneFiled.below
  obtain ⟨_, -, -, -, isNext, -⟩ := makeMap_eq_some madeOne
  rw [isNext] at madeTwo
  change makeMap layout maxMaps _ (recovery.last + 1) = _ at madeOne
  change makeMap layout maxMaps one (recovery.last + 2) = _ at madeTwo
  rw [start, madeOne, Option.bind_some, madeTwo] at started
  exact Option.some.inj started ▸ twoFiled

/-- A recovery has read three fragments, each in a file of its own, and the writer starts in the
third. -/
def threeReplayed : WalRecovery .small :=
  ⟨0, 2, 136, [0, 1, 2], [], fun _ => false, by decide, ⟨17, rfl⟩, by decide, by decide⟩

/-- The writer leaves three fragments, and a watermark passes two of them. -/
def leavesThree : List ReplayEvent := [.finalized 2, .finalized 3, .finalized 4, .reclaim 256]

end WalMapperThread

end Tidehunter.Wal
