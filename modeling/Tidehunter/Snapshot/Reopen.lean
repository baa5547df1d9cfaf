import Tidehunter.Snapshot.Live

/-!
# Opening the database again

The index writer starts behind the last blob of the stored control region. A snapshot
deletes only files in front of the one it makes the writer start in, so as long as no
snapshot moves the start to a lower file, all files from there on exist.
-/

namespace Tidehunter.Snapshot

open Library Wal

variable {layout : WalLayout} {count : Nat} {store next : Store}

/-! ## Mapping fragments -/

theorem foldl_max_le {files : List Nat} {start bound : Nat} :
    files.foldl max start ≤ bound ↔ start ≤ bound ∧ ∀ file ∈ files, file ≤ bound := by
  induction files generalizing start with
  | nil => simp
  | cons first rest ih =>
      rw [List.foldl_cons, ih, Nat.max_le, List.forall_mem_cons, and_assoc]

theorem currentFileId_le {files : List Nat} {bound : Nat} :
    currentFileId files ≤ bound ↔ ∀ file ∈ files, file ≤ bound := by
  rw [currentFileId, foldl_max_le]
  exact and_iff_right (Nat.zero_le _)

theorem le_currentFileId {files : List Nat} {file : Nat} (member : file ∈ files) :
    file ≤ currentFileId files :=
  currentFileId_le.mp (Nat.le_refl _) file member

/-- No file is missing between one and the highest. -/
def Dense (files : List Nat) (first : Nat) : Prop :=
  ∀ file, first ≤ file → file ≤ currentFileId files → file ∈ files

/-- Files that differ only in front of the first. -/
theorem Dense.of_same {files others : List Nat} {first : Nat} (dense : Dense files first)
    (low : first ≤ currentFileId files)
    (same : ∀ file, first ≤ file → (file ∈ others ↔ file ∈ files)) :
    Dense others first ∧ currentFileId others = currentFileId files := by
  have highest : currentFileId others = currentFileId files := by
    refine Nat.le_antisymm (currentFileId_le.mpr fun file member => ?_) ?_
    · rcases Nat.lt_or_ge file first with before | behind
      · exact (Nat.le_of_lt before).trans low
      · exact le_currentFileId ((same file behind).mp member)
    · exact le_currentFileId ((same _ low).mpr (dense _ low (Nat.le_refl _)))
  exact ⟨fun file behind bound => (same file behind).mpr (dense file behind (highest ▸ bound)),
    highest⟩

theorem Dense.filter {files : List Nat} {first : Nat} {keep : Nat → Bool} (dense : Dense files first)
    (low : first ≤ currentFileId files) (kept : ∀ file, first ≤ file → keep file = true) :
    Dense (files.filter keep) first ∧ currentFileId (files.filter keep) = currentFileId files := by
  refine dense.of_same low fun file behind => ?_
  rw [List.mem_filter, and_iff_left (kept file behind)]

/-- The mapper finds or creates the file of the next fragment. -/
theorem makeMap_of_dense {files : List Nat} {first map : Nat} (dense : Dense files first)
    (low : first ≤ layout.fileForMap map) (near : layout.fileForMap map ≤ currentFileId files) :
    ∃ more, makeMap layout files (map + 1) = some more ∧ Dense more first ∧
      layout.fileForMap (map + 1) ≤ currentFileId more := by
  have ordered := layout.fileForMap_mono (Nat.le_succ map)
  have close := layout.fileForMap_succ_le map
  unfold makeMap
  simp only
  split
  · rename_i beyond
    have isNext : layout.fileForMap (map + 1) = currentFileId files + 1 := by omega
    rw [if_pos isNext]
    refine ⟨_, rfl, fun file behind bound => ?_, le_currentFileId List.mem_cons_self⟩
    by_cases old : file ≤ currentFileId files
    · exact List.mem_cons_of_mem _ (dense file behind old)
    · have highest : currentFileId (layout.fileForMap (map + 1) :: files) ≤
          currentFileId files + 1 := by
        rw [currentFileId_le, List.forall_mem_cons]
        exact ⟨Nat.le_of_eq isNext, fun other member =>
          (le_currentFileId member).trans (Nat.le_succ _)⟩
      have same : file = layout.fileForMap (map + 1) := by omega
      exact same ▸ List.mem_cons_self
  · rename_i within
    have present := dense _ (low.trans ordered) (Nat.not_lt.mp within)
    rw [if_pos (List.contains_iff_mem.mpr present)]
    exact ⟨files, rfl, dense, Nat.not_lt.mp within⟩

theorem mapFragments_of_dense {files : List Nat} {first map : Nat} (dense : Dense files first)
    (low : first ≤ layout.fileForMap map) (near : layout.fileForMap map ≤ currentFileId files)
    (more : Nat) : (mapFragments layout files (map + 1) more).isSome = true := by
  induction more generalizing files map with
  | zero => rfl
  | succ more ih =>
      obtain ⟨grown, made, denser, nearer⟩ := makeMap_of_dense dense low near
      rw [mapFragments, made]
      exact ih denser (low.trans (layout.fileForMap_mono (Nat.le_succ map))) nearer

/-! ## The start of the index writer -/

/-- What `lastPosition` does with one more place. -/
def laterOf (last : Option WalPosition) (place : WalPosition) : Option WalPosition :=
  some (last.elim place fun last =>
    if last.offset < place.offset ∨ last.offset = place.offset ∧ last.len < place.len then place
    else last)

theorem laterOf_spec (last : Option WalPosition) (place : WalPosition) :
    ∃ later, laterOf last place = some later ∧ (later = place ∨ last = some later) ∧
      place.offset ≤ later.offset ∧ ∀ old ∈ last, old.offset ≤ later.offset := by
  refine ⟨_, rfl, ?_⟩
  cases last with
  | none => exact ⟨Or.inl rfl, Nat.le_refl _, fun _ => nofun⟩
  | some last =>
      simp only [Option.elim_some, Option.mem_def, Option.some.injEq, forall_eq']
      split
      · exact ⟨Or.inl rfl, Nat.le_refl _, by omega⟩
      · exact ⟨Or.inr rfl, by omega, Nat.le_refl _⟩

theorem foldl_laterOf {places : List WalPosition} {start : WalPosition} :
    ∃ last ∈ start :: places, places.foldl laterOf (some start) = some last ∧
      ∀ place ∈ start :: places, place.offset ≤ last.offset := by
  induction places generalizing start with
  | nil =>
      refine ⟨start, List.mem_cons_self, rfl, fun place member => ?_⟩
      rw [List.mem_singleton.mp member]
  | cons place rest ih =>
      obtain ⟨later, isLater, among, behind, old⟩ := laterOf_spec (some start) place
      obtain ⟨last, member, isLast, all⟩ := @ih later
      obtain ⟨bound, rest⟩ := List.forall_mem_cons.mp all
      rw [List.foldl_cons, isLater]
      refine ⟨last, ?_, isLast, List.forall_mem_cons.mpr ⟨(old start rfl).trans bound,
        List.forall_mem_cons.mpr ⟨behind.trans bound, rest⟩⟩⟩
      rcases List.mem_cons.mp member with rfl | inRest
      · rcases among with rfl | isOld
        · exact List.mem_cons_of_mem _ List.mem_cons_self
        · exact Option.some.inj isOld ▸ List.mem_cons_self
      · exact List.mem_cons_of_mem _ (List.mem_cons_of_mem _ inRest)

/-- The index writer starts behind one of the listed places, the last. -/
theorem writerStart_spec {data : List (List WalPosition)} {place : WalPosition}
    (member : place ∈ data.flatten) :
    ∃ last ∈ data.flatten, writerStart layout data = last.offset + layout.align last.len ∧
      place.offset ≤ last.offset := by
  rw [writerStart]
  cases places : data.flatten with
  | nil =>
      rw [places] at member
      exact absurd member List.not_mem_nil
  | cons first rest =>
      rw [places] at member
      obtain ⟨last, listed, isLast, all⟩ := @foldl_laterOf rest first
      have found : lastPosition (first :: rest) = some last := isLast
      rw [found]
      exact ⟨last, listed, rfl, all place member⟩

theorem le_writerStart {data : List (List WalPosition)} {place : WalPosition}
    (member : place ∈ data.flatten) : place.offset ≤ writerStart layout data := by
  obtain ⟨last, _, start, bound⟩ := writerStart_spec member
  exact start ▸ bound.trans (Nat.le_add_right _ _)

/-- The file a control region makes the index writer start in. -/
def startFile (layout : WalLayout) (data : List (List WalPosition)) : Nat :=
  layout.locateFile (writerStart layout data)

theorem filesToDelete_lt {files : List Nat} {position : Nat} {data : List (List WalPosition)} :
    ∀ file ∈ filesToDelete layout files position data, file < startFile layout data := by
  intro file member
  unfold filesToDelete at member
  simp only at member
  split at member
  · rename_i highest isHighest
    obtain ⟨_, chosen⟩ := List.mem_filter.mp member
    rw [Bool.and_eq_true, decide_eq_true_eq] at chosen
    obtain ⟨place, listed, rfl⟩ := List.mem_map.mp (List.max?_mem isHighest)
    refine (lt_of_lt_of_le chosen.1 (Nat.min_le_right _ _)).trans_le ?_
    exact Nat.div_le_div_right (le_writerStart listed)
  · cases member

/-! ## What a run keeps -/

/-- The files a snapshot is about to delete lie in front of the start it stores. -/
def DeletesBefore (layout : WalLayout) (store : Store) : Phase → Prop
  | .relocating => True
  | .reading _ => True
  | .decided data toDelete => ∀ file ∈ toDelete, file < startFile layout data
  | .synced data toDelete => ∀ file ∈ toDelete, file < startFile layout data
  | .stored toDelete => ∀ file ∈ toDelete, file < startFile layout store.region.data

structure Reopenable (layout : WalLayout) (store : Store) : Prop where
  start : layout.locate (writerStart layout store.region.data) ≤ store.mapped
  mapped : layout.fileForMap store.mapped ≤ currentFileId store.files
  dense : Dense store.files (startFile layout store.region.data)
  removed : ∀ file ∈ store.removed, file < startFile layout store.region.data
  active : ∀ rebuild phase, store.active = some (rebuild, phase) →
    DeletesBefore layout store phase

namespace Reopenable

theorem startFile_le_mapped (held : Reopenable layout store) :
    startFile layout store.region.data ≤ layout.fileForMap store.mapped := by
  rw [startFile, ← layout.fileForMap_locate]
  exact layout.fileForMap_mono held.start

theorem startFile_le (held : Reopenable layout store) :
    startFile layout store.region.data ≤ currentFileId store.files :=
  held.startFile_le_mapped.trans held.mapped

/-- The files on disk differ from those in the file map only in front of the start. -/
theorem disk (held : Reopenable layout store) :
    Dense (store.files ++ store.removed) (startFile layout store.region.data) ∧
      currentFileId (store.files ++ store.removed) = currentFileId store.files := by
  refine held.dense.of_same held.startFile_le fun file behind => ?_
  rw [List.mem_append, or_iff_left]
  exact fun gone => absurd (held.removed file gone) (Nat.not_lt.mpr behind)

/-- A step of the snapshot that leaves the files and the control region. -/
theorem of_active (held : Reopenable layout store) {rebuilds : List Rebuild}
    {unsynced : List WalPosition} {active : Option (Rebuild × Phase)}
    (before : ∀ rebuild phase, active = some (rebuild, phase) → DeletesBefore layout store phase) :
    Reopenable layout { store with
      rebuilds := rebuilds
      unsynced := unsynced
      active := active } where
  start := held.start
  mapped := held.mapped
  dense := held.dense
  removed := held.removed
  active := before

end Reopenable

/-- Opening finds the file its index writer starts in, and the mapper never misses a file:
not from there on, and not in the running database. -/
def Reopens (layout : WalLayout) (store : Store) : Prop :=
  startFile layout store.region.data ∈ store.files ++ store.removed ∧
    (∀ more, (mapFragments layout (store.files ++ store.removed)
      (layout.locate (writerStart layout store.region.data) + 1) more).isSome = true) ∧
    (makeMap layout store.files (store.mapped + 1)).isSome = true

theorem Reopenable.reopens (held : Reopenable layout store) : Reopens layout store := by
  obtain ⟨dense, highest⟩ := held.disk
  have file := layout.fileForMap_locate (writerStart layout store.region.data)
  refine ⟨dense _ (Nat.le_refl _) (highest ▸ held.startFile_le), fun more => ?_, ?_⟩
  · refine mapFragments_of_dense dense (Nat.le_of_eq file.symm) ?_ more
    rw [file, highest]
    exact held.startFile_le
  · obtain ⟨grown, made, _⟩ := makeMap_of_dense held.dense held.startFile_le_mapped held.mapped
    exact made ▸ rfl

/-- The cells a snapshot that has synced the index file is about to store. -/
def Phase.stores : Phase → Option (List (List WalPosition))
  | .synced data _ => some data
  | _ => none

/-- A snapshot does not store a control region whose index writer starts in a lower file
than that of the one it replaces, or in a fragment that is not mapped yet. -/
def startsAhead (layout : WalLayout) (store : Store) : Event → Bool
  | .store => store.active.all fun active => active.2.stores.all fun data =>
      decide (startFile layout store.region.data ≤ startFile layout data) &&
        decide (layout.locate (writerStart layout data) ≤ store.mapped)
  | _ => true

namespace Reopenable

theorem new (layout : WalLayout) : Reopenable layout Store.new where
  start := Nat.le_of_eq (Nat.zero_div _)
  mapped := Nat.le_of_eq (Nat.zero_div _)
  dense := fun _ _ bound => List.mem_singleton.mpr (Nat.le_zero.mp bound)
  removed := fun _ member => absurd member List.not_mem_nil
  active := fun _ _ => nofun

theorem storeRegion (held : Reopenable layout store)
    (ahead : startsAhead layout store .store = true) {rebuild : Rebuild}
    {data : List (List WalPosition)} {toDelete : List Nat}
    (isActive : store.active = some (rebuild, .synced data toDelete)) (unsynced : List WalPosition) :
    Reopenable layout { store with
      region := ⟨data, false, unsynced⟩
      active := some (rebuild, .stored toDelete) } := by
  simp only [startsAhead, isActive, Option.all_some, Phase.stores, Bool.and_eq_true,
    decide_eq_true_eq] at ahead
  refine ⟨ahead.2, held.mapped, fun file behind => held.dense file (ahead.1.trans behind),
    fun file gone => (held.removed file gone).trans_le ahead.1, ?_⟩
  rintro _ _ ⟨⟩
  exact held.active rebuild _ isActive

theorem delete (held : Reopenable layout store) {rebuild : Rebuild} {toDelete actual : List Nat}
    (isActive : store.active = some (rebuild, .stored toDelete))
    (chosen : ∀ file ∈ actual, file ∈ toDelete) :
    Reopenable layout { store with
      files := store.files.filter fun file => !actual.contains file
      removed := store.removed ++ actual
      active := none } := by
  have before := held.active rebuild _ isActive
  have spared : ∀ file, startFile layout store.region.data ≤ file →
      (!actual.contains file) = true := fun file behind => by
    rw [Bool.not_eq_true', Bool.eq_false_iff, ne_eq, List.contains_iff_mem]
    exact fun deleted => absurd (before file (chosen file deleted)) (Nat.not_lt.mpr behind)
  obtain ⟨dense, highest⟩ := held.dense.filter held.startFile_le spared
  refine ⟨held.start, highest ▸ held.mapped, dense, fun file gone => ?_, fun _ _ => nofun⟩
  rcases List.mem_append.mp gone with old | deleted
  · exact held.removed file old
  · exact before file (chosen file deleted)

theorem reopen (held : Reopenable layout store) {dropped : List Nat}
    (reopened : store.reopen layout dropped = some next) : Reopenable layout next := by
  obtain ⟨_, rfl⟩ := guarded_eq_some.mp reopened
  obtain ⟨dense, highest⟩ := held.disk
  refine ⟨Nat.le_refl _, ?_, dense, fun _ member => absurd member List.not_mem_nil, fun _ _ => nofun⟩
  rw [layout.fileForMap_locate, highest]
  exact held.startFile_le

theorem step (held : Reopenable layout store) {event : Event}
    (ahead : startsAhead layout store event = true)
    (stepped : step layout count store event = some next) : Reopenable layout next := by
  cases stepped_of_step stepped with
  | mapNext made room =>
      obtain ⟨grown, same, dense, near⟩ :=
        makeMap_of_dense held.dense held.startFile_le_mapped held.mapped
      obtain rfl := Option.some.inj (made.symm.trans same)
      exact ⟨held.start.trans (Nat.le_succ _), near, dense, held.removed, held.active⟩
  | lock found flushed free => exact held.of_active fun _ _ => by rintro ⟨⟩; trivial
  | startReading active => exact held.of_active fun _ _ => by rintro ⟨⟩; trivial
  | readCell active more unlocked => exact held.of_active fun _ _ => by rintro ⟨⟩; trivial
  | decide active all =>
      refine held.of_active fun _ _ => ?_
      rintro ⟨⟩
      exact filesToDelete_lt
  | @fsync rebuild data toDelete active =>
      refine held.of_active fun _ _ => ?_
      rintro ⟨⟩
      exact (held.active rebuild _ active :)
  | store active => exact held.storeRegion ahead active _
  | delete active chosen =>
      refine held.delete active fun file deleted => ?_
      rw [chosen] at deleted
      exact (List.mem_filter.mp deleted).1
  | unlink =>
      exact ⟨held.start, held.mapped, held.dense,
        fun file gone => held.removed file (List.mem_filter.mp gone).1, held.active⟩
  | crash reopened => exact held.reopen reopened
  -- the other steps leave the files, the control region and the snapshot
  | _ => exact ⟨held.start, held.mapped, held.dense, held.removed, held.active⟩

end Reopenable

/-- In every run whose snapshots do not move the start of the index writer back, the
database can be opened from every state reached. -/
theorem reopens_of_startsAhead (layout : WalLayout) (count : Nat) {events : List Event}
    {store : Store}
    (ahead : AllSteps (step layout count)
      (fun store event => startsAhead layout store event = true) events Store.new)
    (ran : runEvents (step layout count) events Store.new = some store) :
    Reopens layout store :=
  (runEvents_invariant (fun held met => held.step met) (Reopenable.new layout) ahead ran).reopens

theorem reopens_of_startsAhead_past_deletion :
    ∃ store, runEvents (step .small 1) (flushTo 0 0 ++ [.mapNext] ++ flushTo 0 64 ++
        [.mapNext, .finalize] ++ snapshotOf 1 2 ++ [.unlink 0, .crash []]) Store.new = some store ∧
      Reopens .small store := by
  have reached : (runEvents (step .small 1) (flushTo 0 0 ++ [.mapNext] ++ flushTo 0 64 ++
      [.mapNext, .finalize] ++ snapshotOf 1 2 ++ [.unlink 0, .crash []]) Store.new).isSome = true := by
    decide +kernel
  obtain ⟨store, ran⟩ := Option.isSome_iff_exists.mp reached
  exact ⟨store, ran, reopens_of_startsAhead .small 1 (by decide +kernel) ran⟩

/-- The file between the blobs of two cells is deleted. Once the cell with the later blob
is dropped, the next snapshot makes the index writer start in the deleted file. -/
theorem reopen_in_deleted_file :
    ∃ store, runEvents (step .small 2) (flushTo 0 0 ++ [.mapNext] ++ flushTo 1 64 ++
        [.mapNext, .finalize] ++ flushTo 1 128 ++ [.mapNext, .finalize] ++ snapshotOf 2 3 ++
        [.unlink 1, .drop 1] ++ snapshotOf 2 3) Store.new = some store ∧
      store.files = [3, 2, 0] ∧ startFile .small store.region.data = 1 ∧
      store.reopen .small [] = none ∧ ¬ Reopens .small store := by
  have reached : (runEvents (step .small 2) (flushTo 0 0 ++ [.mapNext] ++ flushTo 1 64 ++
      [.mapNext, .finalize] ++ flushTo 1 128 ++ [.mapNext, .finalize] ++ snapshotOf 2 3 ++
      [.unlink 1, .drop 1] ++ snapshotOf 2 3) Store.new).any (fun store =>
        decide (store.files = [3, 2, 0] ∧ startFile .small store.region.data = 1) &&
          (store.reopen .small []).isNone &&
          !(store.files ++ store.removed).contains (startFile .small store.region.data)) = true := by
    decide +kernel
  obtain ⟨store, ran, met⟩ := (Option.any_eq_true _ _).mp reached
  rw [Bool.and_eq_true, Bool.and_eq_true, decide_eq_true_eq, Option.isNone_iff_eq_none,
    Bool.not_eq_true', Bool.eq_false_iff, ne_eq, List.contains_iff_mem] at met
  exact ⟨store, ran, met.1.1.1, met.1.1.2, met.1.2, fun reopens => met.2 reopens.1⟩

end Tidehunter.Snapshot
