import Tidehunter.Flusher.Outputs
import Tidehunter.Snapshot.Machine

/-!
# A deleted index file holds no blob that is needed

A file is deleted when it lies in front of the position the index writer had at the start
of the snapshot and no cell that the snapshot read has a blob in it. A blob in such a file
was written by a flush requested before the snapshot began; the barrier waits for those,
so the blob was in the levels of its cell when the cell was read. Later flushes add only
blobs behind that position to what the levels hold.
-/

namespace Tidehunter.Snapshot

open Library Wal

variable {layout : WalLayout} {count : Nat} {store next : Store}

/-! ## What flushes do to the cells -/

/-- A flush adds places at the end of the index log and puts places into its cell. -/
structure Evolves (store next : Store) : Prop where
  position : store.position ≤ next.position
  nextJob : store.nextJob ≤ next.nextJob
  files : ∀ file ∈ store.files, file ∈ next.files
  job : ∀ cell job, (next.cells cell).job = some job →
    (∃ old, (store.cells cell).job = some old ∧ job.id = old.id ∧ job.sync = old.sync ∧
      ∀ place ∈ job.places, place ∈ old.places ∨ store.position ≤ place.offset) ∨
    store.nextJob ≤ job.id ∧ ∀ place ∈ job.places, store.position ≤ place.offset
  blobs : ∀ cell, ∀ place ∈ (next.cells cell).blobs, place ∈ (store.cells cell).blobs ∨
    ∃ job, (store.cells cell).job = some job ∧ place ∈ job.places

/-- A step that leaves the cells and the index log as they are. -/
theorem Evolves.of_cells (cells : next.cells = store.cells) (position : next.position = store.position)
    (nextJob : next.nextJob = store.nextJob) (files : ∀ file ∈ store.files, file ∈ next.files) :
    Evolves store next where
  position := Nat.le_of_eq position.symm
  nextJob := Nat.le_of_eq nextJob.symm
  files := files
  job := by
    intro cell job isJob
    rw [cells] at isJob
    exact Or.inl ⟨job, isJob, rfl, rfl, fun place member => Or.inl member⟩
  blobs := by
    intro cell place member
    rw [cells] at member
    exact Or.inl member

/-- A step that changes one cell. -/
theorem Evolves.of_setCell {cell : Nat} {content : Cell}
    (cells : next.cells = (store.setCell cell content).cells)
    (position : store.position ≤ next.position) (nextJob : store.nextJob ≤ next.nextJob)
    (files : next.files = store.files)
    (job : ∀ job, content.job = some job →
      (∃ old, (store.cells cell).job = some old ∧ job.id = old.id ∧ job.sync = old.sync ∧
        ∀ place ∈ job.places, place ∈ old.places ∨ store.position ≤ place.offset) ∨
      store.nextJob ≤ job.id ∧ ∀ place ∈ job.places, store.position ≤ place.offset)
    (blobs : ∀ place ∈ content.blobs, place ∈ (store.cells cell).blobs ∨
      ∃ job, (store.cells cell).job = some job ∧ place ∈ job.places) :
    Evolves store next where
  position := position
  nextJob := nextJob
  files := by
    rw [files]
    exact fun _ member => member
  job := by
    intro other found isJob
    rw [cells, Store.setCell] at isJob
    simp only at isJob
    split at isJob
    · rename_i here
      subst here
      exact job found isJob
    · exact Or.inl ⟨found, isJob, rfl, rfl, fun place member => Or.inl member⟩
  blobs := by
    intro other place member
    rw [cells, Store.setCell] at member
    simp only at member
    split at member
    · rename_i here
      subst here
      exact blobs place member
    · exact Or.inl member

/-! ## Snapshots -/

/-- Flushes requested since a snapshot began take places behind its start. -/
structure Rebuild.Ok (store : Store) (rebuild : Rebuild) : Prop where
  start_le : rebuild.preSnapshotIndexPos ≤ store.position
  first_le : rebuild.firstJob ≤ store.nextJob
  young : ∀ cell job, (store.cells cell).job = some job → rebuild.firstJob ≤ job.id →
    ∀ place ∈ job.places, rebuild.preSnapshotIndexPos ≤ place.offset
  waited : rebuild.flushed = true → ∀ cell job, (store.cells cell).job = some job →
    job.sync = false → rebuild.firstJob ≤ job.id

theorem Rebuild.Ok.evolve {rebuild : Rebuild} (ok : rebuild.Ok store)
    (evolves : Evolves store next) : rebuild.Ok next where
  start_le := ok.start_le.trans evolves.position
  first_le := ok.first_le.trans evolves.nextJob
  young := by
    intro cell job isJob late place member
    rcases evolves.job cell job isJob with ⟨old, isOld, sameId, _, places⟩ | ⟨_, places⟩
    · rcases places place member with before | behind
      · exact ok.young cell old isOld (sameId ▸ late) place before
      · exact ok.start_le.trans behind
    · exact ok.start_le.trans (places place member)
  waited := by
    intro flushed cell job isJob async
    rcases evolves.job cell job isJob with ⟨old, isOld, sameId, sameSync, _⟩ | ⟨later, _⟩
    · rw [sameId]
      exact ok.waited flushed cell old isOld (sameSync ▸ async)
    · exact ok.first_le.trans later

/-- The snapshot knows every blob of a cell that lies in front of its start. -/
structure Seen (store : Store) (rebuild : Rebuild) (data : List (List WalPosition)) (cell : Nat) :
    Prop where
  blobs : ∀ place ∈ (store.cells cell).blobs, place.offset < rebuild.preSnapshotIndexPos →
    place ∈ data.flatten
  job : ∀ job, (store.cells cell).job = some job → rebuild.firstJob ≤ job.id

theorem Seen.job_evolve {rebuild : Rebuild} (ok : rebuild.Ok store) {cell : Nat}
    (late : ∀ job, (store.cells cell).job = some job → rebuild.firstJob ≤ job.id)
    (evolves : Evolves store next) :
    ∀ job, (next.cells cell).job = some job → rebuild.firstJob ≤ job.id := by
  intro job isJob
  rcases evolves.job cell job isJob with ⟨old, isOld, sameId, _⟩ | ⟨later, _⟩
  · rw [sameId]
    exact late old isOld
  · exact ok.first_le.trans later

theorem Seen.evolve {rebuild : Rebuild} (ok : rebuild.Ok store) {data : List (List WalPosition)}
    {cell : Nat} (seen : Seen store rebuild data cell) (evolves : Evolves store next) :
    Seen next rebuild data cell where
  blobs := by
    intro place member front
    rcases evolves.blobs cell place member with before | ⟨job, isJob, added⟩
    · exact seen.blobs place before front
    · have behind := ok.young cell job isJob (seen.job job isJob) place added
      omega
  job := Seen.job_evolve ok seen.job evolves

/-- Files that no cell and no flush needs. -/
structure Doomed (layout : WalLayout) (store : Store) (rebuild : Rebuild) (files : List Nat) :
    Prop where
  front : ∀ file ∈ files, file < layout.locateFile rebuild.preSnapshotIndexPos
  blobs : ∀ file ∈ files, ∀ cell, ∀ place ∈ (store.cells cell).blobs,
    layout.locateFile place.offset ≠ file
  job : ∀ cell job, (store.cells cell).job = some job → rebuild.firstJob ≤ job.id

theorem Doomed.ne_of_le {rebuild : Rebuild} {files : List Nat}
    (doomed : Doomed layout store rebuild files) {file : Nat} (member : file ∈ files) {offset : Nat}
    (behind : rebuild.preSnapshotIndexPos ≤ offset) : layout.locateFile offset ≠ file := by
  have front := doomed.front file member
  have ordered : layout.locateFile rebuild.preSnapshotIndexPos ≤ layout.locateFile offset :=
    Nat.div_le_div_right behind
  omega

theorem Doomed.ne_of_place {rebuild : Rebuild} (ok : rebuild.Ok store) {files : List Nat}
    (doomed : Doomed layout store rebuild files) {file : Nat} (member : file ∈ files) {cell : Nat}
    {job : Job} (isJob : (store.cells cell).job = some job) {place : WalPosition}
    (added : place ∈ job.places) : layout.locateFile place.offset ≠ file :=
  doomed.ne_of_le member (ok.young cell job isJob (doomed.job cell job isJob) place added)

theorem Doomed.evolve {rebuild : Rebuild} (ok : rebuild.Ok store) {files : List Nat}
    (doomed : Doomed layout store rebuild files) (evolves : Evolves store next) :
    Doomed layout next rebuild files where
  front := doomed.front
  blobs := by
    intro file inside cell place member
    rcases evolves.blobs cell place member with before | ⟨job, isJob, added⟩
    · exact doomed.blobs file inside cell place before
    · exact doomed.ne_of_place ok inside isJob added
  job := fun cell => Seen.job_evolve ok (doomed.job cell) evolves

/-- The snapshot that holds the lock, by how far it has come. -/
def PhaseOk (layout : WalLayout) (store : Store) (rebuild : Rebuild) : Phase → Prop
  | .relocating => True
  | .reading data => (∀ cell, cell < data.length → Seen store rebuild data cell) ∧
      ∀ place ∈ data.flatten, layout.locateFile place.offset ∈ store.files
  | .decided data toDelete => Doomed layout store rebuild toDelete ∧
      ∀ place ∈ data.flatten, layout.locateFile place.offset ∈ store.files ∧
        layout.locateFile place.offset ∉ toDelete
  | .synced data toDelete => Doomed layout store rebuild toDelete ∧
      ∀ place ∈ data.flatten, layout.locateFile place.offset ∈ store.files ∧
        layout.locateFile place.offset ∉ toDelete
  | .stored toDelete => Doomed layout store rebuild toDelete ∧
      ∀ place ∈ store.region.data.flatten, layout.locateFile place.offset ∉ toDelete

theorem PhaseOk.evolve {rebuild : Rebuild} (ok : rebuild.Ok store) {phase : Phase}
    (phaseOk : PhaseOk layout store rebuild phase) (evolves : Evolves store next)
    (region : next.region = store.region) : PhaseOk layout next rebuild phase := by
  cases phase with
  | relocating => trivial
  | reading data =>
      exact ⟨fun cell read => (phaseOk.1 cell read).evolve ok evolves,
        fun place member => evolves.files _ (phaseOk.2 place member)⟩
  | decided data toDelete =>
      exact ⟨phaseOk.1.evolve ok evolves, fun place member =>
        ⟨evolves.files _ (phaseOk.2 place member).1, (phaseOk.2 place member).2⟩⟩
  | synced data toDelete =>
      exact ⟨phaseOk.1.evolve ok evolves, fun place member =>
        ⟨evolves.files _ (phaseOk.2 place member).1, (phaseOk.2 place member).2⟩⟩
  | stored toDelete =>
      refine ⟨phaseOk.1.evolve ok evolves, ?_⟩
      rw [region]
      exact phaseOk.2

/-! ## The invariant -/

/-- The snapshots under way. -/
structure RebuildsOk (layout : WalLayout) (store : Store) : Prop where
  waiting : ∀ rebuild ∈ store.rebuilds, rebuild.Ok store
  active : ∀ rebuild phase, store.active = some (rebuild, phase) →
    rebuild.Ok store ∧ rebuild.flushed = true ∧ PhaseOk layout store rebuild phase

theorem RebuildsOk.evolve (ok : RebuildsOk layout store) (evolves : Evolves store next)
    (rebuilds : next.rebuilds = store.rebuilds) (active : next.active = store.active)
    (region : next.region = store.region) : RebuildsOk layout next where
  waiting := by
    rw [rebuilds]
    exact fun rebuild member => (ok.waiting rebuild member).evolve evolves
  active := by
    rw [active]
    intro rebuild phase isActive
    obtain ⟨rebuildOk, flushed, phaseOk⟩ := ok.active rebuild phase isActive
    exact ⟨rebuildOk.evolve evolves, flushed, phaseOk.evolve rebuildOk evolves region⟩

/-- The files of everything that is referenced are there. -/
structure FilesOk (layout : WalLayout) (store : Store) : Prop where
  /-- From the fragment the log ends in on, what is mapped has its file. -/
  ahead : ∀ map, layout.locate store.position ≤ map → map ≤ store.mapped →
    layout.fileForMap map ∈ store.files
  reserved : ∀ cell job, (store.cells cell).job = some job → ∀ place ∈ job.reserved,
    layout.locate place.offset ≤ store.mapped → layout.locateFile place.offset ∈ store.files
  written : ∀ cell job, (store.cells cell).job = some job → ∀ place ∈ job.written,
    layout.locateFile place.offset ∈ store.files
  blobs : ∀ cell, ∀ place ∈ (store.cells cell).blobs, layout.locateFile place.offset ∈ store.files
  region : ∀ place ∈ store.region.data.flatten, layout.locateFile place.offset ∈ store.files

/-- The flushes and blobs there can be. -/
structure CellsOk (count : Nat) (store : Store) : Prop where
  job : ∀ cell job, (store.cells cell).job = some job → job.id < store.nextJob
  outside : ∀ cell, count ≤ cell → store.cells cell = ⟨[], none⟩

/-- How many cells a snapshot has read. -/
def Phase.cells : Phase → Nat
  | .relocating => 0
  | .reading data => data.length
  | .decided data _ => data.length
  | .synced data _ => data.length
  | .stored _ => 0

/-- A control region has no more cells than the database. -/
structure Listed (count : Nat) (region : StoredRegion) (active : Option (Rebuild × Phase)) :
    Prop where
  region : region.data.length ≤ count
  active : ∀ rebuild phase, active = some (rebuild, phase) → phase.cells ≤ count

structure Sound (layout : WalLayout) (count : Nat) (store : Store) : Prop where
  listed : Listed count store.region store.active
  cells : CellsOk count store
  files : FilesOk layout store
  rebuilds : RebuildsOk layout store

theorem sound_new (layout : WalLayout) (count : Nat) : Sound layout count Store.new where
  listed := ⟨Nat.zero_le _, nofun⟩
  cells := ⟨nofun, fun _ _ => rfl⟩
  files :=
    { ahead := by
        intro map _ high
        obtain rfl : map = 0 := Nat.le_zero.mp high
        have first : layout.fileForMap 0 = 0 := by
          rw [WalLayout.fileForMap, WalLayout.mapStart, WalLayout.locateFile, Nat.mul_zero,
            Nat.zero_div]
        rw [first]
        exact List.mem_cons_self
      reserved := nofun
      written := nofun
      blobs := fun _ _ member => absurd member List.not_mem_nil
      region := fun _ member => absurd member List.not_mem_nil }
  rebuilds := ⟨fun _ member => absurd member List.not_mem_nil, nofun⟩

/-! ## Flushes -/

theorem cells_setCell (store : Store) (cell : Nat) (content : Cell) (other : Nat) :
    (store.setCell cell content).cells other = if other = cell then content else store.cells other :=
  rfl

/-- What is asked of the new contents of a cell. -/
theorem CellsOk.set (ok : CellsOk count store) {cell : Nat} {content : Cell}
    (cells : next.cells = (store.setCell cell content).cells) (nextJob : store.nextJob ≤ next.nextJob)
    (job : ∀ job, content.job = some job → job.id < next.nextJob) (inside : cell < count) :
    CellsOk count next where
  job := by
    intro other found isJob
    rw [cells, cells_setCell] at isJob
    split at isJob
    · exact job found isJob
    · exact Nat.lt_of_lt_of_le (ok.job other found isJob) nextJob
  outside := by
    intro other high
    rw [cells, cells_setCell, if_neg (by omega)]
    exact ok.outside other high

theorem FilesOk.set (ok : FilesOk layout store) {cell : Nat} {content : Cell}
    (cells : next.cells = (store.setCell cell content).cells) (files : next.files = store.files)
    (mapped : next.mapped = store.mapped) (position : store.position ≤ next.position)
    (region : next.region = store.region)
    (reserved : ∀ job, content.job = some job → ∀ place ∈ job.reserved,
      layout.locate place.offset ≤ store.mapped → layout.locateFile place.offset ∈ store.files)
    (written : ∀ job, content.job = some job → ∀ place ∈ job.written,
      layout.locateFile place.offset ∈ store.files)
    (blobs : ∀ place ∈ content.blobs, layout.locateFile place.offset ∈ store.files) :
    FilesOk layout next where
  ahead := by
    rw [files, mapped]
    exact fun map low => ok.ahead map ((Nat.div_le_div_right position).trans low)
  reserved := by
    intro other job isJob
    rw [files, mapped]
    rw [cells, cells_setCell] at isJob
    split at isJob
    · exact reserved job isJob
    · exact ok.reserved other job isJob
  written := by
    intro other job isJob
    rw [files]
    rw [cells, cells_setCell] at isJob
    split at isJob
    · exact written job isJob
    · exact ok.written other job isJob
  blobs := by
    intro other
    rw [cells, cells_setCell, files]
    split
    · exact blobs
    · exact ok.blobs other
  region := by
    rw [region, files]
    exact ok.region

/-- A cell with a flush under way is one of the cells. -/
theorem CellsOk.inside (ok : CellsOk count store) {cell : Nat} {job : Job}
    (isJob : (store.cells cell).job = some job) : cell < count := by
  by_contra outside
  rw [ok.outside cell (Nat.le_of_not_lt outside)] at isJob
  cases isJob

theorem Sound.request (sound : Sound layout count store) {cell : Nat} {sync : Bool}
    (stepped : step layout count store (.request cell sync) = some next) :
    Sound layout count next := by
  obtain ⟨allowed, rfl⟩ := guarded_eq_some.mp stepped
  rw [Bool.and_eq_true, decide_eq_true_eq] at allowed
  have fresh : ∀ job, some (⟨store.nextJob, sync, [], []⟩ : Job) = some job →
      job = ⟨store.nextJob, sync, [], []⟩ := fun job same => (Option.some.inj same).symm
  refine ⟨sound.listed, sound.cells.set rfl (Nat.le_succ _) (fun job isJob => ?_) allowed.1,
    sound.files.set rfl rfl rfl (Nat.le_refl _) rfl (fun job isJob => ?_) (fun job isJob => ?_)
      (sound.files.blobs cell),
    sound.rebuilds.evolve (Evolves.of_setCell rfl (Nat.le_refl _) (Nat.le_succ _) rfl
      (fun job isJob => Or.inr ?_) fun place member => Or.inl member) rfl rfl rfl⟩
  · rw [fresh job isJob]
    exact Nat.lt_succ_self _
  · rw [fresh job isJob]
    exact fun _ member => absurd member List.not_mem_nil
  · rw [fresh job isJob]
    exact fun _ member => absurd member List.not_mem_nil
  · rw [fresh job isJob]
    exact ⟨Nat.le_refl _, fun _ member => absurd member List.not_mem_nil⟩

theorem Sound.allocate (sound : Sound layout count store) {cell len : Nat}
    (stepped : step layout count store (.allocate cell len) = some next) :
    Sound layout count next := by
  obtain ⟨job, isJob, rest⟩ := Option.bind_eq_some_iff.mp stepped
  obtain ⟨result, allocated, rfl⟩ := Option.map_eq_some_iff.mp rest
  obtain ⟨_, behind, _⟩ := WalLayout.allocate_spec allocated
  have grown : store.position ≤ result.nextPosition := behind.trans (Nat.le_add_right _ _)
  have inside := sound.cells.inside isJob
  refine ⟨sound.listed, sound.cells.set rfl (Nat.le_refl _) ?_ inside,
    sound.files.set rfl rfl rfl grown rfl ?_ ?_ (sound.files.blobs cell),
    sound.rebuilds.evolve (Evolves.of_setCell rfl grown (Nat.le_refl _) rfl ?_
      fun place member => Or.inl member) rfl rfl rfl⟩
  · rintro _ ⟨⟩
    exact sound.cells.job cell job isJob
  · rintro _ ⟨⟩ place member mapped
    rcases List.mem_append.mp member with old | new
    · exact sound.files.reserved cell job isJob place old mapped
    · obtain rfl := List.mem_singleton.mp new
      rw [← layout.fileForMap_locate]
      exact sound.files.ahead _ (Nat.div_le_div_right behind) mapped
  · rintro _ ⟨⟩
    exact sound.files.written cell job isJob
  · rintro _ ⟨⟩
    refine Or.inl ⟨job, isJob, rfl, rfl, fun place member => ?_⟩
    simp only [Job.places, List.mem_append, List.mem_singleton] at member ⊢
    rcases member with (old | rfl) | written
    · exact Or.inl (Or.inl old)
    · exact Or.inr behind
    · exact Or.inl (Or.inr written)

theorem Sound.copy (sound : Sound layout count store) {cell : Nat}
    (stepped : step layout count store (.copy cell) = some next) : Sound layout count next := by
  obtain ⟨job, isJob, rest⟩ := Option.bind_eq_some_iff.mp stepped
  obtain ⟨place, isPlace, last⟩ := Option.bind_eq_some_iff.mp rest
  obtain ⟨mapped, rfl⟩ := guarded_eq_some.mp last
  rw [decide_eq_true_eq] at mapped
  have member := List.mem_of_mem_head? isPlace
  have inside := sound.cells.inside isJob
  refine ⟨sound.listed, sound.cells.set rfl (Nat.le_refl _) ?_ inside,
    sound.files.set rfl rfl rfl (Nat.le_refl _) rfl ?_ ?_ (sound.files.blobs cell),
    sound.rebuilds.evolve (Evolves.of_setCell rfl (Nat.le_refl _) (Nat.le_refl _) rfl ?_
      fun place member => Or.inl member) rfl rfl rfl⟩
  · rintro _ ⟨⟩
    exact sound.cells.job cell job isJob
  · rintro _ ⟨⟩ other later
    exact sound.files.reserved cell job isJob other (List.mem_of_mem_tail later)
  · rintro _ ⟨⟩ other added
    rcases List.mem_append.mp added with old | new
    · exact sound.files.written cell job isJob other old
    · obtain rfl := List.mem_singleton.mp new
      exact sound.files.reserved cell job isJob other member mapped
  · rintro _ ⟨⟩
    refine Or.inl ⟨job, isJob, rfl, rfl, fun other added => Or.inl ?_⟩
    simp only [Job.places, List.mem_append, List.mem_singleton] at added ⊢
    rcases added with later | old | rfl
    · exact Or.inl (List.mem_of_mem_tail later)
    · exact Or.inr old
    · exact Or.inl member

theorem Sound.install (sound : Sound layout count store) {cell : Nat} {blobs : List WalPosition}
    (stepped : step layout count store (.install cell blobs) = some next) :
    Sound layout count next := by
  obtain ⟨job, isJob, rest⟩ := Option.bind_eq_some_iff.mp stepped
  obtain ⟨allowed, rfl⟩ := guarded_eq_some.mp rest
  rw [Bool.and_eq_true, List.all_eq_true] at allowed
  have known : ∀ place ∈ blobs, place ∈ (store.cells cell).blobs ∨ place ∈ job.written := by
    intro place member
    have listed := allowed.2 place member
    rw [List.contains_iff_mem] at listed
    exact List.mem_append.mp listed
  refine ⟨sound.listed, sound.cells.set rfl (Nat.le_refl _) nofun (sound.cells.inside isJob),
    sound.files.set rfl rfl rfl (Nat.le_refl _) rfl nofun nofun fun place member => ?_,
    sound.rebuilds.evolve (Evolves.of_setCell rfl (Nat.le_refl _) (Nat.le_refl _) rfl nofun
      fun place member => ?_) rfl rfl rfl⟩
  · exact (known place member).elim (sound.files.blobs cell place)
      (sound.files.written cell job isJob place)
  · exact (known place member).imp_right fun added =>
      ⟨job, isJob, List.mem_append_right _ added⟩

theorem Sound.drop (sound : Sound layout count store) {cell : Nat}
    (stepped : step layout count store (.drop cell) = some next) : Sound layout count next := by
  obtain ⟨_, rfl⟩ := guarded_eq_some.mp stepped
  refine ⟨sound.listed, ⟨fun other job isJob => ?_, fun other high => ?_⟩,
    sound.files.set rfl rfl rfl (Nat.le_refl _) rfl nofun nofun
      fun _ member => absurd member List.not_mem_nil,
    sound.rebuilds.evolve (Evolves.of_setCell rfl (Nat.le_refl _) (Nat.le_refl _) rfl nofun
      fun _ member => absurd member List.not_mem_nil) rfl rfl rfl⟩
  · rw [cells_setCell] at isJob
    split at isJob
    · cases isJob
    · exact sound.cells.job other job isJob
  · rw [cells_setCell]
    split
    · rfl
    · exact sound.cells.outside other high

/-! ## The mapper and the syncer -/

theorem of_makeMap {files mapped : List Nat} {map : Nat}
    (made : makeMap layout files map = some mapped) :
    (∀ file ∈ files, file ∈ mapped) ∧ layout.fileForMap map ∈ mapped := by
  unfold makeMap at made
  simp only at made
  split at made
  · split at made
    · cases made
      exact ⟨fun _ member => List.mem_cons_of_mem _ member, List.mem_cons_self⟩
    · cases made
  · split at made
    · rename_i present
      cases made
      exact ⟨fun _ member => member, by simpa using present⟩
    · cases made

theorem Sound.mapNext (sound : Sound layout count store)
    (stepped : step layout count store .mapNext = some next) : Sound layout count next := by
  obtain ⟨files, made, rest⟩ := Option.bind_eq_some_iff.mp stepped
  obtain ⟨_, rfl⟩ := guarded_eq_some.mp rest
  obtain ⟨kept, there⟩ := of_makeMap made
  refine ⟨sound.listed, ⟨sound.cells.job, sound.cells.outside⟩,
    { ahead := fun map low high => ?_
      reserved := fun cell job isJob place member mapped => ?_
      written := fun cell job isJob place member =>
        kept _ (sound.files.written cell job isJob place member)
      blobs := fun cell place member => kept _ (sound.files.blobs cell place member)
      region := fun place member => kept _ (sound.files.region place member) },
    sound.rebuilds.evolve (Evolves.of_cells rfl rfl rfl kept) rfl rfl rfl⟩
  · rcases Nat.lt_or_ge store.mapped map with new | old
    · obtain rfl : map = store.mapped + 1 := Nat.le_antisymm high new
      exact there
    · exact kept _ (sound.files.ahead map low old)
  · rcases Nat.lt_or_ge store.mapped (layout.locate place.offset) with new | old
    · rw [← layout.fileForMap_locate, Nat.le_antisymm mapped new]
      exact there
    · exact kept _ (sound.files.reserved cell job isJob place member old)

/-- A step that leaves cells, files and snapshots as they are. -/
theorem Sound.congr (sound : Sound layout count store) (cells : next.cells = store.cells)
    (nextJob : next.nextJob = store.nextJob) (position : next.position = store.position)
    (mapped : next.mapped = store.mapped) (files : next.files = store.files)
    (region : next.region = store.region)
    (active : ∀ rebuild phase, next.active = some (rebuild, phase) → phase.cells ≤ count)
    (rebuilds : RebuildsOk layout next) : Sound layout count next where
  listed := ⟨region ▸ sound.listed.region, active⟩
  cells := by
    constructor
    · rw [cells, nextJob]
      exact sound.cells.job
    · rw [cells]
      exact sound.cells.outside
  files := by
    constructor
    · rw [position, mapped, files]
      exact sound.files.ahead
    · rw [cells, mapped, files]
      exact sound.files.reserved
    · rw [cells, files]
      exact sound.files.written
    · rw [cells, files]
      exact sound.files.blobs
    · rw [region, files]
      exact sound.files.region
  rebuilds := rebuilds

/-- A step of the mapper, the syncer or the unlink worker that changes no file map. -/
theorem Sound.background (sound : Sound layout count store) (cells : next.cells = store.cells)
    (nextJob : next.nextJob = store.nextJob) (position : next.position = store.position)
    (mapped : next.mapped = store.mapped) (files : next.files = store.files)
    (region : next.region = store.region) (rebuilds : next.rebuilds = store.rebuilds)
    (active : next.active = store.active) : Sound layout count next :=
  sound.congr cells nextJob position mapped files region (active ▸ sound.listed.active)
    (sound.rebuilds.evolve
      (Evolves.of_cells cells position nextJob fun _ member => files.symm ▸ member)
      rebuilds active region)

/-! ## Snapshots taken -/

theorem Rebuild.Ok.congr {rebuild : Rebuild} (ok : rebuild.Ok store)
    (cells : next.cells = store.cells) (nextJob : next.nextJob = store.nextJob)
    (position : next.position = store.position) : rebuild.Ok next := by
  constructor
  · rw [position]
    exact ok.start_le
  · rw [nextJob]
    exact ok.first_le
  · rw [cells]
    exact ok.young
  · rw [cells]
    exact ok.waited

/-- A flush that the barrier waited for is complete. -/
theorem CellsOk.of_passesBarrier (ok : CellsOk count store) {queued : Nat}
    (passes : store.passesBarrier count queued = true) {cell : Nat} {job : Job}
    (isJob : (store.cells cell).job = some job) (async : job.sync = false) : queued ≤ job.id := by
  rw [Store.passesBarrier, Store.allJobs, List.all_eq_true] at passes
  have here := passes cell (List.mem_range.mpr (ok.inside isJob))
  rw [isJob, Option.all_some, async, Bool.false_or, decide_eq_true_eq] at here
  exact here

theorem Sound.beginRebuild (sound : Sound layout count store)
    (stepped : step layout count store .beginRebuild = some next) : Sound layout count next := by
  cases stepped
  refine sound.congr rfl rfl rfl rfl rfl rfl sound.listed.active
    ⟨fun rebuild member => ?_, fun rebuild phase isActive => ?_⟩
  · rcases List.mem_cons.mp member with rfl | old
    · refine ⟨Nat.le_refl _, Nat.le_refl _, fun cell job isJob late => ?_, nofun⟩
      exact absurd (sound.cells.job cell job isJob) (Nat.not_lt.mpr late)
    · exact (sound.rebuilds.waiting rebuild old).congr rfl rfl rfl
  · obtain ⟨ok, flushed, phaseOk⟩ := sound.rebuilds.active rebuild phase isActive
    exact ⟨ok.congr rfl rfl rfl, flushed,
      phaseOk.evolve ok (Evolves.of_cells rfl rfl rfl fun _ member => member) rfl⟩

theorem Sound.barrier (sound : Sound layout count store) {index queued : Nat}
    (stepped : step layout count store (.barrier index queued) = some next) :
    Sound layout count next := by
  obtain ⟨rebuild, found, rest⟩ := Option.bind_eq_some_iff.mp stepped
  obtain ⟨allowed, rfl⟩ := guarded_eq_some.mp rest
  simp only [Bool.and_eq_true, decide_eq_true_eq] at allowed
  have ok := sound.rebuilds.waiting rebuild (List.mem_of_getElem? found)
  refine sound.congr rfl rfl rfl rfl rfl rfl sound.listed.active
    ⟨fun other member => ?_, fun other phase isActive => ?_⟩
  · rcases List.mem_or_eq_of_mem_set member with old | rfl
    · exact (sound.rebuilds.waiting other old).congr rfl rfl rfl
    · exact ⟨ok.start_le, ok.first_le, ok.young, fun _ cell job isJob async =>
        allowed.1.1.trans (sound.cells.of_passesBarrier allowed.2 isJob async)⟩
  · obtain ⟨otherOk, flushed, phaseOk⟩ := sound.rebuilds.active other phase isActive
    exact ⟨otherOk.congr rfl rfl rfl, flushed,
      phaseOk.evolve otherOk (Evolves.of_cells rfl rfl rfl fun _ member => member) rfl⟩

theorem Sound.lock (sound : Sound layout count store) {index : Nat}
    (stepped : step layout count store (.lock index) = some next) : Sound layout count next := by
  obtain ⟨rebuild, found, rest⟩ := Option.bind_eq_some_iff.mp stepped
  obtain ⟨allowed, rfl⟩ := guarded_eq_some.mp rest
  rw [Bool.and_eq_true] at allowed
  refine sound.congr rfl rfl rfl rfl rfl rfl (fun _ _ isActive => by cases isActive; exact Nat.zero_le _)
    ⟨fun other member => ?_, fun other phase isActive => ?_⟩
  · exact (sound.rebuilds.waiting other (List.mem_of_mem_eraseIdx member)).congr rfl rfl rfl
  · cases isActive
    exact ⟨(sound.rebuilds.waiting _ (List.mem_of_getElem? found)).congr rfl rfl rfl, allowed.1,
      trivial⟩

/-- The snapshot that holds the lock goes on. -/
theorem RebuildsOk.advance (ok : RebuildsOk layout store) {rebuild : Rebuild} {phase : Phase}
    (cells : next.cells = store.cells) (nextJob : next.nextJob = store.nextJob)
    (position : next.position = store.position) (rebuilds : next.rebuilds = store.rebuilds)
    (active : next.active = some (rebuild, phase)) (flushed : rebuild.flushed = true)
    (rebuildOk : rebuild.Ok store) (phaseOk : PhaseOk layout next rebuild phase) :
    RebuildsOk layout next where
  waiting := by
    rw [rebuilds]
    exact fun other member => (ok.waiting other member).congr cells nextJob position
  active := by
    intro other found isActive
    rw [active] at isActive
    cases isActive
    exact ⟨rebuildOk.congr cells nextJob position, flushed, phaseOk⟩

theorem Sound.startReading (sound : Sound layout count store) {queued : Option Nat}
    (stepped : step layout count store (.startReading queued) = some next) :
    Sound layout count next := by
  simp only [step] at stepped
  split at stepped
  · rename_i rebuild isActive
    obtain ⟨_, rfl⟩ := guarded_eq_some.mp stepped
    obtain ⟨ok, flushed, _⟩ := sound.rebuilds.active _ _ isActive
    exact sound.congr rfl rfl rfl rfl rfl rfl
      (fun _ _ isActive => by cases isActive; exact Nat.zero_le _)
      (sound.rebuilds.advance rfl rfl rfl rfl rfl flushed ok ⟨fun _ low => absurd low (Nat.not_lt_zero _),
        fun _ member => absurd member List.not_mem_nil⟩)
  · cases stepped

theorem Sound.readCell (sound : Sound layout count store)
    (stepped : step layout count store .readCell = some next) : Sound layout count next := by
  simp only [step] at stepped
  split at stepped
  · rename_i rebuild data isActive
    obtain ⟨allowed, rfl⟩ := guarded_eq_some.mp stepped
    rw [Bool.and_eq_true] at allowed
    obtain ⟨ok, flushed, seen, present⟩ := sound.rebuilds.active _ _ isActive
    refine sound.congr rfl rfl rfl rfl rfl rfl (fun _ _ isActive => ?_)
      (sound.rebuilds.advance rfl rfl rfl rfl rfl flushed ok ⟨fun cell low => ?_, fun place member => ?_⟩)
    · cases isActive
      rw [Phase.cells, List.length_append]
      exact of_decide_eq_true allowed.1
    · rw [List.length_append, List.length_singleton] at low
      rcases Nat.lt_or_ge cell data.length with before | here
      · refine ⟨fun place member front => ?_, (seen cell before).job⟩
        rw [List.flatten_append]
        exact List.mem_append_left _ ((seen cell before).blobs place member front)
      · obtain rfl : cell = data.length := by omega
        refine ⟨fun place member _ => ?_, fun job isJob => ?_⟩
        · rw [List.flatten_append]
          exact List.mem_append_right _ (by simpa using member)
        · have async : job.sync = false := by
            have notLocked := allowed.2
            rw [isJob] at notLocked
            simpa using notLocked
          exact ok.waited flushed _ job isJob async
    · rw [List.flatten_append] at member
      rcases List.mem_append.mp member with old | new
      · exact present place old
      · exact sound.files.blobs data.length place (by simpa using new)
  · cases stepped

/-- What a snapshot deletes holds none of its blobs and lies in front of its start. -/
theorem of_mem_filesToDelete {files : List Nat} {start : Nat} {data : List (List WalPosition)}
    {file : Nat} (member : file ∈ filesToDelete layout files start data) :
    file < layout.locateFile start ∧
      ∀ place ∈ data.flatten, layout.locateFile place.offset ≠ file := by
  unfold filesToDelete at member
  simp only at member
  split at member
  · obtain ⟨_, chosen⟩ := List.mem_filter.mp member
    simp only [Bool.and_eq_true, decide_eq_true_eq, Bool.not_eq_true', Bool.eq_false_iff, ne_eq,
      List.contains_iff_mem] at chosen
    refine ⟨by omega, fun place inside same => chosen.2 ?_⟩
    rw [← same]
    exact List.mem_map.mpr ⟨place, inside, rfl⟩
  · cases member

theorem Sound.decide (sound : Sound layout count store)
    (stepped : step layout count store .decide = some next) : Sound layout count next := by
  simp only [step] at stepped
  split at stepped
  · rename_i rebuild data isActive
    obtain ⟨allowed, rfl⟩ := guarded_eq_some.mp stepped
    rw [decide_eq_true_eq] at allowed
    obtain ⟨ok, flushed, seen, present⟩ := sound.rebuilds.active _ _ isActive
    refine sound.congr rfl rfl rfl rfl rfl rfl
      (fun _ _ isActive => by cases isActive; exact Nat.le_of_eq allowed)
      (sound.rebuilds.advance rfl rfl rfl rfl rfl flushed ok
      ⟨⟨fun file member => (of_mem_filesToDelete member).1, fun file member cell place held same => ?_,
        fun cell job isJob => ?_⟩, fun place member => ⟨present place member, fun doomed => ?_⟩⟩)
    · obtain ⟨front, unused⟩ := of_mem_filesToDelete member
      have inside : cell < data.length := by
        by_contra outside
        have nothing := sound.cells.outside cell (by omega)
        rw [show store.cells cell = ⟨[], none⟩ from nothing] at held
        cases held
      refine unused place ((seen cell inside).blobs place held ?_) same
      by_contra behind
      have ordered : layout.locateFile rebuild.preSnapshotIndexPos ≤ layout.locateFile place.offset :=
        Nat.div_le_div_right (Nat.le_of_not_lt behind)
      omega
    · exact (seen cell (allowed ▸ sound.cells.inside isJob)).job job isJob
    · exact (of_mem_filesToDelete doomed).2 place member rfl
  · cases stepped

theorem Sound.fsync (sound : Sound layout count store)
    (stepped : step layout count store .fsync = some next) : Sound layout count next := by
  simp only [step] at stepped
  split at stepped
  · rename_i rebuild data toDelete isActive
    cases stepped
    obtain ⟨ok, flushed, doomed, present⟩ := sound.rebuilds.active _ _ isActive
    have listed := sound.listed.active _ _ isActive
    exact sound.congr rfl rfl rfl rfl rfl rfl (fun _ _ isActive => by cases isActive; exact listed)
      (sound.rebuilds.advance rfl rfl rfl rfl rfl flushed ok
        ⟨doomed.evolve ok (Evolves.of_cells rfl rfl rfl fun _ member => member), present⟩)
  · cases stepped

theorem Sound.storeRegion (sound : Sound layout count store)
    (stepped : step layout count store .store = some next) : Sound layout count next := by
  simp only [step] at stepped
  split at stepped
  · rename_i rebuild data toDelete isActive
    cases stepped
    obtain ⟨ok, flushed, doomed, present⟩ := sound.rebuilds.active _ _ isActive
    refine ⟨⟨sound.listed.active _ _ isActive,
        fun _ _ isActive => by cases isActive; exact Nat.zero_le _⟩,
      ⟨sound.cells.job, sound.cells.outside⟩,
      ⟨sound.files.ahead, sound.files.reserved, sound.files.written, sound.files.blobs,
        fun place member => (present place member).1⟩,
      sound.rebuilds.advance rfl rfl rfl rfl rfl flushed ok
        ⟨doomed.evolve ok (Evolves.of_cells rfl rfl rfl fun _ member => member),
          fun place member => (present place member).2⟩⟩
  · cases stepped

/-- The files that a step may take away: those of a stored snapshot, and none of them is
needed. -/
theorem Sound.needed (sound : Sound layout count store) {rebuild : Rebuild} {toDelete : List Nat}
    (isActive : store.active = some (rebuild, .stored toDelete)) {file : Nat}
    (member : file ∈ toDelete) :
    (∀ cell, ∀ place ∈ (store.cells cell).blobs, layout.locateFile place.offset ≠ file) ∧
      (∀ cell job, (store.cells cell).job = some job → ∀ place ∈ job.places,
        layout.locateFile place.offset ≠ file) ∧
      (∀ place ∈ store.region.data.flatten, layout.locateFile place.offset ≠ file) ∧
      ∀ map, layout.locate store.position ≤ map → layout.fileForMap map ≠ file := by
  obtain ⟨ok, _, doomed, unlisted⟩ := sound.rebuilds.active _ _ isActive
  refine ⟨doomed.blobs file member, fun cell job isJob place added =>
    doomed.ne_of_place ok member isJob added, fun place listed same =>
    unlisted place listed (same ▸ member), fun map low => ?_⟩
  have here := doomed.ne_of_le member ok.start_le
  have front := doomed.front file member
  have ordered := layout.fileForMap_mono low
  rw [layout.fileForMap_locate] at ordered
  have start : layout.locateFile rebuild.preSnapshotIndexPos ≤ layout.locateFile store.position :=
    Nat.div_le_div_right ok.start_le
  omega

theorem Sound.delete (sound : Sound layout count store)
    (stepped : step layout count store .delete = some next) : Sound layout count next := by
  simp only [step] at stepped
  split at stepped
  · rename_i rebuild toDelete isActive
    cases stepped
    have kept : ∀ {file : Nat}, file ∈ store.files → file ∉ toDelete →
        file ∈ store.files.filter fun file => !(toDelete.filter fun file =>
          store.files.contains file && !(mappedFiles layout store).contains file).contains file := by
      intro file member spared
      refine List.mem_filter.mpr ⟨member, ?_⟩
      rw [Bool.not_eq_true', Bool.eq_false_iff, ne_eq, List.contains_iff_mem]
      exact fun chosen => spared (List.mem_filter.mp chosen).1
    refine ⟨⟨sound.listed.region, by rintro _ _ ⟨⟩⟩, ⟨sound.cells.job, sound.cells.outside⟩,
      { ahead := fun map low high => kept (sound.files.ahead map low high) fun member =>
          (sound.needed isActive member).2.2.2 map low rfl
        reserved := fun cell job isJob place inside mapped =>
          kept (sound.files.reserved cell job isJob place inside mapped) fun member =>
            (sound.needed isActive member).2.1 cell job isJob place
              (List.mem_append_left _ inside) rfl
        written := fun cell job isJob place inside =>
          kept (sound.files.written cell job isJob place inside) fun member =>
            (sound.needed isActive member).2.1 cell job isJob place
              (List.mem_append_right _ inside) rfl
        blobs := fun cell place inside => kept (sound.files.blobs cell place inside) fun member =>
          (sound.needed isActive member).1 cell place inside rfl
        region := fun place inside => kept (sound.files.region place inside) fun member =>
          (sound.needed isActive member).2.2.1 place inside rfl },
      ⟨fun other member => (sound.rebuilds.waiting other member).congr rfl rfl rfl,
        by rintro _ _ ⟨⟩⟩⟩
  · cases stepped

theorem mem_flatten_of_mem_getD {data : List (List WalPosition)} {cell : Nat} {place : WalPosition}
    (member : place ∈ data.getD cell []) : place ∈ data.flatten := by
  rw [List.getD_eq_getElem?_getD] at member
  cases found : data[cell]? with
  | none =>
      rw [found] at member
      cases member
  | some blobs =>
      rw [found] at member
      exact List.mem_flatten.mpr ⟨blobs, List.mem_of_getElem? found, member⟩

theorem Sound.crash (sound : Sound layout count store) {dropped : List Nat}
    (stepped : step layout count store (.crash dropped) = some next) : Sound layout count next := by
  obtain ⟨opened, rfl⟩ := guarded_eq_some.mp stepped
  rw [List.contains_iff_mem] at opened
  have present : ∀ place ∈ store.region.data.flatten,
      layout.locateFile place.offset ∈ store.files ++ store.removed := fun place member =>
    List.mem_append_left _ (sound.files.region place member)
  refine ⟨⟨sound.listed.region, nofun⟩, ⟨nofun, fun cell high => ?_⟩,
    { ahead := fun map low high => ?_
      reserved := nofun
      written := nofun
      blobs := fun cell place member => ?_
      region := present },
    ⟨fun _ member => absurd member List.not_mem_nil, nofun⟩⟩
  · have beyond : store.region.data.getD cell [] = [] := by
      rw [List.getD_eq_getElem?_getD, List.getElem?_eq_none (sound.listed.region.trans high)]
      rfl
    simp only [beyond, ite_self]
  · obtain rfl := Nat.le_antisymm high low
    rw [layout.fileForMap_locate]
    exact opened
  · have inside : place ∈ if dropped.contains cell then [] else store.region.data.getD cell [] :=
      member
    split at inside
    · cases inside
    · exact present place (mem_flatten_of_mem_getD inside)

/-! ## Runs -/

theorem Sound.step (sound : Sound layout count store) {event : Event}
    (stepped : step layout count store event = some next) : Sound layout count next := by
  cases event with
  | request cell sync => exact sound.request stepped
  | allocate cell len => exact sound.allocate stepped
  | copy cell => exact sound.copy stepped
  | install cell blobs => exact sound.install stepped
  | drop cell => exact sound.drop stepped
  | mapNext => exact sound.mapNext stepped
  | finalize =>
      obtain ⟨_, rfl⟩ := guarded_eq_some.mp stepped
      exact sound.background rfl rfl rfl rfl rfl rfl rfl rfl
  | syncFragment fragment =>
      obtain ⟨_, rfl⟩ := guarded_eq_some.mp stepped
      exact sound.background rfl rfl rfl rfl rfl rfl rfl rfl
  | beginRebuild => exact sound.beginRebuild stepped
  | barrier index queued => exact sound.barrier stepped
  | lock index => exact sound.lock stepped
  | startReading queued => exact sound.startReading stepped
  | readCell => exact sound.readCell stepped
  | decide => exact sound.decide stepped
  | fsync => exact sound.fsync stepped
  | store => exact sound.storeRegion stepped
  | delete => exact sound.delete stepped
  | unlink file =>
      cases stepped
      exact sound.background rfl rfl rfl rfl rfl rfl rfl rfl
  | crash dropped => exact sound.crash stepped

/-- A blob that the levels of a cell, a flush under way or the control region needs. -/
def Needed (store : Store) (place : WalPosition) : Prop :=
  (∃ cell, place ∈ (store.cells cell).blobs) ∨
    (∃ cell job, (store.cells cell).job = some job ∧ place ∈ job.places) ∨
    place ∈ store.region.data.flatten

/-- Only the deletion of a snapshot takes files away. -/
theorem files_step {event : Event} (stepped : step layout count store event = some next)
    {file : Nat} (member : file ∈ store.files) (gone : file ∉ next.files) :
    ∃ rebuild toDelete, store.active = some (rebuild, .stored toDelete) ∧ file ∈ toDelete := by
  cases stepped_of_step stepped with
  | mapNext made _ => exact absurd ((of_makeMap made).1 file member) gone
  | @delete rebuild toDelete actual isActive chosen =>
      refine ⟨rebuild, toDelete, isActive, ?_⟩
      by_contra spared
      refine gone (List.mem_filter.mpr ⟨member, ?_⟩)
      rw [Bool.not_eq_true', Bool.eq_false_iff, ne_eq, List.contains_iff_mem, chosen]
      exact fun chosen => spared (List.mem_filter.mp chosen).1
  | crash reopened =>
      obtain ⟨_, rfl⟩ := guarded_eq_some.mp reopened
      exact absurd (List.mem_append_left _ member) gone
  | _ => exact absurd member gone

/-- In every run of flushes, snapshots and crashes, the file of every blob that is on disk
and needed is there, and a step that takes a file away takes one without a needed blob. -/
theorem index_files_kept (layout : WalLayout) (count : Nat) {events : List Event} {store : Store}
    (ran : runEvents (step layout count) events Store.new = some store) :
    ((∀ cell, ∀ place ∈ (store.cells cell).blobs, layout.locateFile place.offset ∈ store.files) ∧
      (∀ cell job, (store.cells cell).job = some job → ∀ place ∈ job.written,
        layout.locateFile place.offset ∈ store.files) ∧
      ∀ place ∈ store.region.data.flatten, layout.locateFile place.offset ∈ store.files) ∧
    ∀ event next, step layout count store event = some next → ∀ file ∈ store.files,
      file ∉ next.files → ∀ place, Needed store place → layout.locateFile place.offset ≠ file := by
  have sound : Sound layout count store :=
    runEvents_preserves (fun held => held.step) (sound_new layout count) ran
  refine ⟨⟨sound.files.blobs, sound.files.written, sound.files.region⟩,
    fun event next stepped file member gone place needed => ?_⟩
  obtain ⟨rebuild, toDelete, isActive, doomed⟩ := files_step stepped member gone
  obtain ⟨blobs, jobs, region, _⟩ := sound.needed isActive doomed
  rcases needed with ⟨cell, held⟩ | ⟨cell, job, isJob, added⟩ | listed
  · exact blobs cell place held
  · exact jobs cell job isJob place added
  · exact region place listed

/-- A flush that fills a fragment of the small layout and leaves its blob alone in its cell. -/
def flushTo (cell offset : Nat) : List Event :=
  [.request cell false, .allocate cell 54, .copy cell, .install cell [⟨offset, 64⟩]]

/-- A snapshot of some cells that no other thread interrupts. -/
def snapshotOf (count queued : Nat) : List Event :=
  [.beginRebuild, .barrier 0 queued, .lock 0, .startReading none] ++
    List.replicate count .readCell ++ [.decide, .fsync, .store, .delete]

theorem index_files_kept_past_deletion :
    ∃ store, runEvents (step .small 1) (flushTo 0 0 ++ [.mapNext] ++ flushTo 0 64 ++
        [.mapNext, .finalize] ++ snapshotOf 1 2 ++ [.unlink 0, .crash []]) Store.new = some store ∧
      store.files = [2, 1] ∧
      ((∀ cell, ∀ place ∈ (store.cells cell).blobs,
          WalLayout.small.locateFile place.offset ∈ store.files) ∧
        (∀ cell job, (store.cells cell).job = some job → ∀ place ∈ job.written,
          WalLayout.small.locateFile place.offset ∈ store.files) ∧
        ∀ place ∈ store.region.data.flatten,
          WalLayout.small.locateFile place.offset ∈ store.files) ∧
      ∀ event next, step .small 1 store event = some next → ∀ file ∈ store.files,
        file ∉ next.files → ∀ place, Needed store place →
          WalLayout.small.locateFile place.offset ≠ file := by
  have reached : (runEvents (step .small 1) (flushTo 0 0 ++ [.mapNext] ++ flushTo 0 64 ++
      [.mapNext, .finalize] ++ snapshotOf 1 2 ++ [.unlink 0, .crash []]) Store.new).any (fun store =>
        decide (store.files = [2, 1])) = true := by
    decide +kernel
  obtain ⟨store, ran, files⟩ := (Option.any_eq_true _ _).mp reached
  exact ⟨store, ran, of_decide_eq_true files, index_files_kept .small 1 ran⟩

/-! ## Flush commands -/

section Commands

open Flusher Index

variable {K : Type} [LinearOrder K]

/-- The positions of the blobs of some levels. -/
def positionsOf (levels : IndexLevels K) : List WalPosition :=
  levels.blobs.map Blob.position

/-- The first flush of a cell, of a blob that fills a fragment. -/
def firstFlush (view : LogView) : Option (IndexTable Nat × IndexLevels Nat) :=
  (handleCommand ⟨4, none, fun _ => 54, none, false⟩ view ⟨.small, 0⟩
    (.flush IndexTable.empty IndexLevels.new true []) .none).2

end Commands

end Tidehunter.Snapshot
