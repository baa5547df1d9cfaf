import Tidehunter.Snapshot.Reopen

/-!
# Losing power after a snapshot

Bytes survive a power loss once the file they are in was synced after they were written; a
rename may survive anyway. A snapshot syncs the highest index file and renames a new
control region over the old one without syncing it. Blobs in other index files are synced
by another thread, after their fragment was closed.
-/

namespace Tidehunter.Snapshot

open Library Wal Flusher

variable {layout : WalLayout} {count : Nat} {store next : Store}

/-- The control region on disk is whole after a power loss, and so are the blobs it lists. -/
def StoredRegion.Durable (region : StoredRegion) : Prop :=
  region.synced = true ∧ region.unsynced = []

def Event.stores : Event → Bool
  | .store => true
  | _ => false

/-- The cells a snapshot has decided to store. -/
def Phase.syncs : Phase → Option (List (List WalPosition))
  | .decided data _ => some data
  | _ => none

/-- When a snapshot syncs the highest index file, the listed blobs in other files are
synced. -/
def fsyncCovers (layout : WalLayout) (store : Store) : Event → Bool
  | .fsync => store.active.all fun active => active.2.syncs.all fun data =>
      data.flatten.all fun place => !store.unsynced.contains place ||
        decide (layout.locateFile place.offset = currentFileId store.files)
  | _ => true

/-! ## The control region -/

/-- Only storing a snapshot changes the control region. -/
theorem region_step {event : Event} (stepped : step layout count store event = some next) :
    event.stores = false ∧ next.region = store.region ∨
      event.stores = true ∧ next.region.synced = false := by
  cases stepped_of_step stepped with
  | store active => exact Or.inr ⟨rfl, rfl⟩
  | crash reopened =>
      obtain ⟨_, rfl⟩ := guarded_eq_some.mp reopened
      exact Or.inl ⟨rfl, rfl⟩
  | _ => exact Or.inl ⟨rfl, rfl⟩

/-- The control region of a run is the one it started from until a snapshot is stored;
from then on it is one that was not synced. -/
theorem region_run {events : List Event}
    (ran : runEvents (step layout count) events store = some next) :
    (∀ event ∈ events, event.stores = false) ∧ next.region = store.region ∨
      (∃ event ∈ events, event.stores = true) ∧ next.region.synced = false := by
  induction events generalizing store with
  | nil =>
      cases ran
      exact Or.inl ⟨fun _ member => absurd member List.not_mem_nil, rfl⟩
  | cons event rest ih =>
      obtain ⟨middle, stepped, tail⟩ := Option.bind_eq_some_iff.mp ran
      rw [List.forall_mem_cons, List.exists_mem_cons_iff]
      rcases ih tail with ⟨later, same⟩ | ⟨stored, lost⟩
      · rw [same]
        rcases region_step stepped with ⟨first, kept⟩ | ⟨first, lost⟩
        · exact Or.inl ⟨⟨first, later⟩, kept⟩
        · exact Or.inr ⟨Or.inl first, lost⟩
      · exact Or.inr ⟨Or.inr stored, lost⟩

/-! ## Blobs are written once -/

/-- The cells a snapshot has read. -/
def Phase.data : Phase → List (List WalPosition)
  | .relocating => []
  | .reading data => data
  | .decided data _ => data
  | .synced data _ => data
  | .stored _ => []

/-- The places the flush of a cell has not written yet. -/
def Cell.reserved (cell : Cell) : List WalPosition := cell.job.elim [] Job.reserved

/-- The blobs of a cell and those its flush has written. -/
def Cell.written (cell : Cell) : List WalPosition := cell.blobs ++ cell.job.elim [] Job.written

/-- A written blob that a cell, a flush or a snapshot knows. -/
def Written (store : Store) (place : WalPosition) : Prop :=
  (∃ cell, place ∈ (store.cells cell).written) ∨
    ∃ rebuild phase, store.active = some (rebuild, phase) ∧ place ∈ phase.data.flatten

/-- A place in the used part of the index log. -/
def Used (store : Store) (place : WalPosition) : Prop := 0 < place.len ∧ place.offset < store.position

/-- Blobs are written once, and those a snapshot stores are synced. -/
structure Separate (store : Store) : Prop where
  written : ∀ place, Written store place → Used store place
  reserved : ∀ cell, ∀ place ∈ (store.cells cell).reserved,
    Used store place ∧ ¬ Written store place
  nodup : ∀ cell, (store.cells cell).reserved.Nodup
  apart : ∀ cell other, cell ≠ other → ∀ place ∈ (store.cells cell).reserved,
    place ∉ (store.cells other).reserved
  region : ∀ place ∈ store.region.data.flatten, 0 < place.len
  synced : ∀ rebuild data toDelete, store.active = some (rebuild, .synced data toDelete) →
    ∀ place ∈ data.flatten, place ∉ store.unsynced
  stored : store.region.unsynced = []

/-- What a step of a flush does to its cell: it takes fresh places and writes to places it
has taken. -/
structure Advances (store : Store) (cell : Nat) (content : Cell) (ending : Nat) : Prop where
  position : store.position ≤ ending
  written : ∀ place ∈ content.written, place ∈ (store.cells cell).written ∨
    place ∈ (store.cells cell).reserved ∧ place ∉ content.reserved
  reserved : ∀ place ∈ content.reserved, place ∈ (store.cells cell).reserved ∨
    0 < place.len ∧ store.position ≤ place.offset ∧ place.offset < ending
  nodup : content.reserved.Nodup

namespace Separate

theorem new : Separate Store.new where
  written := by
    rintro place (⟨cell, member⟩ | ⟨rebuild, phase, isActive, _⟩)
    · cases member
    · cases isActive
  reserved := fun _ _ member => absurd member List.not_mem_nil
  nodup := fun _ => List.nodup_nil
  apart := fun _ _ _ _ _ => List.not_mem_nil
  region := fun _ member => absurd member List.not_mem_nil
  synced := nofun
  stored := rfl

theorem advance (held : Separate store) {cell position nextJob : Nat} {content : Cell}
    {unsynced : List WalPosition} (advances : Advances store cell content position)
    (marked : ∀ place ∈ unsynced, place ∈ store.unsynced ∨ place ∈ (store.cells cell).reserved) :
    Separate { store.setCell cell content with
      position := position
      nextJob := nextJob
      unsynced := unsynced } := by
  have cells := cells_setCell store cell content
  have used : ∀ place, Used store place → 0 < place.len ∧ place.offset < position :=
    fun place old => ⟨old.1, old.2.trans_le advances.position⟩
  have unused : ∀ place, store.position ≤ place.offset → ¬ Used store place :=
    fun place behind old => absurd old.2 (Nat.not_lt.mpr behind)
  have known : ∀ place, (∃ other, place ∈ ((store.setCell cell content).cells other).written) ∨
      (∃ rebuild phase, store.active = some (rebuild, phase) ∧ place ∈ phase.data.flatten) →
        Written store place ∨ place ∈ (store.cells cell).reserved ∧ place ∉ content.reserved := by
    rintro place (⟨other, member⟩ | read)
    · rw [cells] at member
      split at member
      · exact (advances.written place member).imp_left fun old => Or.inl ⟨cell, old⟩
      · exact Or.inl (Or.inl ⟨other, member⟩)
    · exact Or.inl (Or.inr read)
  refine ⟨fun place new => ?_, fun other place member => ?_, fun other => ?_,
    fun first second distinct place inFirst inSecond => ?_, held.region,
    fun rebuild data toDelete isActive place listed mark => ?_, held.stored⟩
  · rcases known place new with old | ⟨taken, _⟩
    · exact used place (held.written place old)
    · exact used place (held.reserved cell place taken).1
  · have here : place ∈ ((store.setCell cell content).cells other).reserved := member
    rw [cells] at here
    split at here
    · rcases advances.reserved place here with old | ⟨positive, behind, bound⟩
      · obtain ⟨isUsed, fresh⟩ := held.reserved cell place old
        exact ⟨used place isUsed, fun new => (known place new).elim fresh fun taken => taken.2 here⟩
      · refine ⟨⟨positive, bound⟩, fun new => unused place behind ?_⟩
        rcases known place new with old | ⟨taken, _⟩
        · exact held.written place old
        · exact (held.reserved cell place taken).1
    · rename_i distinct
      obtain ⟨isUsed, fresh⟩ := held.reserved other place here
      exact ⟨used place isUsed, fun new => (known place new).elim fresh fun taken =>
        held.apart other cell distinct place here taken.1⟩
  · have nodup : ((store.setCell cell content).cells other).reserved.Nodup := by
      rw [cells]
      split
      · exact advances.nodup
      · exact held.nodup other
    exact nodup
  · -- a fresh place is behind every place that is taken
    have early : place ∈ ((store.setCell cell content).cells first).reserved := inFirst
    have late : place ∈ ((store.setCell cell content).cells second).reserved := inSecond
    rw [cells] at early late
    split at early <;> split at late
    · rename_i isFirst isSecond
      exact distinct (isFirst.trans isSecond.symm)
    · rename_i isFirst isOther
      rcases advances.reserved place early with old | ⟨_, behind, _⟩
      · exact held.apart cell second (Ne.symm isOther) place old late
      · exact unused place behind (held.reserved second place late).1
    · rename_i isOther isSecond
      rcases advances.reserved place late with old | ⟨_, behind, _⟩
      · exact held.apart first cell isOther place early old
      · exact unused place behind (held.reserved first place early).1
    · exact held.apart first second distinct place early late
  · rcases marked place mark with old | taken
    · exact held.synced rebuild data toDelete isActive place listed old
    · exact (held.reserved cell place taken).2 (Or.inr ⟨rebuild, _, isActive, listed⟩)

/-- A step of the snapshot, or a sync. -/
theorem of_active (held : Separate store) {rebuilds : List Rebuild} {unsynced : List WalPosition}
    {active : Option (Rebuild × Phase)}
    (read : ∀ rebuild phase, active = some (rebuild, phase) → ∀ place ∈ phase.data.flatten,
      Written store place)
    (synced : ∀ rebuild data toDelete, active = some (rebuild, .synced data toDelete) →
      ∀ place ∈ data.flatten, place ∉ unsynced) :
    Separate { store with
      rebuilds := rebuilds
      unsynced := unsynced
      active := active } := by
  have fewer : ∀ place, Written { store with
      rebuilds := rebuilds
      unsynced := unsynced
      active := active } place → Written store place := by
    rintro place (held | ⟨rebuild, phase, isActive, listed⟩)
    · exact Or.inl held
    · exact read rebuild phase isActive place listed
  refine ⟨fun place known => held.written place (fewer place known), fun cell place taken => ?_,
    held.nodup, held.apart, held.region, synced, held.stored⟩
  obtain ⟨used, fresh⟩ := held.reserved cell place taken
  exact ⟨used, fun known => fresh (fewer place known)⟩

theorem reopen (held : Separate store) {dropped : List Nat}
    (reopened : store.reopen layout dropped = some next) : Separate next := by
  obtain ⟨_, rfl⟩ := guarded_eq_some.mp reopened
  refine ⟨?_, fun _ _ member => absurd member List.not_mem_nil, fun _ => List.nodup_nil,
    fun _ _ _ _ _ => List.not_mem_nil, held.region, nofun, held.stored⟩
  rintro place (⟨cell, member⟩ | ⟨rebuild, phase, isActive, _⟩)
  · have listed : place ∈ store.region.data.flatten := by
      simp only [Cell.written, Option.elim_none, List.append_nil] at member
      split at member
      · cases member
      · exact mem_flatten_of_mem_getD member
    obtain ⟨last, among, start, bound⟩ := @writerStart_spec layout _ _ listed
    refine ⟨held.region place listed, ?_⟩
    have positive := (held.region last among).trans_le (layout.le_align last.len)
    exact start ▸ bound.trans_lt (Nat.lt_add_of_pos_right positive)
  · cases isActive

theorem step (held : Separate store) {event : Event}
    (covers : fsyncCovers layout store event = true)
    (stepped : step layout count store event = some next) : Separate next := by
  cases stepped_of_step stepped with
  | @request cell sync inside idle =>
      refine held.advance ⟨Nat.le_refl _, fun place member => Or.inl ?_,
        fun _ member => absurd member List.not_mem_nil, List.nodup_nil⟩ fun _ => Or.inl
      simpa only [Cell.written, idle, Option.elim_none, Option.elim_some] using member
  | @allocate cell len job result isJob allocated =>
      obtain ⟨_, behind, aligned⟩ := WalLayout.allocate_spec allocated
      have bound : result.allocatedPosition < result.nextPosition := by
        rw [AllocationResult.nextPosition, aligned]
        exact Nat.lt_add_of_pos_right ((Nat.succ_pos _).trans_le (layout.le_align _))
      have old : (store.cells cell).reserved = job.reserved := by rw [Cell.reserved, isJob]; rfl
      refine held.advance ⟨behind.trans (Nat.le_of_lt bound), fun place member => Or.inl ?_,
        fun place member => ?_, ?_⟩ fun _ => Or.inl
      · simpa only [Cell.written, isJob, Option.elim_some] using member
      · rw [old]
        refine (List.mem_append.mp member).imp_right fun isNew => ?_
        obtain rfl := List.mem_singleton.mp isNew
        exact ⟨Nat.succ_pos _, behind, bound⟩
      · refine List.nodup_append.mpr ⟨old ▸ held.nodup cell, List.pairwise_singleton _ _, ?_⟩
        rintro place taken other isNew rfl
        obtain rfl := List.mem_singleton.mp isNew
        exact absurd (held.reserved cell _ (old ▸ taken)).1.2 (Nat.not_lt.mpr behind)
  | @copy cell job place rest isJob reserved isMapped =>
      have old : (store.cells cell).reserved = place :: rest := by
        rw [Cell.reserved, isJob]
        exact reserved
      have nodup := List.nodup_cons.mp (old ▸ held.nodup cell)
      refine held.advance ⟨Nat.le_refl _, fun other member => ?_, fun other member => Or.inl ?_,
        nodup.2⟩ fun other mark => ?_
      · simp only [Cell.written, isJob, Option.elim_some, List.mem_append,
          List.mem_singleton] at member ⊢
        rcases member with held | written | rfl
        · exact Or.inl (Or.inl held)
        · exact Or.inl (Or.inr written)
        · exact Or.inr ⟨old ▸ List.mem_cons_self, nodup.1⟩
      · exact old ▸ List.mem_cons_of_mem _ member
      · rcases List.mem_cons.mp mark with rfl | earlier
        · exact Or.inr (old ▸ List.mem_cons_self)
        · exact Or.inl earlier
  | @install cell blobs job isJob written known =>
      refine held.advance ⟨Nat.le_refl _, fun place member => Or.inl ?_,
        fun _ member => absurd member List.not_mem_nil, List.nodup_nil⟩ fun _ => Or.inl
      simp only [Cell.written, isJob, Option.elim_none, Option.elim_some, List.append_nil,
        List.mem_append] at member ⊢
      exact known place member
  | drop idle =>
      exact held.advance ⟨Nat.le_refl _, fun _ member => absurd member List.not_mem_nil,
        fun _ member => absurd member List.not_mem_nil, List.nodup_nil⟩ fun _ => Or.inl
  | syncFragment closed =>
      exact held.of_active (fun rebuild phase isActive place listed =>
          Or.inr ⟨rebuild, phase, isActive, listed⟩)
        fun rebuild data toDelete isActive place listed marked =>
          held.synced rebuild data toDelete isActive place listed (List.mem_filter.mp marked).1
  | lock found flushed free =>
      refine held.of_active ?_ (by rintro _ _ _ ⟨⟩)
      rintro _ _ ⟨⟩ _ listed
      cases listed
  | startReading active =>
      refine held.of_active ?_ (by rintro _ _ _ ⟨⟩)
      rintro _ _ ⟨⟩ _ listed
      cases listed
  | @readCell rebuild data active more unlocked =>
      refine held.of_active ?_ (by rintro _ _ _ ⟨⟩)
      rintro _ _ ⟨⟩ place listed
      rw [Phase.data, List.flatten_append, List.mem_append] at listed
      rcases listed with earlier | here
      · exact Or.inr ⟨rebuild, _, active, earlier⟩
      · rw [List.flatten_singleton] at here
        exact Or.inl ⟨_, List.mem_append_left _ here⟩
  | @decide rebuild data active all =>
      refine held.of_active ?_ (by rintro _ _ _ ⟨⟩)
      rintro _ _ ⟨⟩ place listed
      exact Or.inr ⟨rebuild, _, active, listed⟩
  | @fsync rebuild data toDelete active =>
      refine held.of_active ?_ ?_
      · rintro _ _ ⟨⟩ place listed
        exact Or.inr ⟨rebuild, _, active, listed⟩
      · rintro _ _ _ ⟨⟩ place listed marked
        simp only [fsyncCovers, active, Option.all_some, Phase.syncs, List.all_eq_true,
          Bool.or_eq_true, Bool.not_eq_true', Bool.eq_false_iff, ne_eq, List.contains_iff_mem,
          decide_eq_true_eq] at covers
        obtain ⟨unsynced, outside⟩ := List.mem_filter.mp marked
        rcases covers place listed with safe | inside
        · exact safe unsynced
        · exact of_decide_eq_true outside inside
  | @store rebuild data toDelete active =>
      have base : Separate { store with active := some (rebuild, .stored toDelete) } := by
        refine held.of_active ?_ (by rintro _ _ _ ⟨⟩)
        rintro _ _ ⟨⟩ _ listed
        cases listed
      refine ⟨base.written, base.reserved, base.nodup, base.apart, fun place listed => ?_,
        base.synced, ?_⟩
      · exact (held.written place (Or.inr ⟨rebuild, _, active, listed⟩)).1
      · rw [List.filter_eq_nil_iff]
        intro place listed marked
        exact held.synced rebuild data toDelete active place listed (List.contains_iff_mem.mp marked)
  | delete active chosen =>
      have base : Separate { store with active := none } :=
        held.of_active (by rintro _ _ ⟨⟩) (by rintro _ _ _ ⟨⟩)
      exact ⟨base.written, base.reserved, base.nodup, base.apart, base.region, base.synced,
        base.stored⟩
  | crash reopened => exact held.reopen reopened
  -- the mapper, the unlink worker and a waiting snapshot
  | _ => exact ⟨held.written, held.reserved, held.nodup, held.apart, held.region, held.synced,
      held.stored⟩

end Separate

/-- The control region of a run is durable exactly if the run has stored none. The blobs it
lists are synced if, whenever a snapshot synced the highest index file, those it lists in
other files were. -/
theorem region_durable_iff (layout : WalLayout) (count : Nat) {events : List Event} {store : Store}
    (ran : runEvents (step layout count) events Store.new = some store) :
    (store.region.Durable ↔ ∀ event ∈ events, event.stores = false) ∧
      (AllSteps (step layout count) (fun store event => fsyncCovers layout store event = true)
        events Store.new → store.region.unsynced = []) := by
  refine ⟨⟨fun durable => ?_, fun none => ?_⟩, fun covers =>
    (runEvents_invariant (fun held met => held.step met) Separate.new covers ran).stored⟩
  · rcases region_run ran with ⟨none, _⟩ | ⟨_, lost⟩
    · exact none
    · rw [StoredRegion.Durable, lost] at durable
      exact absurd durable.1 Bool.false_ne_true
  · rcases region_run ran with ⟨_, same⟩ | ⟨⟨event, member, stored⟩, _⟩
    · rw [same]
      exact ⟨rfl, rfl⟩
    · rw [none event member] at stored
      exact absurd stored Bool.false_ne_true

theorem region_durable_iff_before_snapshot :
    ∃ store, runEvents (step .small 1) (flushTo 0 0) Store.new = some store ∧
      (store.region.Durable ↔ ∀ event ∈ flushTo 0 0, event.stores = false) ∧
      (AllSteps (step .small 1) (fun store event => fsyncCovers .small store event = true)
        (flushTo 0 0) Store.new → store.region.unsynced = []) := by
  have reached : (runEvents (step .small 1) (flushTo 0 0) Store.new).isSome = true := by
    decide +kernel
  obtain ⟨store, ran⟩ := Option.isSome_iff_exists.mp reached
  exact ⟨store, ran, region_durable_iff .small 1 ran⟩

/-- The mapper has created the next index file when a snapshot syncs the highest one: the
blob in the file before it is listed and not synced. -/
theorem region_lists_unsynced_blob :
    ∃ store, runEvents (step .small 1) (flushTo 0 0 ++ [.mapNext] ++ snapshotOf 1 1) Store.new =
        some store ∧
      store.region = ⟨[[⟨0, 64⟩]], false, [⟨0, 64⟩]⟩ ∧ ¬ store.region.Durable := by
  have reached : (runEvents (step .small 1) (flushTo 0 0 ++ [.mapNext] ++ snapshotOf 1 1)
      Store.new).any (fun store =>
        decide (store.region = ⟨[[⟨0, 64⟩]], false, [⟨0, 64⟩]⟩)) = true := by
    decide +kernel
  obtain ⟨store, ran, met⟩ := (Option.any_eq_true _ _).mp reached
  have region := of_decide_eq_true met
  refine ⟨store, ran, region, fun durable => ?_⟩
  rw [StoredRegion.Durable, region] at durable
  exact Bool.false_ne_true durable.1

end Tidehunter.Snapshot
