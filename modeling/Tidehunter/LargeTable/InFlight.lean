import Tidehunter.LargeTable.Cell
import Tidehunter.LargeTable.History

/-!
# Flushes under way

Between the request of a flush and its completion the cell is written to and promoted. The
table the flush was made from stands for the history at its request, and what the flusher
writes from it settles every operation below the frontier of the request.
-/

namespace Tidehunter.LargeTable

open Library Wal Index Flusher

variable {K V : Type}

/-! ## Histories that grow -/

/-- New operations lie behind the frontier of a flush under way. -/
structure Extended (history later : K → Set Mark) (bound : Nat) : Prop where
  subset : ∀ key, ∀ mark ∈ history key, mark ∈ later key
  added : ∀ key, ∀ mark ∈ later key, mark ∈ history key ∨ bound ≤ mark.offset

theorem Extended.refl (history : K → Set Mark) (bound : Nat) : Extended history history bound :=
  ⟨fun _ _ member => member, fun _ _ member => Or.inl member⟩

theorem Extended.congr {history later : K → Set Mark} {bound : Nat}
    (extended : Extended history later bound) {key : K} {mark : Mark}
    (below : mark.offset < bound) : mark ∈ later key ↔ mark ∈ history key :=
  ⟨fun member => (extended.added key mark member).resolve_right (Nat.not_le.mpr below),
    extended.subset key mark⟩

variable [LinearOrder K]

namespace Entry

/-- Every change of the table advances its version. -/
def Versioned (entry result : Entry K) : Prop :=
  entry.version < result.version ∨ result.version = entry.version ∧ result.data = entry.data

/-! ## Flushes under way -/

/-- A flush of the table `original` is under way. -/
structure Flushing (observe : Option WalPosition → V) (entry : Entry K) (history : K → Set Mark)
    (bound shown : Nat) (original : IndexTable K) (version : Nat)
    (outcome : Option (IndexTable K × IndexLevels K)) : Prop where
  dirty : entry.state.isDirty = true
  version_le : version ≤ entry.version
  same : entry.version = version → entry.data = original
  follows : ∀ key, IndexTable.Follows bound original entry.data key
  earlier : ∀ key, ∃ earlier : Set Mark,
    (journal observe).Buffered earlier bound shown (original.overlay key)
        (observe (({ entry with data := original } : Entry K).under key)) ∧
      (∀ mark ∈ earlier, mark ∈ history key) ∧
      ∀ mark ∈ history key, mark ∈ earlier ∨ bound ≤ mark.offset
  result : ∀ result, outcome = some result → result.1 = original ∧
    Settle observe result.2 history bound shown ∧
    ∀ key, result.2.deep.view key = result.2.view key ∨
      result.2.deep.view key = entry.levels.deep.view key

/-- The blobs of a clean cell are being written again. -/
structure Relocating (observe : Option WalPosition → V) (entry : Entry K) (history : K → Set Mark)
    (bound : Nat) (outcome : Option (IndexTable K × IndexLevels K)) : Prop where
  nonempty : entry.state ≠ .empty
  shows : ∀ key, (journal observe).Shows (history key) bound (observe (entry.levels.view key))
  result : ∀ result, outcome = some result →
    (∀ key, result.2.view key = entry.levels.view key) ∧
    (result.2.deep.isSharded = true ∨ entry.levels.deep.isNone = true →
      ∀ key, result.2.deep.view key = entry.levels.deep.view key)

/-- A flush job that fits the entry it was requested for. -/
def InFlight (observe : Option WalPosition → V) (entry : Entry K) (history : K → Set Mark)
    (bound shown : Nat) (job : FlushJob K) : Prop :=
  match job.kind with
  | .flush original levels loaded _ => levels = entry.levels ∧ loaded = entry.state.coversL0 ∧
      entry.Flushing observe history bound shown original job.version job.outcome
  | .forceRelocate levels _ => levels = entry.levels ∧
      entry.Relocating observe history bound job.outcome

variable {observe : Option WalPosition → V} {entry result : Entry K} {history later : K → Set Mark}
  {bound shown : Nat}

theorem Settle.extend {levels : IndexLevels K} (settle : Settle observe levels history bound shown)
    (extended : Extended history later bound) {laterShown : Nat} (grows : shown ≤ laterShown) :
    Settle observe levels later bound laterShown := by
  intro key quiet
  refine Journal.Reads.congr_below (settle key fun mark member => ?_) fun mark below =>
    extended.congr below
  exact (quiet mark (extended.subset key mark member)).imp_right grows.trans

/-- What an entry goes through while a flush is under way: writes behind the frontier,
promotions and later frontiers. -/
structure Carried (entry result : Entry K) (bound : Nat) : Prop where
  levels : result.levels = entry.levels
  state : entry.state.isDirty = true → result.state = entry.state
  nonempty : entry.state ≠ .empty → result.state ≠ .empty
  version : entry.Versioned result
  follows : ∀ original key, IndexTable.Follows bound original entry.data key →
    IndexTable.Follows bound original result.data key

theorem InFlight.carry {job : FlushJob K} (inFlight : entry.InFlight observe history bound shown job)
    (carried : Carried entry result bound) (extended : Extended history later bound)
    {laterShown : Nat} (grows : shown ≤ laterShown) :
    result.InFlight observe later bound laterShown job := by
  unfold InFlight at inFlight ⊢
  cases kind : job.kind with
  | flush original levels loaded positions =>
      simp only [kind] at inFlight ⊢
      obtain ⟨sameLevels, sameLoaded, flushing⟩ := inFlight
      have state := carried.state flushing.dirty
      refine ⟨sameLevels.trans carried.levels.symm, by rw [state]; exact sameLoaded, ?_⟩
      refine ⟨by rw [state]; exact flushing.dirty, ?_, ?_, ?_, ?_, ?_⟩
      · rcases carried.version with more | ⟨same, _⟩
        · exact flushing.version_le.trans more.le
        · rw [same]
          exact flushing.version_le
      · intro isVersion
        rcases carried.version with more | ⟨same, sameData⟩
        · exact absurd (isVersion ▸ more) (Nat.not_lt.mpr flushing.version_le)
        · rw [sameData]
          exact flushing.same (same.symm.trans isVersion)
      · exact fun key => carried.follows original key (flushing.follows key)
      · intro key
        obtain ⟨earlier, buffered, subset, added⟩ := flushing.earlier key
        refine ⟨earlier, ?_, fun mark member => extended.subset key mark (subset mark member), ?_⟩
        · have under : ({ result with data := original } : Entry K).under key =
              ({ entry with data := original } : Entry K).under key := by
            simp only [Entry.under, beneath, state, carried.levels]
          rw [under]
          exact buffered.advance (le_refl bound) grows (buffered.ordered.trans grows)
        · intro mark member
          rcases extended.added key mark member with old | high
          · exact added mark old
          · exact Or.inr high
      · intro outcome isOutcome
        obtain ⟨isOriginal, settle, deep⟩ := flushing.result outcome isOutcome
        rw [carried.levels]
        exact ⟨isOriginal, settle.extend extended grows, deep⟩
  | forceRelocate levels positions =>
      simp only [kind] at inFlight ⊢
      obtain ⟨sameLevels, relocating⟩ := inFlight
      refine ⟨sameLevels.trans carried.levels.symm, carried.nonempty relocating.nonempty, ?_, ?_⟩
      · intro key
        rw [carried.levels]
        exact (relocating.shows key).congr_below fun mark below => extended.congr below
      · rw [carried.levels]
        exact relocating.result

/-! ## The flusher -/

/-- No entry that a reader sees lies below the lowest live position. -/
def Unfiltered (view : LogView) : FlushKind K → Prop
  | .flush dirty levels loaded _ => ∀ key,
      Floored view.minWalPosition (flushedTable view dirty levels loaded) levels.deep key
  | .forceRelocate levels _ => ∀ key position, levels.view key = some position →
      view.minWalPosition ≤ position.offset

theorem unfiltered_of_zero {view : LogView} (whole : view.minWalPosition = 0) (kind : FlushKind K) :
    Unfiltered view kind := by
  cases kind with
  | flush dirty levels loaded positions =>
      intro key
      rw [whole]
      exact ⟨fun _ _ => Nat.zero_le _, fun _ _ _ => Nat.zero_le _⟩
  | forceRelocate levels positions =>
      intro key position _
      rw [whole]
      exact Nat.zero_le _

variable {config : KsConfig K}

/-- A flush writes what a reader of its table saw as of the flusher's frontier. -/
theorem views_flush (noCompactor : config.compactor = none) {view : LogView} {writer : IndexWriter}
    {original : IndexTable K} {positions : List WalPosition}
    {outcome : IndexTable K × IndexLevels K} (dirty : entry.state.isDirty = true)
    (unfiltered : Unfiltered view
      (.flush original entry.levels entry.state.coversL0 positions))
    (handled : (handleCommand config view writer
      (.flush original entry.levels entry.state.coversL0 positions) .none).2 = some outcome)
    (key : K) :
    outcome.2.view key =
        ({ entry with data := original } : Entry K).getAt key view.lastProcessed ∧
      (outcome.2.deep.view key = outcome.2.view key ∨
        outcome.2.deep.view key = entry.levels.deep.view key) := by
  rw [handleCommand_flush] at handled
  obtain rfl := Option.some.inj handled
  refine ⟨?_, deep_writeFiltered config view writer _ entry.levels positions key⟩
  have ok : ({ entry with data := original } : Entry K).Ok := ok_of_isDirty dirty
  rw [view_writeFiltered_of_floored noCompactor view writer positions (unfiltered key),
    get_flushedTable, getAt_eq ok, beneath]
  cases entry.state.coversL0 with
  | true => simp
  | false => simp [IndexLevels.lookup, Option.or_assoc]

theorem original_flush {view : LogView} {writer : IndexWriter} {original : IndexTable K}
    {levels : IndexLevels K} {loaded : Bool} {positions : List WalPosition}
    {outcome : IndexTable K × IndexLevels K}
    (handled : (handleCommand config view writer (.flush original levels loaded positions)
      .none).2 = some outcome) : outcome.1 = original := by
  rw [handleCommand_flush] at handled
  obtain rfl := Option.some.inj handled
  rfl

/-- Blobs written again stay in the deep level, or are all collapsed into `L0`. -/
theorem deep_forceRelocate {view : LogView} {writer : IndexWriter} {levels : IndexLevels K}
    {positions : List WalPosition} {outcome : IndexTable K × IndexLevels K}
    (handled : (handleCommand config view writer (.forceRelocate levels positions) .none).2 =
      some outcome)
    (stays : outcome.2.deep.isSharded = true ∨ levels.deep.isNone = true) (key : K) :
    outcome.2.deep.view key = levels.deep.view key := by
  obtain ⟨l0, deep⟩ := levels
  have collapses (table : IndexTable K) (merged : IndexTable K) (newWriter : IndexWriter)
      (isOutcome : some (table, (writeLevels config view newWriter true merged
        IndexLevels.new).2) = some outcome) : outcome.2.deep = .none := by
    obtain rfl := Option.some.inj isOutcome
    simp [writeLevels, IndexLevels.new, DeepLevel.isNone]
  cases deep with
  | sharded shards =>
      obtain rfl := Option.some.inj handled
      exact (deep_relocateInLevels config writer ⟨l0, .sharded shards⟩ positions key).1
  | none => rw [collapses _ _ _ handled]
  | l1 blob =>
      rw [collapses _ _ _ handled] at stays
      rcases stays with sharded | none
      · cases sharded
      · cases none

/-- The flusher runs the command of a flush under way. -/
theorem InFlight.execute (noCompactor : config.compactor = none) {job : FlushJob K}
    (inFlight : entry.InFlight observe history bound shown job) {view : LogView}
    {writer : IndexWriter} {outcome : IndexTable K × IndexLevels K}
    (late : shown ≤ view.lastProcessed) (unfiltered : Unfiltered view job.kind)
    (handled : (handleCommand config view writer job.kind .none).2 = some outcome) :
    entry.InFlight observe history bound view.lastProcessed { job with outcome := some outcome } := by
  have carried : Carried entry entry bound :=
    ⟨rfl, fun _ => rfl, id, Or.inr ⟨rfl, rfl⟩, fun _ _ follows => follows⟩
  have moved := inFlight.carry carried (Extended.refl history bound) late
  unfold InFlight at inFlight moved ⊢
  cases kind : job.kind with
  | flush original levels loaded positions =>
      simp only [kind] at inFlight moved handled unfiltered ⊢
      obtain ⟨rfl, rfl, before⟩ := inFlight
      obtain ⟨_, _, flushing⟩ := moved
      refine ⟨rfl, rfl, { flushing with result := ?_ }⟩
      rintro _ ⟨⟩
      refine ⟨original_flush handled, fun key => ?_, fun key =>
        (views_flush noCompactor flushing.dirty unfiltered handled key).2⟩
      obtain ⟨earlier, buffered, subset, added⟩ := before.earlier key
      rw [(views_flush noCompactor flushing.dirty unfiltered handled key).1]
      have ok : ({ entry with data := original } : Entry K).Ok := ok_of_isDirty flushing.dirty
      exact buffered.settles late (reads_getAt ok key _) subset added
  | forceRelocate levels positions =>
      simp only [kind] at moved handled unfiltered ⊢
      obtain ⟨rfl, relocating⟩ := moved
      refine ⟨rfl, { relocating with result := ?_ }⟩
      rintro _ ⟨⟩
      obtain ⟨newWriter, original, newLevels, isHandled, views⟩ :=
        view_forceRelocate noCompactor view writer entry.levels positions
      refine ⟨fun key => ?_, fun stays key => deep_forceRelocate handled stays key⟩
      rw [isHandled] at handled
      obtain rfl := Option.some.inj handled
      exact views key (unfiltered key)

/-! ## Completion -/

/-- What the flusher wrote settles the operations below the frontier of the request. -/
theorem InFlight.settle {job : FlushJob K}
    (inFlight : entry.InFlight observe history bound shown job)
    {outcome : IndexTable K × IndexLevels K} (isOutcome : job.outcome = some outcome) :
    Settle observe outcome.2 history bound shown := by
  unfold InFlight at inFlight
  cases kind : job.kind with
  | flush original levels loaded positions =>
      simp only [kind] at inFlight
      exact (inFlight.2.2.result outcome isOutcome).2.1
  | forceRelocate levels positions =>
      simp only [kind] at inFlight
      intro key _
      rw [(inFlight.2.result outcome isOutcome).1 key]
      exact inFlight.2.shows key

/-- A completed flush leaves its levels and its frontier. -/
theorem complete_fields {job : FlushJob K} {outcome : IndexTable K × IndexLevels K} {pending : Nat}
    (isPending : entry.pendingLastProcessed = some pending)
    (completed : (match job.kind with
      | .flush _ _ _ _ => entry.updateFlushedIndex config outcome.1 job.version outcome.2
      | .forceRelocate _ _ => entry.updateRelocatedPosition outcome.2) = some result) :
    result.levels = outcome.2 ∧ result.lastProcessed = pending ∧ result.state ≠ .empty ∧
      result.pendingLastProcessed = none := by
  split at completed
  · simp only [updateFlushedIndex, isPending] at completed
    split at completed
    · split at completed
      · obtain rfl := Option.some.inj completed
        exact ⟨levels_clearAfterFlush _ _ _ _, lastProcessed_clearAfterFlush _ _ _ _,
          state_clearAfterFlush _ _ _ _, pending_clearAfterFlush _ _ _ _⟩
      · obtain rfl := Option.some.inj completed
        exact ⟨rfl, rfl, by rintro ⟨⟩, rfl⟩
    · cases completed
  · simp only [Entry.updateRelocatedPosition, isPending] at completed
    cases state : entry.state with
    | empty => simp [state] at completed
    | unloaded =>
        simp only [state, Option.some.injEq] at completed
        subst completed
        exact ⟨rfl, rfl, by rintro ⟨⟩, rfl⟩
    | loaded =>
        simp only [state, Option.some.injEq] at completed
        subst completed
        exact ⟨rfl, rfl, by rintro ⟨⟩, rfl⟩
    | dirtyUnloaded =>
        simp only [state, Option.some.injEq] at completed
        subst completed
        exact ⟨rfl, rfl, by rintro ⟨⟩, rfl⟩
    | dirtyLoaded =>
        simp only [state] at completed
        split at completed
        · simp only [Option.some.injEq] at completed
          subst completed
          exact ⟨rfl, rfl, by rintro ⟨⟩, rfl⟩
        · simp only [Option.some.injEq] at completed
          subst completed
          refine ⟨rfl, rfl, ?_, rfl⟩
          simp only
          split <;> rintro ⟨⟩

theorem Keeps.complete (keeps : entry.Keeps observe history bound shown) {job : FlushJob K}
    (inFlight : entry.InFlight observe history bound shown job)
    (pending : entry.pendingLastProcessed = some bound) {outcome : IndexTable K × IndexLevels K}
    (isOutcome : job.outcome = some outcome)
    (completed : (match job.kind with
      | .flush _ _ _ _ => entry.updateFlushedIndex config outcome.1 job.version outcome.2
      | .forceRelocate _ _ => entry.updateRelocatedPosition outcome.2) = some result) :
    result.Keeps observe history bound shown := by
  unfold InFlight at inFlight
  cases kind : job.kind with
  | flush original levels loaded positions =>
      simp only [kind] at inFlight completed
      obtain ⟨_, _, flushing⟩ := inFlight
      obtain ⟨isOriginal, settle, deep⟩ := flushing.result outcome isOutcome
      have same : ({ entry with lastProcessed := bound, pendingLastProcessed := none } :
          Entry K).Keeps observe history bound shown := keeps.congr rfl rfl rfl
      simp only [updateFlushedIndex, pending, flushing.dirty, if_true] at completed
      split at completed
      · obtain rfl := Option.some.inj completed
        exact same.clearAfterFlush flushing.dirty config settle deep
      · obtain rfl := Option.some.inj completed
        rw [isOriginal]
        exact same.unmergeFlushed flushing.follows settle
  | forceRelocate levels positions =>
      simp only [kind] at inFlight completed
      obtain ⟨_, relocating⟩ := inFlight
      obtain ⟨views, deep⟩ := relocating.result outcome isOutcome
      refine keeps.updateRelocatedPosition pending completed (fun key _ => ?_) views deep
      rw [views key]
      exact relocating.shows key

/-- A synchronous flush writes the table of a dirty cell. -/
theorem syncFlush_of_isDirty (dirty : entry.state.isDirty = true) (config : KsConfig K) (bound : Nat)
    (view : LogView) (writer : IndexWriter) :
    ∃ outcome, (handleCommand config view writer
        (.flush entry.data entry.levels entry.state.coversL0 []) .none).2 = some outcome ∧
      (entry.syncFlush config bound view writer .none).2 =
        Entry.finishSyncFlush config bound entry outcome.2 := by
  refine ⟨_, by rw [handleCommand_flush], ?_⟩
  rw [Entry.syncFlush, prepareSyncFlush, flushKind_of_isDirty dirty]
  simp only [handleCommand_flush]

theorem syncFlush_of_not_isDirty (clean : entry.state.isDirty = false) (config : KsConfig K)
    (bound : Nat) (view : LogView) (writer : IndexWriter) :
    (entry.syncFlush config bound view writer .none).2 = entry := by
  rw [Entry.syncFlush, prepareSyncFlush, flushKind_of_not_isDirty clean]

/-- What a synchronous flush wrote settles the operations below its frontier. -/
theorem Keeps.settle_syncFlush (noCompactor : config.compactor = none)
    (keeps : entry.Keeps observe history bound shown) {view : LogView} {writer : IndexWriter}
    (late : shown ≤ view.lastProcessed) (dirty : entry.state.isDirty = true)
    (unfiltered : Unfiltered view (.flush entry.data entry.levels entry.state.coversL0 []))
    {outcome : IndexTable K × IndexLevels K}
    (handled : (handleCommand config view writer
      (.flush entry.data entry.levels entry.state.coversL0 []) .none).2 = some outcome) :
    Settle observe outcome.2 history bound view.lastProcessed := by
  intro key
  rw [(views_flush noCompactor dirty unfiltered handled key).1]
  exact (keeps.buffered key).settles late (reads_getAt keeps.ok key _) (fun _ member => member)
    fun _ member => Or.inl member

theorem Keeps.syncFlush (noCompactor : config.compactor = none)
    (keeps : entry.Keeps observe history bound shown) (ordered : bound ≤ shown) {view : LogView}
    (writer : IndexWriter) (late : shown ≤ view.lastProcessed)
    (unfiltered : Unfiltered view (.flush entry.data entry.levels entry.state.coversL0 [])) :
    (entry.syncFlush config bound view writer .none).2.Keeps observe history bound
      view.lastProcessed := by
  have advanced := keeps.advance (le_refl bound) late (ordered.trans late)
  cases dirty : entry.state.isDirty with
  | false =>
      rw [syncFlush_of_not_isDirty dirty]
      exact advanced
  | true =>
      obtain ⟨outcome, handled, isResult⟩ := syncFlush_of_isDirty dirty config bound view writer
      rw [isResult]
      exact advanced.finishSyncFlush config
        (keeps.settle_syncFlush noCompactor late dirty unfiltered handled)

/-! ## What the levels cover -/

/-- The levels settle every operation below the frontier they are recorded with. -/
structure Anchored (observe : Option WalPosition → V) (entry : Entry K) (history : K → Set Mark)
    (shown : Nat) : Prop where
  settle : Settle observe entry.levels history entry.lastProcessed shown
  le_shown : entry.lastProcessed ≤ shown

theorem Anchored.advance (anchored : entry.Anchored observe history shown) {later : Nat}
    (grows : shown ≤ later) : entry.Anchored observe history later :=
  ⟨fun key => (anchored.settle key).advance grows, anchored.le_shown.trans grows⟩

theorem Anchored.congr (anchored : entry.Anchored observe history shown)
    (levels : result.levels = entry.levels) (anchor : result.lastProcessed = entry.lastProcessed) :
    result.Anchored observe history shown := by
  refine ⟨?_, anchor.trans_le anchored.le_shown⟩
  rw [levels, anchor]
  exact anchored.settle

/-- A write moves the frontier of the levels down to it. -/
theorem Anchored.write (anchored : entry.Anchored observe history shown) (ok : entry.Ok)
    (untouched : entry.state = .empty → ∀ key, history key = ∅) {published : Nat} {key : K}
    {isModified : Bool} {position : WalPosition}
    (isWritten : entry.write published key isModified position = some result)
    (joins : ∀ other mark, mark ∈ later other ↔
      other = key ∧ mark = ⟨position.offset, position.len, !isModified⟩ ∨ mark ∈ history other) :
    result.Anchored observe later
      (if entry.state = .empty then max shown published else shown) := by
  rw [write_eq] at isWritten
  obtain ⟨⟨data, order⟩, _, rfl⟩ := Option.map_eq_some_iff.mp isWritten
  by_cases empty : entry.state = .empty
  · have anchor : ((entry.markDirty published position).setData data).lastProcessed =
        min position.offset published := by
      simp [markDirty, setData, empty]
    refine ⟨fun other _ => Or.inr ⟨fun mark member => ?_, ?_⟩, ?_⟩
    · rw [anchor]
      rcases (joins other mark).mp member with ⟨_, rfl⟩ | old
      · exact min_le_left _ _
      · rw [untouched empty other] at old
        exact absurd old (Set.notMem_empty mark)
    · rw [show ((entry.markDirty published position).setData data).levels = IndexLevels.new from
        ok.emptyLevels empty]
      rfl
    · rw [anchor, if_pos empty]
      exact (min_le_right _ _).trans (le_max_right _ _)
  · have anchor : ((entry.markDirty published position).setData data).lastProcessed =
        min entry.lastProcessed position.offset := by
      cases state : entry.state <;> simp_all [markDirty, setData]
    rw [if_neg empty]
    refine ⟨?_, anchor.trans_le ((min_le_left _ _).trans anchored.le_shown)⟩
    rw [anchor]
    have lowered : Settle observe entry.levels history (min entry.lastProcessed position.offset)
        shown := fun other => (anchored.settle other).lower (min_le_left _ _) anchored.le_shown
    refine lowered.extend ⟨fun other mark member => (joins other mark).mpr (Or.inr member), ?_⟩
      (le_refl shown)
    intro other mark member
    rcases (joins other mark).mp member with ⟨_, rfl⟩ | old
    · exact Or.inr (min_le_right _ _)
    · exact Or.inl old

theorem Anchored.syncFlush (noCompactor : config.compactor = none)
    (anchored : entry.Anchored observe history shown)
    (keeps : entry.Keeps observe history bound shown) (ordered : bound ≤ shown) {view : LogView}
    (writer : IndexWriter) (late : shown ≤ view.lastProcessed)
    (unfiltered : Unfiltered view (.flush entry.data entry.levels entry.state.coversL0 [])) :
    (entry.syncFlush config bound view writer .none).2.Anchored observe history
      view.lastProcessed := by
  cases dirty : entry.state.isDirty with
  | false =>
      rw [syncFlush_of_not_isDirty dirty]
      exact anchored.advance late
  | true =>
      obtain ⟨outcome, handled, isResult⟩ := syncFlush_of_isDirty dirty config bound view writer
      have levels : (Entry.finishSyncFlush config bound entry outcome.2).levels = outcome.2 :=
        levels_clearAfterFlush _ _ _ _
      have anchor : (Entry.finishSyncFlush config bound entry outcome.2).lastProcessed = bound := by
        rw [finishSyncFlush_eq, lastProcessed_clearAfterFlush, rebased]
        split <;> rfl
      rw [isResult]
      refine ⟨?_, anchor.trans_le (ordered.trans late)⟩
      rw [levels, anchor]
      exact keeps.settle_syncFlush noCompactor late dirty unfiltered handled

theorem state_syncFlush (config : KsConfig K) (bound : Nat) (view : LogView) (writer : IndexWriter)
    (entry : Entry K)
    (untouched : (entry.syncFlush config bound view writer .none).2.state = .empty) :
    entry.state = .empty := by
  cases dirty : entry.state.isDirty with
  | false =>
      rw [syncFlush_of_not_isDirty dirty] at untouched
      exact untouched
  | true =>
      obtain ⟨outcome, _, isResult⟩ := syncFlush_of_isDirty dirty config bound view writer
      rw [isResult, finishSyncFlush_eq] at untouched
      exact absurd untouched (state_clearAfterFlush _ _ _ _)

/-! ## Versions -/

theorem Versioned.refl (entry : Entry K) : entry.Versioned entry := Or.inr ⟨rfl, rfl⟩

theorem Versioned.trans {middle : Entry K} (first : entry.Versioned middle)
    (second : middle.Versioned result) : entry.Versioned result := by
  rcases first with less | ⟨sameVersion, sameData⟩
  · rcases second with more | ⟨same, _⟩
    · exact Or.inl (less.trans more)
    · exact Or.inl (same ▸ less)
  · rcases second with more | ⟨same, data⟩
    · exact Or.inl (sameVersion ▸ more)
    · exact Or.inr ⟨same.trans sameVersion, data.trans sameData⟩

theorem versioned_clearAfterFlush (config : KsConfig K) (entry : Entry K)
    (newLevels : IndexLevels K) (bound : Nat) :
    entry.Versioned (clearAfterFlush config entry newLevels bound) := by
  unfold clearAfterFlush
  split
  · split
    · exact Or.inr ⟨rfl, rfl⟩
    · split
      · exact Or.inl (Nat.lt_succ_self _)
      · exact Or.inr ⟨rfl, rfl⟩
  · exact Or.inl (Nat.lt_succ_self _)

theorem versioned_maybeLoad (entry : Entry K) : entry.Versioned entry.maybeLoad := by
  unfold Entry.maybeLoad
  split
  · exact Or.inl (Nat.lt_succ_self _)
  · exact Or.inl (Nat.lt_succ_self _)
  · exact Versioned.refl entry

theorem versioned_write {frontier : Nat} {key : K} {isModified : Bool} {position : WalPosition}
    (isWritten : entry.write frontier key isModified position = some result) :
    entry.Versioned result := by
  rw [write_eq] at isWritten
  obtain ⟨inserted, _, rfl⟩ := Option.map_eq_some_iff.mp isWritten
  exact Or.inl (Nat.lt_succ_self _)

theorem versioned_updateFlushedIndex {original : IndexTable K} {version : Nat}
    {newLevels : IndexLevels K}
    (completed : entry.updateFlushedIndex config original version newLevels = some result) :
    entry.Versioned result := by
  unfold updateFlushedIndex at completed
  split at completed
  · cases completed
  · rename_i pending isPending
    split at completed
    · simp only at completed
      split at completed
      · obtain rfl := Option.some.inj completed
        have same : entry.Versioned
            { entry with lastProcessed := pending, pendingLastProcessed := none } :=
          Or.inr ⟨rfl, rfl⟩
        exact same.trans (versioned_clearAfterFlush config _ newLevels pending)
      · obtain rfl := Option.some.inj completed
        exact Or.inl (Nat.lt_succ_self _)
    · cases completed

theorem versioned_updateRelocatedPosition {newLevels : IndexLevels K}
    (completed : entry.updateRelocatedPosition newLevels = some result) :
    entry.Versioned result := by
  unfold Entry.updateRelocatedPosition at completed
  split at completed
  · cases completed
  · simp only at completed
    split at completed
    · obtain rfl := Option.some.inj completed
      exact Or.inr ⟨rfl, rfl⟩
    · obtain rfl := Option.some.inj completed
      exact Or.inl (Nat.lt_succ_self _)
    · obtain rfl := Option.some.inj completed
      exact Or.inr ⟨rfl, rfl⟩
    · split at completed
      · obtain rfl := Option.some.inj completed
        exact Or.inr ⟨rfl, rfl⟩
      · obtain rfl := Option.some.inj completed
        exact Or.inl (Nat.lt_succ_self _)
    · cases completed

theorem versioned_syncFlush (config : KsConfig K) (bound : Nat) (view : LogView)
    (writer : IndexWriter) (entry : Entry K) :
    entry.Versioned (entry.syncFlush config bound view writer .none).2 := by
  cases dirty : entry.state.isDirty with
  | false =>
      rw [syncFlush_of_not_isDirty dirty]
      exact Versioned.refl entry
  | true =>
      obtain ⟨outcome, _, isResult⟩ := syncFlush_of_isDirty dirty config bound view writer
      rw [isResult, finishSyncFlush_eq]
      refine Versioned.trans ?_ (versioned_clearAfterFlush config _ outcome.2 bound)
      unfold rebased
      split
      · exact Or.inl (Nat.lt_succ_self _)
      · exact Or.inr ⟨rfl, rfl⟩

/-! ## What happens during a flush -/

theorem pending_write {frontier : Nat} {key : K} {isModified : Bool} {position : WalPosition}
    (isWritten : entry.write frontier key isModified position = some result) :
    result.pendingLastProcessed = entry.pendingLastProcessed := by
  rw [write_eq] at isWritten
  obtain ⟨inserted, _, rfl⟩ := Option.map_eq_some_iff.mp isWritten
  rfl

theorem state_write {frontier : Nat} {key : K} {isModified : Bool} {position : WalPosition}
    (isWritten : entry.write frontier key isModified position = some result) :
    result.state ≠ .empty := by
  rw [write_eq] at isWritten
  obtain ⟨inserted, _, rfl⟩ := Option.map_eq_some_iff.mp isWritten
  change entry.state.markDirty ≠ .empty
  cases entry.state <;> simp [EntryState.markDirty]

theorem offset_written (isModified : Bool) (position : WalPosition) :
    (written isModified position).offset = position.offset := by
  cases isModified <;> rfl

theorem carried_write {frontier : Nat} {key : K} {isModified : Bool} {position : WalPosition}
    (isWritten : entry.write frontier key isModified position = some result)
    (above : bound ≤ position.offset) : Carried entry result bound := by
  have versioned := versioned_write isWritten
  have touched := state_write isWritten
  rw [write_eq] at isWritten
  obtain ⟨⟨data, order⟩, inserted, rfl⟩ := Option.map_eq_some_iff.mp isWritten
  refine ⟨rfl, fun dirty => ?_, fun _ => touched, versioned, fun original other follows => ?_⟩
  · change entry.state.markDirty = entry.state
    cases state : entry.state <;> simp_all [EntryState.markDirty, EntryState.isDirty]
  · exact follows.checkedInsert (by rw [offset_written]; exact above) inserted

theorem carried_promoteToFlat {threshold : Nat} (below : threshold ≤ bound) :
    Carried entry (entry.setData (entry.data.promoteToFlatUnconditionally threshold)) bound :=
  ⟨rfl, fun _ => rfl, id, Or.inl (Nat.lt_succ_self _), fun _ _ follows => follows.promoteToFlat below⟩

/-- The frontier a clean cell is known to cover does not matter to a flush. -/
theorem carried_congr (state : result.state = entry.state) (levels : result.levels = entry.levels)
    (data : result.data = entry.data) (version : result.version = entry.version) :
    Carried entry result bound :=
  ⟨levels, fun _ => state, fun nonempty => by rw [state]; exact nonempty, Or.inr ⟨version, data⟩,
    fun _ _ follows => by rw [data]; exact follows⟩

theorem versioned_complete {job : FlushJob K} {outcome : IndexTable K × IndexLevels K}
    (completed : (match job.kind with
      | .flush _ _ _ _ => entry.updateFlushedIndex config outcome.1 job.version outcome.2
      | .forceRelocate _ _ => entry.updateRelocatedPosition outcome.2) = some result) :
    entry.Versioned result := by
  split at completed
  · exact versioned_updateFlushedIndex completed
  · exact versioned_updateRelocatedPosition completed

theorem pending_syncFlush (config : KsConfig K) (bound : Nat) (view : LogView)
    (writer : IndexWriter) (entry : Entry K) :
    (entry.syncFlush config bound view writer .none).2.pendingLastProcessed =
      entry.pendingLastProcessed := by
  cases dirty : entry.state.isDirty with
  | false => rw [syncFlush_of_not_isDirty dirty]
  | true =>
      obtain ⟨outcome, _, isResult⟩ := syncFlush_of_isDirty dirty config bound view writer
      rw [isResult, finishSyncFlush_eq, pending_clearAfterFlush, rebased]
      split <;> rfl

theorem pending_maybeLoad (entry : Entry K) :
    entry.maybeLoad.pendingLastProcessed = entry.pendingLastProcessed := by
  unfold Entry.maybeLoad
  split <;> rfl

end Entry

end Tidehunter.LargeTable
