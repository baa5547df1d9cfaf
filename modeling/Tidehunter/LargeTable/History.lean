import Tidehunter.LargeTable.Quiescent
import Tidehunter.Index.TableDrain
import Tidehunter.Library.Journal

/-!
# What a cell keeps of its history

Per key, a cell is a buffered history: the overlay of its table holds the newest operations,
and the flat buffer over the levels stands for the others. Every change of an entry keeps
this, so that no background work changes a read.
-/

namespace Tidehunter.LargeTable

open Library Wal Index Flusher

variable {K V : Type} [LinearOrder K]

/-- The marks of a key as operations. `observe` is what a reader makes of a position. -/
def journal (observe : Option WalPosition → V) : Journal Mark V where
  offset := Mark.offset
  effect := fun mark => observe (readable (some mark.position))
  absent := observe none

namespace Entry

/-- What a reader finds when no overlay position answers. -/
def under (entry : Entry K) (key : K) : Option WalPosition :=
  readable ((entry.data.base key).or (entry.beneath key))

/-- The levels answer for every operation of the history, which lie below the bound. -/
structure Covered (observe : Option WalPosition → V) (levels : IndexLevels K)
    (history : K → Set Mark) (bound : Nat) : Prop where
  below : ∀ key, ∀ mark ∈ history key, mark.offset < bound
  shows : ∀ key, (journal observe).Shows (history key) bound (observe (levels.view key))

/-- An entry that stands for a history of operations. -/
structure Keeps (observe : Option WalPosition → V) (entry : Entry K) (history : K → Set Mark)
    (bound shown : Nat) : Prop where
  ok : entry.Ok
  buffered : ∀ key, (journal observe).Buffered (history key) bound shown
    (entry.data.overlay key) (observe (entry.under key))
  clean : entry.state.isDirty = false → Covered observe entry.levels history bound

variable {observe : Option WalPosition → V} {entry : Entry K} {history : K → Set Mark}
  {bound shown : Nat}

/-! ## Reads -/

theorem reads_getAt (ok : entry.Ok) (key : K) (frontier : Nat) :
    (journal observe).Reads (entry.data.overlay key) (observe (entry.under key)) frontier
      (observe (entry.getAt key frontier)) := by
  rw [getAt_eq ok]
  rcases entry.data.getAt_cases key frontier with ⟨mark, latest, found⟩ | ⟨above, found⟩
  · refine Or.inl ⟨mark, latest, ?_⟩
    rw [found]
    rfl
  · refine Or.inr ⟨above, ?_⟩
    rw [found]
    rfl

/-- A read with no frontier is a read as of any frontier above the operations of the key. -/
theorem get_eq_getAt (ok : entry.Ok) {key : K} {frontier : Nat}
    (below : ∀ mark ∈ entry.data.overlay key, mark.offset < frontier) :
    entry.get key = entry.getAt key frontier := by
  rw [get_eq ok, getAt_eq ok, IndexTable.get_eq_getAt below]

namespace Keeps

theorem shows (keeps : entry.Keeps observe history bound shown) (key : K) {frontier : Nat}
    (late : shown ≤ frontier) :
    (journal observe).Shows (history key) frontier (observe (entry.getAt key frontier)) :=
  (keeps.buffered key).shows late (reads_getAt keeps.ok key frontier)

theorem shows_get (keeps : entry.Keeps observe history bound shown) {key : K} {frontier : Nat}
    (late : shown ≤ frontier) (below : ∀ mark ∈ history key, mark.offset < frontier) :
    (journal observe).Shows (history key) frontier (observe (entry.get key)) := by
  rw [get_eq_getAt keeps.ok fun mark member => below mark ((keeps.buffered key).subset mark member)]
  exact keeps.shows key late

/-- Only the state, the levels and the table matter. -/
theorem congr (keeps : entry.Keeps observe history bound shown) {result : Entry K}
    (state : result.state = entry.state) (levels : result.levels = entry.levels)
    (data : result.data = entry.data) : result.Keeps observe history bound shown := by
  obtain ⟨resultState, resultLevels, resultData, version, lastProcessed, pending⟩ := result
  obtain rfl : resultState = entry.state := state
  obtain rfl : resultLevels = entry.levels := levels
  obtain rfl : resultData = entry.data := data
  exact ⟨⟨keeps.ok.emptyData, keeps.ok.emptyLevels, keeps.ok.unloadedData⟩, keeps.buffered,
    keeps.clean⟩

theorem advance (keeps : entry.Keeps observe history bound shown) {later laterShown : Nat}
    (grows : bound ≤ later) (shows : shown ≤ laterShown) (ordered : later ≤ laterShown) :
    entry.Keeps observe history later laterShown where
  ok := keeps.ok
  buffered := fun key => (keeps.buffered key).advance grows shows ordered
  clean := fun clean =>
    have covered := keeps.clean clean
    ⟨fun key mark member => (covered.below key mark member).trans_le grows,
      fun key => (covered.shows key).of_gap
        (fun mark member => Or.inl (covered.below key mark member)) ⟨le_refl bound, grows⟩
        ⟨grows, le_refl later⟩⟩

theorem new (observe : Option WalPosition → V) {bound shown : Nat} (ordered : bound ≤ shown) :
    (Entry.new : Entry K).Keeps observe (fun _ => ∅) bound shown where
  ok := ⟨fun _ => rfl, fun _ => rfl, nofun⟩
  buffered := fun key => by
    rw [show (Entry.new : Entry K).data.overlay key = ∅ from IndexTable.overlay_empty key]
    exact Journal.Buffered.empty ordered
  clean := fun _ => ⟨fun _ _ member => absurd member (Set.notMem_empty _),
    fun _ => Or.inr ⟨fun _ member => absurd member (Set.notMem_empty _), rfl⟩⟩

end Keeps

/-! ## Writes -/

/-- The index position a write leaves in the table. -/
def written (isModified : Bool) (position : WalPosition) : IndexWalPosition :=
  if isModified then IndexWalPosition.newModified position else IndexWalPosition.newRemoved position

theorem mark_written (isModified : Bool) (position : WalPosition) :
    (written isModified position).mark = ⟨position.offset, position.len, !isModified⟩ := by
  cases isModified <;> rfl

theorem write_eq (entry : Entry K) (frontier : Nat) (key : K) (isModified : Bool)
    (position : WalPosition) :
    entry.write frontier key isModified position =
      (entry.data.checkedInsert key (written isModified position)).map fun result =>
        (entry.markDirty frontier position).setData result.1 := by
  cases isModified <;> rfl

theorem isDirty_markDirty (state : EntryState) : state.markDirty.isDirty = true := by
  cases state <;> rfl

theorem beneath_markDirty (ok : entry.Ok) (frontier : Nat) (position : WalPosition)
    (data : IndexTable K) (key : K) :
    ((entry.markDirty frontier position).setData data).beneath key = entry.beneath key := by
  cases state : entry.state with
  | empty =>
      simp only [beneath, markDirty, setData, state, EntryState.markDirty, EntryState.coversL0,
        ok.emptyLevels state, if_true, Bool.false_eq_true, if_false]
      rfl
  | unloaded => simp [beneath, markDirty, setData, state, EntryState.markDirty, EntryState.coversL0]
  | loaded => simp [beneath, markDirty, setData, state, EntryState.markDirty, EntryState.coversL0]
  | dirtyUnloaded =>
      simp [beneath, markDirty, setData, state, EntryState.markDirty, EntryState.coversL0]
  | dirtyLoaded =>
      simp [beneath, markDirty, setData, state, EntryState.markDirty, EntryState.coversL0]

/-- A write joins the history of its key. -/
theorem Keeps.write (keeps : entry.Keeps observe history bound shown) {later : K → Set Mark}
    {frontier : Nat} {key : K} {isModified : Bool} {position : WalPosition} {result : Entry K}
    (isWritten : entry.write frontier key isModified position = some result)
    (joins : ∀ other mark, mark ∈ later other ↔
      other = key ∧ mark = ⟨position.offset, position.len, !isModified⟩ ∨ mark ∈ history other)
    (fresh : ∀ mark ∈ history key, mark.offset ≠ position.offset)
    (above : bound ≤ position.offset) : result.Keeps observe later bound shown := by
  rw [write_eq] at isWritten
  obtain ⟨⟨data, order⟩, inserted, rfl⟩ := Option.map_eq_some_iff.mp isWritten
  obtain ⟨sameFlat, marks⟩ := IndexTable.checkedInsert_spec inserted
  have dirty : ((entry.markDirty frontier position).setData data).state.isDirty = true :=
    isDirty_markDirty entry.state
  refine ⟨ok_of_isDirty dirty, fun other => ?_, fun clean => absurd (dirty.symm.trans clean) nofun⟩
  have under : ((entry.markDirty frontier position).setData data).under other =
      entry.under other := by
    rw [Entry.under, Entry.under, beneath_markDirty keeps.ok, IndexTable.base, IndexTable.base]
    rw [show ((entry.markDirty frontier position).setData data).data.flat = entry.data.flat from
      sameFlat]
  rw [under]
  by_cases isKey : other = key
  · subst isKey
    have laterIs : later other = insert ⟨position.offset, position.len, !isModified⟩ (history other) := by
      ext mark
      rw [joins, Set.mem_insert_iff]
      simp
    have overlayIs : ((entry.markDirty frontier position).setData data).data.overlay other =
        insert ⟨position.offset, position.len, !isModified⟩ (entry.data.overlay other) := by
      ext mark
      rw [Set.mem_insert_iff, ← mark_written]
      exact (marks other mark).trans (by simp)
    rw [laterIs, overlayIs]
    exact (keeps.buffered other).write fresh above
  · have laterIs : later other = history other := by
      ext mark
      simp [joins, isKey]
    have overlayIs : ((entry.markDirty frontier position).setData data).data.overlay other =
        entry.data.overlay other := by
      ext mark
      exact (marks other mark).trans (by simp [isKey])
    rw [laterIs, overlayIs]
    exact keeps.buffered other

/-! ## Loading and promotion -/

theorem Keeps.maybeLoad (keeps : entry.Keeps observe history bound shown) :
    entry.maybeLoad.Keeps observe history bound shown := by
  refine ⟨ok_maybeLoad keeps.ok, fun key => ?_, ?_⟩
  · have same : entry.maybeLoad.data.overlay key = entry.data.overlay key ∧
        entry.maybeLoad.under key = entry.under key := by
      unfold Entry.maybeLoad
      split
      · rename_i idle state
        rw [Entry.under, Entry.under, keeps.ok.unloadedData state]
        refine ⟨(overlay_loadL0 entry.levels key).trans (IndexTable.overlay_empty key).symm, ?_⟩
        simp [setData, beneath, state, EntryState.coversL0, base_loadL0, IndexLevels.lookup]
      · rename_i idle state
        refine ⟨IndexTable.overlay_mergeDirty (data_loadL0 entry.levels) entry.data false key, ?_⟩
        simp [Entry.under, setData, beneath, state, EntryState.coversL0, base_loadL0,
          IndexLevels.lookup, IndexTable.mergeDirtyNoClean, IndexTable.base_mergeDirty,
          Option.or_assoc]
      · exact ⟨rfl, rfl⟩
    rw [same.1, same.2]
    exact keeps.buffered key
  · intro clean
    have wasClean : entry.state.isDirty = false := by
      unfold Entry.maybeLoad at clean
      split at clean
      · rename_i state
        rw [state]
        rfl
      · cases clean
      · exact clean
    have levels : entry.maybeLoad.levels = entry.levels := by
      unfold Entry.maybeLoad
      split <;> rfl
    rw [levels]
    exact keeps.clean wasClean

theorem Keeps.promoteToFlat (keeps : entry.Keeps observe history bound shown) {threshold : Nat}
    (below : threshold ≤ bound) :
    (entry.setData (entry.data.promoteToFlatUnconditionally threshold)).Keeps observe history
      bound shown := by
  refine ⟨⟨fun state => ?_, keeps.ok.emptyLevels, fun state => ?_⟩, fun key => ?_, keeps.clean⟩
  · rw [setData, keeps.ok.emptyData state]
    rfl
  · rw [setData, keeps.ok.unloadedData state]
    rfl
  · have buffered := keeps.buffered key
    rcases entry.data.promoteToFlat_cases threshold key with
      ⟨sameData, sameFlat⟩ | ⟨positions, found, processed, noData, promoted⟩
    · have under : (entry.setData (entry.data.promoteToFlatUnconditionally threshold)).under key =
          entry.under key := by
        simp only [Entry.under, IndexTable.base, setData, sameFlat]
        rfl
      have overlay : (entry.setData (entry.data.promoteToFlatUnconditionally
          threshold)).data.overlay key = entry.data.overlay key := by
        simp only [IndexTable.overlay, setData, sameData]
      rw [under, overlay]
      exact buffered
    · have under : (entry.setData (entry.data.promoteToFlatUnconditionally threshold)).under key =
          readable (some positions.latest.mark.position) := by
        simp only [Entry.under, IndexTable.base, setData, promoted, Option.map_some, Option.some_or,
          IndexWalPosition.intoWalPosition_eq]
      rw [under, show (entry.setData (entry.data.promoteToFlatUnconditionally
        threshold)).data.overlay key = ∅ from IndexTable.overlay_of_lookup_none noData]
      have member : positions.latest.mark ∈ entry.data.overlay key :=
        ⟨positions, found, _, positions.latest_mem, rfl⟩
      refine buffered.promote member (processed.trans_le below) ?_
      rintro _ ⟨others, alsoFound, other, member, rfl⟩
      cases found.symm.trans alsoFound
      exact IndexWalPosition.offset_le_of_le (AscList.le_latest member)

/-! ## Flushes -/

/-- Levels that stand for the operations below the bound, where no later one came. -/
def Settle (observe : Option WalPosition → V) (levels : IndexLevels K) (history : K → Set Mark)
    (bound shown : Nat) : Prop :=
  ∀ key, (journal observe).Settles (history key) bound shown (observe (levels.view key))

theorem Settle.covered {levels : IndexLevels K} (settle : Settle observe levels history bound shown)
    (below : ∀ key, ∀ mark ∈ history key, mark.offset < bound) :
    Covered observe levels history bound :=
  ⟨below, fun key => settle key fun mark member => Or.inl (below key mark member)⟩

/-- With no overlay position from the bound on, there is no such operation. -/
theorem Keeps.below (keeps : entry.Keeps observe history bound shown)
    (processed : ∀ key, ∀ mark ∈ entry.data.overlay key, mark.offset < bound) (key : K) :
    ∀ mark ∈ history key, mark.offset < bound := by
  intro mark member
  by_contra high
  have above := Nat.le_of_not_lt high
  exact high (processed key mark ((keeps.buffered key).kept mark member above))

/-- What a flush covers leaves the table, and the new levels stand for it. -/
theorem Keeps.drained (keeps : entry.Keeps observe history bound shown) {result : Entry K}
    (ok : result.Ok)
    (remains : ∀ key mark, mark ∈ result.data.overlay key ↔
      mark ∈ entry.data.overlay key ∧ bound ≤ mark.offset)
    (under : ∀ key, result.under key = result.levels.view key)
    (settle : Settle observe result.levels history bound shown)
    (clean : result.state.isDirty = false → ∀ key, result.data.overlay key = ∅) :
    result.Keeps observe history bound shown where
  ok := ok
  buffered := fun key => by
    rw [under key]
    exact (keeps.buffered key).drain (remains key) (settle key)
  clean := fun isClean => settle.covered <| keeps.below fun key mark member => by
    by_contra high
    have left := (remains key mark).mpr ⟨member, Nat.le_of_not_lt high⟩
    rw [clean isClean key] at left
    exact left

/-- A cell that leaves memory, except for the writes the levels do not cover. -/
def evicted (entry : Entry K) (newLevels : IndexLevels K) (bound : Nat) : Entry K :=
  { entry.setData (entry.data.retainUnprocessed bound) with
    levels := newLevels
    state := if (entry.data.retainUnprocessed bound).isEmpty then .unloaded else .dirtyUnloaded }

theorem Keeps.evicted (keeps : entry.Keeps observe history bound shown) {newLevels : IndexLevels K}
    (settle : Settle observe newLevels history bound shown) :
    (entry.evicted newLevels bound).Keeps observe history bound shown := by
  refine keeps.drained ⟨fun state => ?_, fun state => ?_, fun state => ?_⟩
    (fun key mark => IndexTable.mem_overlay_retainUnprocessed) (fun key => ?_) settle ?_
  · unfold Entry.evicted at state
    split at state <;> cases state
  · unfold Entry.evicted at state
    split at state <;> cases state
  · simp only [Entry.evicted] at state
    split at state
    · rename_i nothing
      exact eq_empty_of_isEmpty nothing
    · cases state
  · rw [Entry.under, Entry.evicted, setData, IndexTable.base_retainUnprocessed, Option.none_or,
      beneath]
    simp only
    split <;> rfl
  · intro clean key
    simp only [Entry.evicted] at clean
    split at clean
    · rename_i nothing
      rw [Entry.evicted, setData, eq_empty_of_isEmpty nothing]
      exact IndexTable.overlay_empty key
    · cases clean

theorem Keeps.clearAfterFlush_of_evicted (keeps : entry.Keeps observe history bound shown)
    {config : KsConfig K} (leaves : (entry.state.isLoaded && config.unloadingDisabled) = false)
    {newLevels : IndexLevels K} (settle : Settle observe newLevels history bound shown) :
    (Entry.clearAfterFlush config entry newLevels bound).Keeps observe history bound shown := by
  unfold Entry.clearAfterFlush
  simp only [leaves, Bool.false_eq_true, if_false]
  exact keeps.evicted settle

/-- A loaded cell over its new levels, before anything leaves its table. -/
def relevelled (entry : Entry K) (newLevels : IndexLevels K) : Entry K :=
  { entry with levels := newLevels, state := .dirtyLoaded }

theorem under_relevelled (entry : Entry K) (newLevels : IndexLevels K) (key : K) :
    (entry.relevelled newLevels).under key =
      readable ((entry.data.base key).or (newLevels.deep.lookup key)) := rfl

theorem Keeps.relevelled (keeps : entry.Keeps observe history bound shown)
    (loaded : entry.state.coversL0 = true) {newLevels : IndexLevels K}
    (settle : Settle observe newLevels history bound shown)
    (deep : ∀ key, newLevels.deep.view key = newLevels.view key ∨
      newLevels.deep.view key = entry.levels.deep.view key) :
    (entry.relevelled newLevels).Keeps observe history bound shown := by
  refine ⟨ok_of_isDirty rfl, fun key => ?_, nofun⟩
  rw [under_relevelled]
  refine (keeps.buffered key).replace fun high => ?_
  have before := (keeps.buffered key).settled high
  rw [Entry.under, beneath, loaded, if_pos rfl] at before
  cases flat : entry.data.base key with
  | some position =>
      rw [flat] at before
      exact before
  | none =>
      rw [flat, Option.none_or] at before
      rw [Option.none_or]
      change (journal observe).Shows _ _ (observe (newLevels.deep.view key))
      rcases deep key with whole | same
      · rw [whole]
        exact (keeps.buffered key).shows_of_settles (settle key) fun mark member _ => high mark member
      · rw [same]
        exact before

/-- The table of a deepest level, settled. -/
theorem Keeps.cleanSelf (keeps : entry.Keeps observe history bound shown)
    (state : entry.state = .loaded) (deepest : entry.levels.deep.isNone = true) :
    (entry.setData entry.data.cleanSelf).Keeps observe history bound shown := by
  have covered := keeps.clean (by rw [state]; rfl)
  have nothingDeep (key : K) : entry.levels.deep.lookup key = none := by
    cases below : entry.levels.deep with
    | none => rfl
    | l1 blob => simp [below, DeepLevel.isNone] at deepest
    | sharded shards => simp [below, DeepLevel.isNone] at deepest
  refine ⟨⟨fun other => ?_, keeps.ok.emptyLevels, fun other => ?_⟩, fun key => ?_, keeps.clean⟩
  · cases state.symm.trans other
  · cases state.symm.trans other
  have buffered := keeps.buffered key
  refine ⟨buffered.ordered, buffered.unique, fun mark member => ?_, fun mark member high => ?_,
    fun mark member other inside above => ?_, fun high => ?_⟩
  · exact buffered.subset mark (IndexTable.latest_of_mem_overlay_cleanSelf member).1
  · exact absurd high (Nat.not_le.mpr (covered.below key mark member))
  · obtain ⟨held, newest⟩ := IndexTable.latest_of_mem_overlay_cleanSelf member
    have among := buffered.upward mark held other inside above
    rw [buffered.unique other inside mark (buffered.subset mark held)
      (le_antisymm (newest other among) above)]
    exact member
  · have nothing : entry.data.cleanSelf.overlay key = ∅ := by
      refine Set.eq_empty_iff_forall_notMem.mpr fun mark member => ?_
      have held := buffered.subset mark (IndexTable.latest_of_mem_overlay_cleanSelf member).1
      exact absurd ((covered.below key mark held).trans_le buffered.ordered)
        (Nat.not_lt.mpr (high mark member))
    have sameRead : (entry.setData entry.data.cleanSelf).under key = entry.get key := by
      rw [get_eq keeps.ok, Entry.under, beneath, beneath, setData, state]
      simp only [EntryState.coversL0, if_true, nothingDeep, Option.or_none]
      rw [← IndexTable.get_of_no_overlay nothing, IndexTable.readable_get_cleanSelf]
    rw [sameRead]
    exact keeps.shows_get (le_refl shown) fun mark member =>
      (covered.below key mark member).trans_le buffered.ordered

/-- A cell that stays in memory. -/
theorem Keeps.clearAfterFlush_of_kept {newLevels : IndexLevels K}
    (keeps : (entry.relevelled newLevels).Keeps observe history bound shown) {config : KsConfig K}
    (kept : (entry.state.isLoaded && config.unloadingDisabled) = true)
    (settle : Settle observe newLevels history bound shown) :
    (Entry.clearAfterFlush config entry newLevels bound).Keeps observe history bound shown := by
  unfold Entry.clearAfterFlush
  simp only [kept, if_true]
  split
  · exact keeps
  · rename_i processed
    have below := keeps.below (IndexTable.hasUnprocessed_eq_false_iff.mp
      (Bool.eq_false_iff.mpr processed))
    have settled : ({ entry with levels := newLevels, state := .loaded } : Entry K).Keeps observe
        history bound shown :=
      ⟨⟨nofun, nofun, nofun⟩, keeps.buffered, fun _ => settle.covered below⟩
    split
    · rename_i deepest
      exact settled.cleanSelf rfl deepest
    · exact settled

theorem Keeps.clearAfterFlush (keeps : entry.Keeps observe history bound shown)
    (dirty : entry.state.isDirty = true) (config : KsConfig K) {newLevels : IndexLevels K}
    (settle : Settle observe newLevels history bound shown)
    (deep : ∀ key, newLevels.deep.view key = newLevels.view key ∨
      newLevels.deep.view key = entry.levels.deep.view key) :
    (Entry.clearAfterFlush config entry newLevels bound).Keeps observe history bound shown := by
  cases kept : entry.state.isLoaded && config.unloadingDisabled with
  | false => exact keeps.clearAfterFlush_of_evicted kept settle
  | true =>
      have loaded : entry.state.coversL0 = true := by
        cases state : entry.state <;> simp_all [EntryState.isDirty, EntryState.isLoaded,
          EntryState.coversL0]
      exact (keeps.relevelled loaded settle deep).clearAfterFlush_of_kept kept settle

theorem Keeps.finishSyncFlush (keeps : entry.Keeps observe history bound shown)
    (config : KsConfig K) {newLevels : IndexLevels K}
    (settle : Settle observe newLevels history bound shown) :
    (Entry.finishSyncFlush config bound entry newLevels).Keeps observe history bound shown := by
  have same : ({ entry with lastProcessed := bound } : Entry K).Keeps observe history bound shown :=
    keeps.congr rfl rfl rfl
  unfold Entry.finishSyncFlush
  cases kept : config.unloadingDisabled && entry.state.isLoaded with
  | false =>
      simp only [kept, Bool.false_eq_true, if_false]
      exact same.clearAfterFlush_of_evicted (by rw [Bool.and_comm]; exact kept) settle
  | true =>
      simp only [kept, if_true]
      refine clearAfterFlush_of_kept (same.drained (ok_of_isDirty rfl) ?_ ?_ settle nofun)
        (by rw [Bool.and_comm]; exact kept) settle
      · exact fun key mark => IndexTable.mem_overlay_rebaseOnAsOf (data_loadL0 newLevels)
      · intro key
        rw [under_relevelled, setData, IndexTable.base, IndexTable.flat_rebaseOnAsOf]
        change readable ((newLevels.loadL0.base key).or _) = _
        rw [base_loadL0]
        rfl

/-- A flush completes over a table that changed since its request. -/
theorem Keeps.unmergeFlushed (keeps : entry.Keeps observe history bound shown)
    {original : IndexTable K}
    (follows : ∀ key, IndexTable.Follows bound original entry.data key)
    {newLevels : IndexLevels K} (settle : Settle observe newLevels history bound shown) :
    ({ entry.setData (entry.data.unmergeFlushed original bound) with
      levels := newLevels, state := .dirtyUnloaded } : Entry K).Keeps observe history bound
        shown := by
  refine keeps.drained (ok_of_isDirty rfl)
    (fun key mark => IndexTable.mem_overlay_unmergeFlushed (follows key)) (fun key => ?_) settle
    nofun
  rw [Entry.under, setData, IndexTable.base_unmergeFlushed (follows key)]
  rfl

/-- The levels beneath the table change, and what a reader finds there does not. -/
theorem Keeps.moved (keeps : entry.Keeps observe history bound shown)
    (nonempty : entry.state ≠ .empty) {newLevels : IndexLevels K}
    (views : ∀ key, newLevels.view key = entry.levels.view key)
    (beneath : ∀ key, readable (({ entry with levels := newLevels } : Entry K).beneath key) =
      readable (entry.beneath key)) :
    ({ entry with levels := newLevels } : Entry K).Keeps observe history bound shown where
  ok := ⟨fun state => absurd state nonempty, fun state => absurd state nonempty,
    keeps.ok.unloadedData⟩
  buffered := fun key => by
    have same : ({ entry with levels := newLevels } : Entry K).under key = entry.under key :=
      readable_or_congr fun _ => beneath key
    rw [same]
    exact keeps.buffered key
  clean := fun clean => ⟨(keeps.clean clean).below, fun key => by
    rw [views key]
    exact (keeps.clean clean).shows key⟩

/-- The blobs of a cell were written again. Writes may have come since. -/
theorem Keeps.updateRelocatedPosition (keeps : entry.Keeps observe history bound shown)
    {newLevels : IndexLevels K} {result : Entry K} (pending : entry.pendingLastProcessed = some bound)
    (completed : entry.updateRelocatedPosition newLevels = some result)
    (settle : Settle observe newLevels history bound shown)
    (views : ∀ key, newLevels.view key = entry.levels.view key)
    (deep : newLevels.deep.isSharded = true ∨ entry.levels.deep.isNone = true →
      ∀ key, newLevels.deep.view key = entry.levels.deep.view key) :
    result.Keeps observe history bound shown := by
  unfold Entry.updateRelocatedPosition at completed
  simp only [pending] at completed
  cases state : entry.state with
  | empty => simp [state] at completed
  | unloaded =>
      simp only [state, Option.some.injEq] at completed
      subst completed
      refine (keeps.moved (by simp [state]) views fun key => ?_).congr state.symm rfl rfl
      rw [beneath, beneath, state]
      exact views key
  | loaded =>
      simp only [state, Option.some.injEq] at completed
      subst completed
      have covered := keeps.clean (by rw [state]; rfl)
      refine keeps.drained ⟨by rintro ⟨⟩, by rintro ⟨⟩, fun _ => rfl⟩ (fun key mark => ?_)
        (fun key => rfl) settle fun _ key => IndexTable.overlay_empty key
      refine ⟨fun member => absurd member (by simp [setData]), ?_⟩
      rintro ⟨member, high⟩
      exact absurd high (Nat.not_le.mpr
        (covered.below key mark ((keeps.buffered key).subset mark member)))
  | dirtyUnloaded =>
      simp only [state, Option.some.injEq] at completed
      subst completed
      refine (keeps.moved (by simp [state]) views fun key => ?_).congr state.symm rfl rfl
      rw [beneath, beneath, state]
      exact views key
  | dirtyLoaded =>
      simp only [state] at completed
      split at completed
      · rename_i stays
        simp only [Option.some.injEq] at completed
        subst completed
        refine (keeps.moved (by simp [state]) views fun key => ?_).congr state.symm rfl rfl
        rw [beneath, beneath, state]
        exact deep (by simpa using stays) key
      · simp only [Option.some.injEq] at completed
        subst completed
        exact (keeps.evicted settle).congr rfl rfl rfl

end Entry

end Tidehunter.LargeTable
