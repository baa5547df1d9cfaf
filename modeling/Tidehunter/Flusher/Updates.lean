import Tidehunter.Flusher.Result

/-!
# Index updates of a relocation run

A relocation run re-points index entries to the copies it wrote, one compare-and-set
for each key. An entry below the run's threshold is re-pointed, a newer one is left
alone. The update reaches the entry wherever it lies: in the merged `L0`, in `L1`, or in
the shard that covers its key.
-/

namespace Tidehunter.Flusher

open Library Wal Index

variable {K : Type} [LinearOrder K]

/-! ## Compare-and-set on a table -/

namespace RelocationUpdates

/-- The copy a run made for a key. The first update of a key wins: it raises the entry
above the threshold. -/
def target (updates : List (K × WalPosition)) (key : K) : Option WalPosition :=
  (updates.find? fun update => update.1 = key).map Prod.snd

/-- The entry of a key after the updates. -/
def movedEntry (lastProcessed : Nat) (target : Option WalPosition) (position : IndexWalPosition) :
    IndexWalPosition :=
  match target with
  | some copy => repoint lastProcessed copy position
  | none => position

/-- The position a reader finds after the updates. -/
def movedPosition (lastProcessed : Nat) (target : Option WalPosition) (position : WalPosition) :
    WalPosition :=
  match target with
  | some copy => if position.offset < lastProcessed then copy else position
  | none => position

@[simp]
theorem movedEntry_none (lastProcessed : Nat) : movedEntry lastProcessed none = id := rfl

@[simp]
theorem movedPosition_none (lastProcessed : Nat) : movedPosition lastProcessed none = id := rfl

/-- The copies are frames at or above the threshold. -/
structure Fresh (updates : RelocationUpdates K) : Prop where
  bounded : updates.lastProcessed ≤ u64Max
  above : ∀ update ∈ updates.updates, updates.lastProcessed ≤ update.2.offset
  valid : ∀ update ∈ updates.updates, update.2.isValid

omit [LinearOrder K] in
theorem Fresh.filter {updates : RelocationUpdates K} (fresh : updates.Fresh)
    (keep : K × WalPosition → Bool) :
    (⟨updates.lastProcessed, updates.updates.filter keep⟩ : RelocationUpdates K).Fresh :=
  ⟨fresh.bounded, fun update member => fresh.above update (List.mem_of_mem_filter member),
    fun update member => fresh.valid update (List.mem_of_mem_filter member)⟩

theorem mem_of_target {updates : List (K × WalPosition)} {key : K} {copy : WalPosition}
    (found : target updates key = some copy) : (key, copy) ∈ updates := by
  obtain ⟨update, located, rfl⟩ := Option.map_eq_some_iff.mp found
  have same : update.1 = key := by simpa using List.find?_some located
  rw [← same]
  exact List.mem_of_find?_eq_some located

theorem target_cons (update : K × WalPosition) (rest : List (K × WalPosition)) (key : K) :
    target (update :: rest) key = if update.1 = key then some update.2 else target rest key := by
  unfold target
  by_cases same : update.1 = key <;> simp [same]

/-- Filtering out the updates of other keys keeps the update of a key. -/
theorem target_filter {updates : List (K × WalPosition)} {keep : K → Bool} {key : K}
    (kept : keep key = true) : target (updates.filter fun update => keep update.1) key =
      target updates key := by
  induction updates with
  | nil => rfl
  | cons update rest ih =>
      cases keeps : keep update.1 with
      | true =>
          rw [List.filter_cons_of_pos (by simpa using keeps), target_cons, target_cons, ih]
      | false =>
          have other : update.1 ≠ key := by
            rintro rfl
            rw [kept] at keeps
            cases keeps
          rw [List.filter_cons_of_neg (by simpa using keeps), target_cons, if_neg other, ih]

theorem repoint_le {lastProcessed : Nat} {copy : WalPosition} (above : lastProcessed ≤ copy.offset)
    (position : IndexWalPosition) : position ≤ repoint lastProcessed copy position := by
  unfold repoint
  split
  · rename_i below
    exact le_of_lt (IndexWalPosition.lt_of_offset_lt (lt_of_lt_of_le below above))
  · exact le_refl _

@[simp]
theorem isRemoved_repoint (lastProcessed : Nat) (copy : WalPosition) (position : IndexWalPosition) :
    (repoint lastProcessed copy position).isRemoved = position.isRemoved := by
  unfold repoint
  split <;> rfl

/-! ## A list of updates -/

/-- The visible entry of a key after a list of updates. -/
theorem entry_apply {updates : RelocationUpdates K} (fresh : updates.Fresh) (table : IndexTable K)
    (key : K) :
    (updates.apply table).1.entry key =
      (table.entry key).map (movedEntry updates.lastProcessed (target updates.updates key)) := by
  obtain ⟨lastProcessed, list⟩ := updates
  suffices step : ∀ state : IndexTable K × Bool, (list.foldl
      (fun state update =>
        (state.1.applyUpdate update.1 (repoint lastProcessed update.2),
          state.2 || (state.1.entry update.1).any fun position => position.offset < lastProcessed))
      state).1.entry key =
        (state.1.entry key).map (movedEntry lastProcessed (target list key)) from step (table, false)
  have above := fresh.above
  induction list with
  | nil =>
      intro state
      simp [target]
  | cons update rest ih =>
      intro state
      have tailFresh : ∀ other ∈ rest, lastProcessed ≤ other.2.offset := fun other member =>
        above other (List.mem_cons_of_mem _ member)
      rw [List.foldl_cons, ih ⟨fresh.bounded, tailFresh, fun other member =>
        fresh.valid other (List.mem_cons_of_mem _ member)⟩ tailFresh,
        IndexTable.entry_applyUpdate (repoint_le (above update List.mem_cons_self)), target_cons]
      by_cases same : key = update.1
      · subst same
        simp only [if_true, Option.map_map]
        congr 1
        funext position
        simp only [Function.comp_apply, movedEntry]
        cases later : target rest update.1 with
        | none => rfl
        | some copy =>
            simp only
            -- the first update lifts the entry above the threshold of the later ones
            unfold repoint
            by_cases below : position.offset < lastProcessed
            · have high := above update List.mem_cons_self
              simp [below, IndexWalPosition.replaceWalPosition, Nat.not_lt.mpr high]
            · simp [below]
      · have different : ¬ update.1 = key := fun equal => same equal.symm
        simp [same, different]

theorem offset_le_movedEntry {updates : RelocationUpdates K} (fresh : updates.Fresh) (key : K)
    (position : IndexWalPosition) :
    position.offset ≤
      (movedEntry updates.lastProcessed (target updates.updates key) position).offset := by
  unfold movedEntry
  cases found : target updates.updates key with
  | none => exact le_refl _
  | some copy =>
      exact IndexWalPosition.offset_le_of_le
        (repoint_le (fresh.above _ (mem_of_target found)) position)

theorem offset_le_movedPosition {updates : RelocationUpdates K} (fresh : updates.Fresh) (key : K)
    (position : WalPosition) :
    position.offset ≤
      (movedPosition updates.lastProcessed (target updates.updates key) position).offset := by
  unfold movedPosition
  cases found : target updates.updates key with
  | none => exact le_refl _
  | some copy =>
      have above : updates.lastProcessed ≤ copy.offset := fresh.above _ (mem_of_target found)
      simp only
      split <;> omega

/-- A re-pointed entry reads as the copy; a tombstone stays one. -/
theorem readable_movedEntry {updates : RelocationUpdates K} (fresh : updates.Fresh) (key : K)
    (position : IndexWalPosition) :
    readable (some (movedEntry updates.lastProcessed (target updates.updates key)
        position).intoWalPosition) =
      (readable (some position.intoWalPosition)).map
        (movedPosition updates.lastProcessed (target updates.updates key)) := by
  cases found : target updates.updates key with
  | none => simp
  | some copy =>
      have valid := fresh.valid _ (mem_of_target found)
      have copied : readable (some copy) = some copy := readable_eq_some_iff.mpr ⟨rfl, valid⟩
      simp only [movedEntry]
      cases removed : position.isRemoved with
      | true =>
          have stays : (repoint updates.lastProcessed copy position).isRemoved = true := by
            rw [isRemoved_repoint, removed]
          simp [IndexWalPosition.intoWalPosition_of_isRemoved removed,
            IndexWalPosition.intoWalPosition_of_isRemoved stays]
      | false =>
          have stays : (repoint updates.lastProcessed copy position).isRemoved = false := by
            rw [isRemoved_repoint, removed]
          rw [IndexWalPosition.intoWalPosition_of_not_isRemoved removed,
            IndexWalPosition.intoWalPosition_of_not_isRemoved stays]
          by_cases below : position.offset < updates.lastProcessed
          · -- an offset below the threshold is not the sentinel
            have real : (⟨position.offset, position.len⟩ : WalPosition).isValid := by
              have small := lt_of_lt_of_le below fresh.bounded
              simp only [WalPosition.isValid, WalPosition.invalid, ne_eq, WalPosition.mk.injEq,
                decide_eq_true_eq, not_and]
              omega
            rw [readable_eq_some_iff.mpr ⟨rfl, real⟩, repoint, if_pos below]
            simpa [movedPosition, below, IndexWalPosition.replaceWalPosition] using copied
          · have unmoved : movedPosition updates.lastProcessed (some copy)
                ⟨position.offset, position.len⟩ = ⟨position.offset, position.len⟩ := by
              simp [movedPosition, below]
            rw [repoint, if_neg below]
            cases read : readable (some (⟨position.offset, position.len⟩ : WalPosition)) with
            | none => rfl
            | some found =>
                rw [Option.map_some, ← Option.some.inj (readable_eq_some_iff.mp read).1, unmoved]

/-- What a reader of the table finds after the updates. -/
theorem readable_get_apply {updates : RelocationUpdates K} (fresh : updates.Fresh)
    (table : IndexTable K) (key : K) :
    readable ((updates.apply table).1.get key) =
      (readable (table.get key)).map
        (movedPosition updates.lastProcessed (target updates.updates key)) := by
  rw [IndexTable.get, entry_apply fresh, IndexTable.get]
  cases table.entry key with
  | none => rfl
  | some position => exact readable_movedEntry fresh key position

/-- If no update re-pointed an entry, every updated key is at or above the threshold. -/
theorem le_offset_of_unchanged {updates : RelocationUpdates K} (fresh : updates.Fresh)
    {table : IndexTable K} (unchanged : (updates.apply table).2 = false) {key : K}
    {copy : WalPosition} (updated : target updates.updates key = some copy)
    {position : IndexWalPosition} (visible : table.entry key = some position) :
    updates.lastProcessed ≤ position.offset := by
  obtain ⟨lastProcessed, list⟩ := updates
  suffices step : ∀ state : IndexTable K × Bool, (list.foldl
      (fun state update =>
        (state.1.applyUpdate update.1 (repoint lastProcessed update.2),
          state.2 || (state.1.entry update.1).any fun position => position.offset < lastProcessed))
      state).2 = false → state.1.entry key = some position →
        state.2 = false ∧ lastProcessed ≤ position.offset from
    (step (table, false) unchanged visible).2
  clear unchanged visible
  have above := fresh.above
  have flag : ∀ (rest : List (K × WalPosition)) (state : IndexTable K × Bool), (rest.foldl
      (fun state update =>
        (state.1.applyUpdate update.1 (repoint lastProcessed update.2),
          state.2 || (state.1.entry update.1).any fun position => position.offset < lastProcessed))
      state).2 = false → state.2 = false := by
    intro rest
    induction rest with
    | nil => exact fun state done => done
    | cons update rest ih =>
        intro state done
        exact (Bool.or_eq_false_iff.mp (ih _ done)).1
  induction list with
  | nil => cases updated
  | cons update rest ih =>
      intro state done visible
      rw [List.foldl_cons] at done
      obtain ⟨clear, notBelow⟩ := Bool.or_eq_false_iff.mp (flag rest _ done)
      refine ⟨clear, ?_⟩
      rw [target_cons] at updated
      by_cases same : update.1 = key
      · rw [same, visible] at notBelow
        simpa using notBelow
      · rw [if_neg same] at updated
        have restFresh : (⟨lastProcessed, rest⟩ : RelocationUpdates K).Fresh :=
          ⟨fresh.bounded, fun other member => above other (List.mem_cons_of_mem _ member),
            fun other member => fresh.valid other (List.mem_cons_of_mem _ member)⟩
        refine (ih restFresh updated restFresh.above _ done ?_).2
        rw [IndexTable.entry_applyUpdate (repoint_le (above update List.mem_cons_self)),
          if_neg fun equal => same equal.symm, visible]

end RelocationUpdates

/-! ## Updates through the levels -/

/-- What a reader of a key sees lies at or above the lowest live position. -/
structure Floored (lowest : Nat) (merged : IndexTable K) (deep : DeepLevel K) (key : K) : Prop where
  upper : ∀ position, merged.entry key = some position → lowest ≤ position.offset
  lower : merged.entry key = none → ∀ position, deep.view key = some position →
    lowest ≤ position.offset

theorem containsKey_iff {table : IndexTable K} {key : K} :
    table.containsKey key = true ↔ table.entry key ≠ none := by
  unfold IndexTable.containsKey IndexTable.entry IndexTable.dataGetLatest SortedMap.contains
  cases table.data.lookup key <;> cases table.flat.lookup key <;> simp

theorem containsKey_eq_false_iff {table : IndexTable K} {key : K} :
    table.containsKey key = false ↔ table.entry key = none := by
  rw [← Bool.not_eq_true, containsKey_iff, not_not]

theorem entry_load (blob : Blob K) (key : K) :
    blob.load.entry key = (blob.content.lookup key).map IndexWalPosition.fromDisk := by
  have noData : blob.load.dataGetLatest key = none := rfl
  rw [IndexTable.entry, noData, Option.none_or, Blob.load, IndexTable.deserialize,
    SortedMap.lookup_filterMap]
  cases blob.content.lookup key <;> rfl

theorem get_load (blob : Blob K) (key : K) : blob.load.get key = blob.content.lookup key := by
  rw [IndexTable.get, entry_load]
  cases blob.content.lookup key <;> simp

/-- An entry decoded from disk is the sentinel or at the offset a reader finds. -/
theorem le_offset_fromDisk {lowest : Nat} (small : lowest ≤ u64Max) {position : WalPosition}
    (above : ∀ real, readable (some position) = some real → lowest ≤ real.offset) :
    lowest ≤ (IndexWalPosition.fromDisk position).offset := by
  unfold IndexWalPosition.fromDisk
  split
  · rename_i sentinel
    rw [sentinel]
    exact small
  · rename_i real
    exact above position (readable_eq_some_iff.mpr ⟨rfl, by simpa [WalPosition.isValid] using real⟩)

theorem get_retainAbovePosition_of_le {table : IndexTable K} {lowest : Nat} {key : K}
    (above : ∀ position, table.entry key = some position → lowest ≤ position.offset) :
    (table.retainAbovePosition lowest).get key = table.get key := by
  rw [IndexTable.get, IndexTable.get]
  cases visible : table.entry key with
  | none => rw [IndexTable.entry_retainAbovePosition_of_none visible]
  | some position =>
      rw [IndexTable.entry_retainAbovePosition_of_le visible (above position visible)]

section Shards

variable {config : KsConfig K} {minWalPosition : Nat} (merged : IndexTable K) (shards : Shards K)
variable {updates : RelocationUpdates K}

theorem fresh_shardWork (fresh : updates.Fresh) (owner : K) :
    (⟨updates.lastProcessed, shardWork merged shards updates owner⟩ : RelocationUpdates K).Fresh :=
  fresh.filter _

/-- A shard that covers a key the merged table does not hold gets the update of the key. -/
theorem target_shardWork {key : K} (absent : merged.entry key = none) {piece : K × IndexShard K}
    (covers : shards.shardEntryFor key = some piece) :
    RelocationUpdates.target (shardWork merged shards updates piece.1) key =
      RelocationUpdates.target updates.updates key := by
  refine @RelocationUpdates.target_filter K _ updates.updates (fun other =>
    !merged.containsKey other && (shards.shardEntryFor other).any fun owner => owner.1 = piece.1)
    key ?_
  simp [containsKey_eq_false_iff.mpr absent, covers]

theorem shardEntryFor_of_content {piece : K × IndexShard K} (member : piece ∈ shards.pieces)
    {key : K} {position : WalPosition}
    (found : readable (piece.2.blob.content.lookup key) = some position) :
    shards.shardEntryFor key = some piece := by
  obtain ⟨held, valid⟩ := readable_eq_some_iff.mp found
  exact Shards.shardEntryFor_eq_some_iff.mpr ⟨member, shards.bounded member held valid⟩

/-- A rewritten shard is its blob with the shard's updates applied. -/
theorem eq_apply_of_shardRewrite {owner : K} {table rewritten : IndexTable K}
    (isRewritten : shardRewrite merged shards updates owner table = some rewritten) :
    rewritten = (RelocationUpdates.apply
      ⟨updates.lastProcessed, shardWork merged shards updates owner⟩ table).1 := by
  unfold shardRewrite at isRewritten
  split at isRewritten
  · cases isRewritten
  · simp only at isRewritten
    split at isRewritten
    · exact (Option.some.inj isRewritten).symm
    · cases isRewritten

/-- A shard that is not rewritten has no update that applies. -/
theorem unchanged_of_shardRewrite {owner : K} {table : IndexTable K}
    (notRewritten : shardRewrite merged shards updates owner table = none) :
    (RelocationUpdates.apply
      ⟨updates.lastProcessed, shardWork merged shards updates owner⟩ table).2 = false := by
  unfold shardRewrite at notRewritten
  split at notRewritten
  · rename_i noWork
    rw [noWork]
    rfl
  · simp only at notRewritten
    split at notRewritten
    · cases notRewritten
    · rename_i unchanged
      simpa using unchanged

variable (fresh : updates.Fresh) (noCompactor : config.compactor = none)
variable (small : minWalPosition ≤ u64Max)

include fresh noCompactor small

/-- The processed table of a rewritten shard reads as the shard's blob, moved. -/
theorem readable_processL1Blob_shardRewrite {owner : K} {blob : Blob K} {rewritten : IndexTable K}
    (isRewritten : shardRewrite merged shards updates owner blob.load = some rewritten) {key : K}
    (above : ∀ position, readable (blob.content.lookup key) = some position →
      minWalPosition ≤ position.offset) :
    readable ((processL1Blob config minWalPosition rewritten).get key) =
      (readable (blob.content.lookup key)).map (RelocationUpdates.movedPosition
        updates.lastProcessed
        (RelocationUpdates.target (shardWork merged shards updates owner) key)) := by
  have workFresh := fresh_shardWork merged shards fresh owner
  rw [readable_get_processL1Blob, retained_of_no_compactor noCompactor, if_pos rfl,
    eq_apply_of_shardRewrite merged shards isRewritten, get_retainAbovePosition_of_le,
    RelocationUpdates.readable_get_apply workFresh, get_load]
  intro moved visible
  rw [RelocationUpdates.entry_apply workFresh, entry_load, Option.map_map] at visible
  obtain ⟨position, held, rfl⟩ := Option.map_eq_some_iff.mp visible
  rw [held] at above
  exact (le_offset_fromDisk small above).trans
    (RelocationUpdates.offset_le_movedEntry workFresh key _)

theorem shardRewrite_owned :
    ∀ piece ∈ shards.pieces, ∀ table,
      shardRewrite merged shards updates piece.1 piece.2.blob.load = some table → ∀ key position,
        readable ((processL1Blob config minWalPosition table).get key) = some position →
        ownerOf shards.pieces key = some piece.1 := by
  intro piece member table rewritten key position found
  cases content : readable (piece.2.blob.content.lookup key) with
  | some held => exact ownerOf_of_content shards member content
  | none =>
      rw [readable_processL1Blob_shardRewrite merged shards fresh noCompactor small rewritten
        (by simp [content]), content] at found
      cases found

/-- What a shard reads, after its updates, for a key the merged table does not hold. -/
theorem rewrittenView_shardRewrite {key : K} (absent : merged.entry key = none)
    {piece : K × IndexShard K} (member : piece ∈ shards.pieces)
    (above : ∀ position, readable (piece.2.blob.content.lookup key) = some position →
      minWalPosition ≤ position.offset) :
    rewrittenView config minWalPosition (shardRewrite merged shards updates) piece key =
      (readable (piece.2.blob.content.lookup key)).map (RelocationUpdates.movedPosition
        updates.lastProcessed (RelocationUpdates.target updates.updates key)) := by
  unfold rewrittenView
  cases content : readable (piece.2.blob.content.lookup key) with
  | none =>
      split
      · rename_i table rewritten
        rw [readable_processL1Blob_shardRewrite merged shards fresh noCompactor small rewritten above,
          content]
        rfl
      · rfl
  | some position =>
      have covers := shardEntryFor_of_content shards member content
      split
      · rename_i table rewritten
        rw [readable_processL1Blob_shardRewrite merged shards fresh noCompactor small rewritten above,
          content, target_shardWork merged shards absent covers]
      · rename_i notRewritten
        have unchanged := unchanged_of_shardRewrite merged shards notRewritten
        cases updated : RelocationUpdates.target updates.updates key with
        | none => rfl
        | some copy =>
            -- the entry is at or above the threshold, so the update passes it by
            rw [← target_shardWork merged shards absent covers] at updated
            obtain ⟨held, valid⟩ := readable_eq_some_iff.mp content
            have visible : piece.2.blob.load.entry key = some (IndexWalPosition.newClean position) := by
              rw [entry_load, held, Option.map_some, IndexWalPosition.fromDisk,
                if_neg (by simpa [WalPosition.isValid] using valid)]
            have high := RelocationUpdates.le_offset_of_unchanged
              (fresh_shardWork merged shards fresh piece.1) unchanged updated visible
            have notBelow : ¬ position.offset < updates.lastProcessed := Nat.not_lt.mpr high
            simp [RelocationUpdates.movedPosition, notBelow]

omit noCompactor small in
/-- The merged table of a sharded cell takes the updates of the keys it holds. -/
theorem entry_applyRelocationUpdatesSharded (writer : IndexWriter) (l0 : Option (Blob K)) (key : K) :
    (applyRelocationUpdatesSharded config minWalPosition writer merged ⟨l0, .sharded shards⟩ shards
        updates).2.1.entry key =
      (merged.entry key).map (RelocationUpdates.movedEntry updates.lastProcessed
        (RelocationUpdates.target updates.updates key)) := by
  have table : (applyRelocationUpdatesSharded config minWalPosition writer merged
      ⟨l0, .sharded shards⟩ shards updates).2.1 = (RelocationUpdates.apply ⟨updates.lastProcessed,
        updates.updates.filter fun update => merged.containsKey update.1⟩ merged).1 := by
    unfold applyRelocationUpdatesSharded
    simp only
    split <;> rfl
  rw [table, RelocationUpdates.entry_apply (fresh.filter _)]
  cases visible : merged.entry key with
  | none => rfl
  | some position =>
      have held : merged.containsKey key = true := containsKey_iff.mpr (by simp [visible])
      rw [RelocationUpdates.target_filter held]

/-- The shards take the updates of the other keys. -/
theorem view_applyRelocationUpdatesSharded (writer : IndexWriter) (l0 : Option (Blob K)) {key : K}
    (absent : merged.entry key = none)
    (above : ∀ position, (DeepLevel.sharded shards).view key = some position →
      minWalPosition ≤ position.offset) :
    (applyRelocationUpdatesSharded config minWalPosition writer merged ⟨l0, .sharded shards⟩ shards
        updates).2.2.deep.view key =
      ((DeepLevel.sharded shards).view key).map (RelocationUpdates.movedPosition
        updates.lastProcessed (RelocationUpdates.target updates.updates key)) := by
  obtain ⟨owner, member, owns⟩ := exists_ownerOf shards.sorted shards.nonempty key
  have content := view_sharded shards member owns
  unfold applyRelocationUpdatesSharded
  simp only
  split
  · rename_i noWork
    cases found : (DeepLevel.sharded shards).view key with
    | none => rfl
    | some position =>
        have covers := shardEntryFor_of_content shards member (content ▸ found)
        have nothing : shardWork merged shards updates owner.1 = [] := by
          simpa using List.all_eq_true.mp noWork owner member
        rw [← target_shardWork merged shards absent covers, nothing]
        rfl
  · rw [view_rewriteShards shards
      (shardRewrite_owned merged shards fresh noCompactor small) writer member owns,
      rewrittenView_shardRewrite merged shards fresh noCompactor small absent member
        (content ▸ above), content]

end Shards

section Relocation

variable (config : KsConfig K) {updates : RelocationUpdates K} (fresh : updates.Fresh)
variable (noCompactor : config.compactor = none)

include fresh noCompactor

omit noCompactor in
/-- Updates on the merge of a table over `L1`. -/
theorem applyRelocation_l1 {minWalPosition : Nat} (small : minWalPosition ≤ u64Max)
    (merged : IndexTable K) (blob : Blob K) {key : K}
    (floored : Floored minWalPosition merged (.l1 blob) key) :
    let table := (updates.apply (blob.load.mergeDirtyAndClean merged)).1
    readable ((table.get key).or (blob.content.lookup key)) =
        (readable ((merged.get key).or (blob.content.lookup key))).map
          (RelocationUpdates.movedPosition updates.lastProcessed
            (RelocationUpdates.target updates.updates key)) ∧
      Floored minWalPosition table (.l1 blob) key := by
  have entryIs : (blob.load.mergeDirtyAndClean merged).entry key =
      ((merged.entry key).map (IndexTable.demote true)).or
        ((blob.content.lookup key).map IndexWalPosition.fromDisk) := by
    rw [IndexTable.mergeDirtyAndClean, IndexTable.entry_mergeDirty rfl, ← entry_load]
    rfl
  have getIs : (blob.load.mergeDirtyAndClean merged).get key =
      (merged.get key).or (blob.content.lookup key) := by
    rw [IndexTable.mergeDirtyAndClean, IndexTable.get_mergeDirty rfl, ← get_load]
    rfl
  have absent : (updates.apply (blob.load.mergeDirtyAndClean merged)).1.entry key = none →
      blob.content.lookup key = none := by
    rw [RelocationUpdates.entry_apply fresh, Option.map_eq_none_iff, entryIs, Option.or_eq_none_iff]
    exact fun none => Option.map_eq_none_iff.mp none.2
  refine ⟨?_, ⟨?_, ?_⟩⟩
  · rw [← getIs, ← RelocationUpdates.readable_get_apply fresh]
    have bare := @readable_or_congr
      ((updates.apply (blob.load.mergeDirtyAndClean merged)).1.get key)
      (blob.content.lookup key) none fun none => by rw [absent (Option.map_eq_none_iff.mp none)]
    rw [bare, Option.or_none]
  · intro moved visible
    rw [RelocationUpdates.entry_apply fresh, entryIs] at visible
    obtain ⟨position, held, rfl⟩ := Option.map_eq_some_iff.mp visible
    refine le_trans ?_ (RelocationUpdates.offset_le_movedEntry fresh key position)
    cases upper : merged.entry key with
    | some newest =>
        rw [upper] at held
        obtain rfl := Option.some.inj held
        rw [IndexTable.offset_demote]
        exact floored.upper newest upper
    | none =>
        rw [upper] at held
        obtain ⟨found, isFound, rfl⟩ := Option.map_eq_some_iff.mp held
        refine le_offset_fromDisk small fun real isReal => floored.lower upper real ?_
        rw [DeepLevel.view, DeepLevel.lookup, isFound, isReal]
  · intro none real isReal
    rw [DeepLevel.view, DeepLevel.lookup, absent none] at isReal
    cases isReal

/-- After the updates a reader finds a key where its copy is, or where it was. -/
theorem applyRelocation_spec {minWalPosition : Nat} (small : minWalPosition ≤ u64Max)
    (writer : IndexWriter) (merged : IndexTable K) (levels : IndexLevels K) {key : K}
    (floored : Floored minWalPosition merged levels.deep key) :
    let result := applyRelocation config minWalPosition writer merged levels (.updates updates)
    readable ((result.2.1.get key).or (result.2.2.deep.lookup key)) =
        (readable ((merged.get key).or (levels.deep.lookup key))).map
          (RelocationUpdates.movedPosition updates.lastProcessed
            (RelocationUpdates.target updates.updates key)) ∧
      Floored minWalPosition result.2.1 result.2.2.deep key := by
  obtain ⟨l0, deep⟩ := levels
  cases deep with
  | none =>
      simp only [applyRelocation, DeepLevel.lookup, Option.or_none]
      refine ⟨RelocationUpdates.readable_get_apply fresh merged key, ⟨?_, by rintro _ _ ⟨⟩⟩⟩
      intro moved visible
      rw [RelocationUpdates.entry_apply fresh] at visible
      obtain ⟨position, held, rfl⟩ := Option.map_eq_some_iff.mp visible
      exact (floored.upper position held).trans
        (RelocationUpdates.offset_le_movedEntry fresh key position)
  | l1 blob => exact applyRelocation_l1 fresh small merged blob floored
  | sharded shards =>
      simp only [applyRelocation]
      have entryIs := @entry_applyRelocationUpdatesSharded K _ config minWalPosition merged shards
        updates fresh writer l0 key
      cases upper : merged.entry key with
      | some position =>
          rw [upper, Option.map_some] at entryIs
          refine ⟨?_, ⟨?_, ?_⟩⟩
          · rw [IndexTable.get, entryIs, IndexTable.get, upper]
            exact RelocationUpdates.readable_movedEntry fresh key position
          · intro moved visible
            rw [entryIs] at visible
            obtain rfl := Option.some.inj visible
            exact (floored.upper position upper).trans
              (RelocationUpdates.offset_le_movedEntry fresh key position)
          · intro none
            rw [entryIs] at none
            cases none
      | none =>
          rw [upper, Option.map_none] at entryIs
          have viewIs := view_applyRelocationUpdatesSharded merged shards fresh noCompactor small
            writer l0 upper (floored.lower upper)
          refine ⟨?_, ⟨?_, ?_⟩⟩
          · rw [IndexTable.get, entryIs, IndexTable.get, upper]
            exact viewIs
          · intro moved visible
            rw [entryIs] at visible
            cases visible
          · intro _ moved isMoved
            rw [viewIs] at isMoved
            obtain ⟨position, held, rfl⟩ := Option.map_eq_some_iff.mp isMoved
            exact (floored.lower upper position held).trans
              (RelocationUpdates.offset_le_movedPosition fresh key position)

end Relocation

/-! ## Writing floored tables -/

/-- A flush without compactor writes what a reader saw, where that lies above the floor. -/
theorem view_writeFiltered_of_floored {config : KsConfig K} (noCompactor : config.compactor = none)
    (view : LogView) (writer : IndexWriter) {merged : IndexTable K} {levels : IndexLevels K}
    (relocatePositions : List WalPosition) {key : K}
    (floored : Floored view.minWalPosition merged levels.deep key) :
    (writeFiltered config view writer (merged.retainAbovePosition view.minWalPosition) levels
        relocatePositions).2.view key =
      readable ((merged.get key).or (levels.deep.lookup key)) := by
  have kept : (merged.retainAbovePosition view.minWalPosition).get key = merged.get key :=
    get_retainAbovePosition_of_le floored.upper
  rw [view_writeFiltered]
  cases written : deepestTable config view (merged.retainAbovePosition view.minWalPosition) false
      levels.deep key with
  | none => simp only [runCompactor_of_no_compactor noCompactor, kept]
  | some table =>
      simp only [retained_of_no_compactor noCompactor, if_true]
      rw [readable_get_deepestTable config view _
        (IndexTable.allAbove_retainAbovePosition merged (le_refl _)) written, kept]
      refine readable_or_congr fun none => readable_ext fun position valid => ?_
      rw [Option.filter_eq_some_iff]
      refine ⟨fun both => both.1, fun found => ⟨found, ?_⟩⟩
      simpa using floored.lower (Option.map_eq_none_iff.mp none) position
        (readable_eq_some_iff.mpr ⟨found, valid⟩)

theorem handleCommand_updates (config : KsConfig K) (view : LogView) (writer : IndexWriter)
    (dirty : IndexTable K) (levels : IndexLevels K) (loaded : Bool)
    (relocatePositions : List WalPosition) (updates : RelocationUpdates K) :
    handleCommand config view writer (.flush dirty levels loaded relocatePositions)
        (.updates updates) =
      let result := applyRelocation config view.minWalPosition writer
        (flushedTable view dirty levels loaded) levels (.updates updates)
      let written := writeFiltered config view result.1
        (result.2.1.retainAbovePosition view.minWalPosition) result.2.2 relocatePositions
      (written.1, some (dirty, written.2)) := rfl

end Tidehunter.Flusher
