import Tidehunter.Flusher.Shards

/-!
# What a flush leaves on disk for one key

The levels a flush writes, seen by a reader of one key. A flush either writes a table
as the deepest level of the key's range, or writes an `L0` over the level beneath.
-/

namespace Tidehunter.Flusher

open Library Wal Index

variable {K : Type} [LinearOrder K]

/-! ## Compaction and the deepest level -/

/-- Whether a key survives the compactor of its key space. -/
def retained (config : KsConfig K) (table : IndexTable K) (key : K) : Bool :=
  match config.compactor with
  | some compactor => table.retainedBy compactor key
  | none => true

theorem retained_of_no_compactor {config : KsConfig K} (noCompactor : config.compactor = none)
    (table : IndexTable K) (key : K) : retained config table key = true := by
  simp [retained, noCompactor]

theorem runCompactor_of_no_compactor {config : KsConfig K} (noCompactor : config.compactor = none)
    (table : IndexTable K) : runCompactor config table = table := by
  simp [runCompactor, noCompactor]

theorem readable_get_runCompactor (config : KsConfig K) (table : IndexTable K) (key : K) :
    readable ((runCompactor config table).get key) =
      if retained config table key then readable (table.get key) else none := by
  unfold runCompactor retained
  cases config.compactor with
  | none => simp
  | some compactor => exact IndexTable.readable_get_compactWith table compactor key

theorem entry_runCompactor_of_none (config : KsConfig K) {table : IndexTable K} {key : K}
    (absent : table.entry key = none) : (runCompactor config table).entry key = none := by
  unfold runCompactor
  cases config.compactor with
  | none => exact absent
  | some compactor =>
      cases kept : table.retainedBy compactor key with
      | true => rw [IndexTable.entry_compactWith_of_retained kept, absent]
      | false =>
          rw [IndexTable.entry, Option.or_eq_none_iff] at absent
          rw [IndexTable.entry_compactWith_of_not_retained kept, absent.1, absent.2]
          rfl

theorem entry_runCompactor_of_retained {config : KsConfig K} {table : IndexTable K} {key : K}
    (kept : retained config table key = true) :
    (runCompactor config table).entry key = table.entry key := by
  unfold retained at kept
  unfold runCompactor
  cases compactor : config.compactor with
  | none => rfl
  | some keep =>
      simp only [compactor] at kept
      exact IndexTable.entry_compactWith_of_retained kept

theorem readable_get_processL1Blob (config : KsConfig K) (minWalPosition : Nat)
    (table : IndexTable K) (key : K) :
    readable ((processL1Blob config minWalPosition table).get key) =
      if retained config (table.retainAbovePosition minWalPosition) key then
        readable ((table.retainAbovePosition minWalPosition).get key)
      else none := by
  rw [processL1Blob, IndexTable.readable_get_cleanSelf, readable_get_runCompactor]

/-! ## Levels made of written pieces -/

theorem lookup_ofPieces {pieces : List (K × IndexShard K)} (ok : ShardsOk pieces) {key : K}
    {position : WalPosition} (valid : position.isValid) :
    (DeepLevel.ofPieces pieces).lookup key = some position ↔ Holds pieces key position := by
  unfold DeepLevel.ofPieces Shards.ofPieces
  by_cases nonempty : pieces ≠ []
  · rw [dif_pos ⟨nonempty, ok⟩]
    exact Shards.lookup_eq_some_iff valid
  · rw [dif_neg (fun both => nonempty both.1), not_not.mp nonempty]
    simp [DeepLevel.lookup, Holds]

theorem isNone_ofPieces {pieces : List (K × IndexShard K)} (ok : ShardsOk pieces) :
    (DeepLevel.ofPieces pieces).isNone = pieces.isEmpty := by
  unfold DeepLevel.ofPieces Shards.ofPieces
  cases pieces with
  | nil => rfl
  | cons piece rest =>
      rw [dif_pos ⟨List.cons_ne_nil piece rest, ok⟩]
      rfl

theorem view_writePromotedL1 (config : KsConfig K) (writer : IndexWriter) (table : IndexTable K)
    (key : K) :
    (writePromotedL1 config writer table).2.view key = readable (table.get key) := by
  have blobView : ∀ writer : IndexWriter,
      IndexLevels.view ⟨none, .l1 (writer.flush config table).2⟩ key = readable (table.get key) := by
    intro writer
    rw [IndexLevels.view_of_l0_none, DeepLevel.view, DeepLevel.lookup, IndexWriter.flush_content,
      IndexTable.lookup_serialize]
  unfold writePromotedL1
  cases config.autoShardThreshold with
  | none => exact blobView writer
  | some limit =>
      by_cases tooLong : limit < config.serializedLen table.serialize
      · have whole := flatten_splitRecursive config limit table.iter.entries
        have written := written_flushShardTables config writer
          (splitRecursive config limit table.iter.entries)
          (by rw [whole]; exact ascending_iter table)
        rw [whole] at written
        simp only [tooLong, if_true, IndexLevels.view_of_l0_none, DeepLevel.view]
        refine readable_ext fun position valid => ?_
        rw [lookup_ofPieces written.ok valid, written.holds key position valid, mem_iter_iff,
          readable_eq_some_iff]
        exact ⟨And.left, fun found => ⟨found, valid⟩⟩
      · simp only [tooLong, if_false]
        exact blobView writer

theorem l0_writePromotedL1 (config : KsConfig K) (writer : IndexWriter) (table : IndexTable K) :
    (writePromotedL1 config writer table).2.l0 = none := by
  unfold writePromotedL1
  split
  · split <;> rfl
  · rfl

/-! ## Rewritten shards -/

section Rewrite

variable {config : KsConfig K} {minWalPosition : Nat}
variable {rewrite : K → IndexTable K → Option (IndexTable K)} (shards : Shards K)
variable (owned : ∀ piece ∈ shards.pieces, ∀ table,
  rewrite piece.1 piece.2.blob.load = some table → ∀ key position,
    readable ((processL1Blob config minWalPosition table).get key) = some position →
    ownerOf shards.pieces key = some piece.1)

theorem ownerOf_of_content {piece : K × IndexShard K} (member : piece ∈ shards.pieces) {key : K}
    {position : WalPosition}
    (found : readable (piece.2.blob.content.lookup key) = some position) :
    ownerOf shards.pieces key = some piece.1 := by
  obtain ⟨held, valid⟩ := readable_eq_some_iff.mp found
  obtain ⟨low, high⟩ := shards.bounded member held valid
  exact ownerOf_inside member shards.disjoint low high

include owned

theorem ownerOf_of_rewrittenView {piece : K × IndexShard K} (member : piece ∈ shards.pieces)
    {key : K} {position : WalPosition}
    (found : rewrittenView config minWalPosition rewrite piece key = some position) :
    ownerOf shards.pieces key = some piece.1 := by
  unfold rewrittenView at found
  split at found
  · rename_i table rewritten
    exact owned piece member table rewritten key position found
  · exact ownerOf_of_content shards member found

/-- After a rewrite a key reads through the shard that owns it. -/
theorem view_rewriteShards (writer : IndexWriter) {owner : K × IndexShard K}
    (member : owner ∈ shards.pieces) {key : K}
    (owns : ownerOf shards.pieces key = some owner.1) :
    (DeepLevel.ofPieces
      (rewriteShards config minWalPosition rewrite writer shards.pieces).2).view key =
      rewrittenView config minWalPosition rewrite owner key := by
  obtain ⟨ok, _, holds⟩ := rewriteShards_spec shards owned writer List.suffix_rfl
  apply Option.ext
  intro position
  rw [DeepLevel.view, readable_eq_some_iff]
  constructor
  · rintro ⟨found, valid⟩
    obtain ⟨piece, inside, shown⟩ := (holds key position valid).mp ((lookup_ofPieces ok valid).mp found)
    have owned' := ownerOf_of_rewrittenView shards owned inside shown
    have sameStart : piece.1 = owner.1 := Option.some.inj (owned'.symm.trans owns)
    have same := shards.eq_of_start inside member sameStart
    exact same ▸ shown
  · intro shown
    have valid : position.isValid := by
      unfold rewrittenView at shown
      split at shown
      · exact (readable_eq_some_iff.mp shown).2
      · exact (readable_eq_some_iff.mp shown).2
    exact ⟨(lookup_ofPieces ok valid).mpr ((holds key position valid).mpr ⟨owner, member, shown⟩), valid⟩

end Rewrite

/-- The level read through the shard that owns a key. -/
theorem view_sharded (shards : Shards K) {owner : K × IndexShard K} (member : owner ∈ shards.pieces)
    {key : K} (owns : ownerOf shards.pieces key = some owner.1) :
    (DeepLevel.sharded shards).view key = readable (owner.2.blob.content.lookup key) := by
  apply Option.ext
  intro position
  rw [DeepLevel.view, readable_eq_some_iff, readable_eq_some_iff, DeepLevel.lookup]
  constructor
  · rintro ⟨found, valid⟩
    obtain ⟨piece, inside, held⟩ := (Shards.lookup_eq_some_iff valid).mp found
    have owned := ownerOf_of_content shards inside (readable_eq_some_iff.mpr ⟨held, valid⟩)
    have sameStart : piece.1 = owner.1 := Option.some.inj (owned.symm.trans owns)
    have same := shards.eq_of_start inside member sameStart
    exact ⟨same ▸ held, valid⟩
  · rintro ⟨held, valid⟩
    exact ⟨(Shards.lookup_eq_some_iff valid).mpr ⟨owner, member, held⟩, valid⟩

/-! ## Promoting into shards -/

theorem lookup_data_partitionFor (merged : IndexTable K) (pieces : List (K × IndexShard K))
    (placeholder : WalPosition) (owner key : K) :
    (partitionFor merged pieces placeholder owner).data.lookup key =
      (merged.get key).bind fun position =>
        if ownerOf pieces key = some owner then
          some (AscList.singleton (if position.isValid then IndexWalPosition.newModified position
            else IndexWalPosition.newRemoved placeholder))
        else none := by
  rw [partitionFor, SortedMap.lookup_filterMap, ← IndexTable.lookup_serialize]
  rfl

theorem dataGetLatest_partitionFor {merged : IndexTable K} {pieces : List (K × IndexShard K)}
    {placeholder : WalPosition} {owner key : K} (owns : ownerOf pieces key = some owner) :
    (partitionFor merged pieces placeholder owner).dataGetLatest key =
      (merged.get key).map fun position =>
        if position.isValid then IndexWalPosition.newModified position
        else IndexWalPosition.newRemoved placeholder := by
  rw [IndexTable.dataGetLatest, lookup_data_partitionFor]
  cases merged.get key <;> simp [owns]

theorem get_partitionFor (merged : IndexTable K) {pieces : List (K × IndexShard K)}
    (placeholder : WalPosition) {owner key : K} (owns : ownerOf pieces key = some owner) :
    (partitionFor merged pieces placeholder owner).get key = merged.get key := by
  have flat : (partitionFor merged pieces placeholder owner).flat.lookup key = none := rfl
  rw [IndexTable.get, IndexTable.entry, dataGetLatest_partitionFor owns, flat, Option.or_none]
  cases found : merged.get key with
  | none => rfl
  | some position =>
      by_cases valid : position.isValid
      · simp [valid]
      · have sentinel : position = WalPosition.invalid := by simpa [WalPosition.isValid] using valid
        simp [sentinel, WalPosition.isValid]

theorem entry_partitionFor_of_not_owner (merged : IndexTable K)
    {pieces : List (K × IndexShard K)} (placeholder : WalPosition) {owner key : K} (foreign : ownerOf pieces key ≠ some owner) :
    (partitionFor merged pieces placeholder owner).entry key = none := by
  have flat : (partitionFor merged pieces placeholder owner).flat.lookup key = none := rfl
  rw [IndexTable.entry, IndexTable.dataGetLatest, lookup_data_partitionFor, flat, Option.or_none]
  cases merged.get key <;> simp [foreign]

/-- A readable position of a table comes from an entry with that offset. -/
theorem offset_of_get {table : IndexTable K} {key : K} {position : WalPosition} {lowest : Nat}
    (above : table.AllAbove lowest) (found : table.get key = some position)
    (valid : position.isValid) : lowest ≤ position.offset := by
  obtain ⟨entry, visible, rfl⟩ := Option.map_eq_some_iff.mp found
  have present : entry.isRemoved = false := by
    cases removed : entry.isRemoved with
    | false => rfl
    | true =>
        rw [IndexWalPosition.intoWalPosition_of_isRemoved removed] at valid
        exact absurd valid (by decide)
  rw [IndexWalPosition.intoWalPosition_of_not_isRemoved present]
  rw [IndexTable.entry, Option.or_eq_some_iff] at visible
  rcases visible with latest | ⟨_, under⟩
  · exact (above key).1 entry latest
  · exact (above key).2 entry under

theorem allAbove_partitionFor {merged : IndexTable K} {lowest : Nat} (above : merged.AllAbove lowest)
    (pieces : List (K × IndexShard K)) (placeholder : WalPosition)
    (high : lowest ≤ placeholder.offset) (owner : K) :
    (partitionFor merged pieces placeholder owner).AllAbove lowest := by
  intro key
  refine ⟨fun entry latest => ?_, fun entry under => by cases under⟩
  by_cases owns : ownerOf pieces key = some owner
  · rw [dataGetLatest_partitionFor owns] at latest
    obtain ⟨position, found, rfl⟩ := Option.map_eq_some_iff.mp latest
    by_cases valid : position.isValid
    · rw [if_pos valid]
      exact offset_of_get above found valid
    · rw [if_neg valid]
      exact high
  · have absent := entry_partitionFor_of_not_owner merged placeholder owns
    rw [IndexTable.entry, latest] at absent
    cases absent

theorem partitionFor_isEmpty {merged : IndexTable K} {pieces : List (K × IndexShard K)}
    (placeholder : WalPosition) {owner key : K} (owns : ownerOf pieces key = some owner)
    (nothing : (partitionFor merged pieces placeholder owner).isEmpty = true) :
    merged.get key = none := by
  rw [← get_partitionFor merged placeholder owns]
  simp only [IndexTable.isEmpty, Bool.and_eq_true, SortedMap.isEmpty_iff] at nothing
  simp [IndexTable.get, IndexTable.entry, IndexTable.dataGetLatest, nothing.1 key, nothing.2 key]

/-- What the filtered merge of a shard reads comes from the fresher part or the shard. -/
theorem get_merge_cases (base : IndexTable K) {part : IndexTable K}
    (noData : base.data = SortedMap.empty)
    {lowest : Nat} {key : K} {position : WalPosition} (absent : part.entry key = none)
    (found : ((base.mergeDirtyAndClean part).retainAbovePosition lowest).get key = some position) :
    base.base key = some position := by
  rw [IndexTable.entry, Option.or_eq_none_iff] at absent
  have latest : (base.mergeDirtyAndClean part).dataGetLatest key = none := by
    rw [IndexTable.mergeDirtyAndClean, IndexTable.dataGetLatest,
      IndexTable.lookup_data_mergeDirty noData]
    have none : part.data.lookup key = none := by
      simpa [IndexTable.dataGetLatest] using absent.1
    simp [none]
  have flat : (base.mergeDirtyAndClean part).flat.lookup key = base.flat.lookup key := by
    rw [IndexTable.mergeDirtyAndClean, IndexTable.mergeDirty, SortedMap.lookup_merge _ _ _ _ rfl,
      absent.2]
    rfl
  rw [IndexTable.get, IndexTable.entry_retainAbovePosition, latest, flat] at found
  obtain ⟨entry, kept, rfl⟩ := Option.map_eq_some_iff.mp found
  have under : base.flat.lookup key = some entry ∧ lowest ≤ entry.offset := by simpa using kept
  simp [IndexTable.base, under.1]

/-- The offset filter on a loaded blob is the filter on its bindings. -/
theorem filter_load (blob : Blob K) (lowest : Nat) (key : K) :
    ((blob.load.flat.lookup key).filter fun position => lowest ≤ position.offset).map
        IndexWalPosition.intoWalPosition =
      (blob.content.lookup key).filter fun position => lowest ≤ position.offset := by
  have offset : ∀ position : WalPosition,
      (IndexWalPosition.fromDisk position).offset = position.offset := by
    intro position
    unfold IndexWalPosition.fromDisk
    split <;> rfl
  rw [Blob.load, IndexTable.deserialize, SortedMap.lookup_filterMap]
  cases blob.content.lookup key with
  | none => rfl
  | some position =>
      by_cases high : lowest ≤ position.offset
      · simp [Option.filter, offset, high]
      · simp [Option.filter, offset, high]

section Promote

variable (config : KsConfig K) (view : LogView) (merged : IndexTable K)

/-- Where a promote puts a tombstone in the log. -/
def tombstonePlaceholder (view : LogView) : WalPosition := ⟨max view.currentWalPosition 1, 1⟩

/-- The table a promote builds for one shard; none when the shard gets no key. -/
def promotedShard (shards : Shards K) (owner : K) (table : IndexTable K) : Option (IndexTable K) :=
  let part := partitionFor merged shards.pieces (tombstonePlaceholder view) owner
  if part.isEmpty then none else some (table.mergeDirtyAndClean part)

theorem promotedShard_owned (shards : Shards K) :
    ∀ piece ∈ shards.pieces, ∀ table,
      promotedShard view merged shards piece.1 piece.2.blob.load = some table → ∀ key position,
        readable ((processL1Blob config view.minWalPosition table).get key) = some position →
        ownerOf shards.pieces key = some piece.1 := by
  intro piece member table promoted key position found
  by_contra foreign
  have absent : (partitionFor merged shards.pieces (tombstonePlaceholder view) piece.1).entry key =
      none := entry_partitionFor_of_not_owner merged _ foreign
  have isTable : table = piece.2.blob.load.mergeDirtyAndClean
      (partitionFor merged shards.pieces (tombstonePlaceholder view) piece.1) := by
    simp only [promotedShard] at promoted
    split at promoted
    · cases promoted
    · exact (Option.some.inj promoted).symm
  rw [readable_get_processL1Blob] at found
  split at found
  · obtain ⟨read, valid⟩ := readable_eq_some_iff.mp found
    rw [isTable] at read
    have held := get_merge_cases piece.2.blob.load rfl absent read
    rw [Blob.load, IndexTable.base_deserialize] at held
    exact foreign (ownerOf_of_content shards member (readable_eq_some_iff.mpr ⟨held, valid⟩))
  · cases found

/-- The table a flush writes as the deepest level of a key's range, before compaction;
none when the range keeps the blobs it has. -/
def deepestTable (isRelocation : Bool) (deep : DeepLevel K) (key : K) : Option (IndexTable K) :=
  if !isRelocation && decide (config.l0MaxEntries < merged.len) then
    match deep with
    | .none =>
        some ((IndexTable.empty.mergeDirtyAndClean merged).retainAbovePosition view.minWalPosition)
    | .l1 blob =>
        some ((blob.load.mergeDirtyAndClean merged).retainAbovePosition view.minWalPosition)
    | .sharded shards =>
        (shards.pieces.find? fun piece => ownerOf shards.pieces key = some piece.1).bind
          fun piece => (promotedShard view merged shards piece.1 piece.2.blob.load).map
            fun table => table.retainAbovePosition view.minWalPosition
  else none

theorem view_writeShardedPromote (writer : IndexWriter) (shards : Shards K)
    {owner : K × IndexShard K} (member : owner ∈ shards.pieces) {key : K}
    (owns : ownerOf shards.pieces key = some owner.1) :
    (writeShardedPromote config view writer merged shards).2.view key =
      rewrittenView config view.minWalPosition (promotedShard view merged shards) owner key := by
  have rewritten := view_rewriteShards shards (promotedShard_owned config view merged shards) writer
    member owns
  have ok := (rewriteShards_spec shards (promotedShard_owned config view merged shards) writer
    List.suffix_rfl).1
  rw [← rewritten]
  unfold writeShardedPromote
  simp only
  split
  · rename_i written made
    change Shards.ofPieces (rewriteShards config view.minWalPosition
      (promotedShard view merged shards) writer shards.pieces).2 = some written at made
    simp [DeepLevel.ofPieces, made, IndexLevels.view_of_l0_none]
  · rename_i made
    change Shards.ofPieces (rewriteShards config view.minWalPosition
      (promotedShard view merged shards) writer shards.pieces).2 = none at made
    simp [DeepLevel.ofPieces, made, IndexLevels.view_of_l0_none, DeepLevel.view, DeepLevel.lookup,
      IndexTable.lookup_serialize]
    rfl

/-- The levels a flush writes, read at one key: the compacted deepest table of the key's
range, or the compacted `L0` over what lies beneath. -/
theorem view_writeLevels (writer : IndexWriter) (isRelocation : Bool) (levels : IndexLevels K)
    (key : K) :
    (writeLevels config view writer isRelocation merged levels).2.view key =
      match deepestTable config view merged isRelocation levels.deep key with
      | some table => if retained config table key then readable (table.get key) else none
      | none => readable (((runCompactor config merged).get key).or (levels.deep.lookup key)) := by
  unfold writeLevels deepestTable
  by_cases promotes : (!isRelocation && decide (config.l0MaxEntries < merged.len)) = true
  · simp only [promotes, if_true]
    cases levels.deep with
    | none => rw [view_writePromotedL1, readable_get_processL1Blob]
    | l1 blob => rw [view_writePromotedL1, readable_get_processL1Blob]
    | sharded shards =>
        obtain ⟨owner, member, owns⟩ := exists_ownerOf shards.sorted shards.nonempty key
        have found : (shards.pieces.find? fun piece => ownerOf shards.pieces key = some piece.1) =
            some owner := by
          cases located : shards.pieces.find? fun piece => ownerOf shards.pieces key = some piece.1 with
          | none =>
              have rejected := List.find?_eq_none.mp located owner member
              simp [owns] at rejected
          | some other =>
              have matched := List.find?_some located
              simp only [owns, Option.some.injEq, decide_eq_true_eq] at matched
              rw [shards.eq_of_start (List.mem_of_find?_eq_some located) member matched.symm]
        simp only [view_writeShardedPromote config view merged writer shards member owns, found,
          Option.bind_some, rewrittenView]
        cases promoted : promotedShard view merged shards owner.1 owner.2.blob.load with
        | some table => simp [readable_get_processL1Blob]
        | none =>
            have nothing : merged.get key = none := by
              apply partitionFor_isEmpty (tombstonePlaceholder view) owns
              simp only [promotedShard] at promoted
              split at promoted
              · assumption
              · cases promoted
            have compacted : (runCompactor config merged).get key = none := by
              have entryNone : merged.entry key = none := Option.map_eq_none_iff.mp nothing
              exact Option.map_eq_none_iff.mpr (entry_runCompactor_of_none config entryNone)
            simp only [Option.map_none, compacted, Option.none_or]
            exact (view_sharded shards member owns).symm
  · simp only [promotes]
    by_cases dropped : (merged.isEmpty && !levels.deep.isNone) = true
    · have noEntry : merged.entry key = none := by
        simp only [Bool.and_eq_true, IndexTable.isEmpty, SortedMap.isEmpty_iff] at dropped
        simp [IndexTable.entry, IndexTable.dataGetLatest, dropped.1.1 key, dropped.1.2 key]
      have compacted : (runCompactor config merged).get key = none :=
        Option.map_eq_none_iff.mpr (entry_runCompactor_of_none config noEntry)
      simp [dropped, compacted, IndexLevels.view_of_l0_none, DeepLevel.view]
    · simp only [dropped]
      cases deep : levels.deep with
      | none =>
          simp [DeepLevel.isNone, IndexLevels.view, IndexLevels.lookup, IndexLevels.lookupL0,
            DeepLevel.lookup, IndexTable.readable_get_cleanSelf]
      | l1 blob =>
          simp [DeepLevel.isNone, IndexLevels.view, IndexLevels.lookup, IndexLevels.lookupL0]
      | sharded shards =>
          simp [DeepLevel.isNone, IndexLevels.view, IndexLevels.lookup, IndexLevels.lookupL0]

/-- A flush leaves the level below `L0` as it is, or leaves no `L0`. -/
theorem deep_writeLevels (writer : IndexWriter) (isRelocation : Bool) (levels : IndexLevels K) :
    (writeLevels config view writer isRelocation merged levels).2.l0 = none ∨
      (writeLevels config view writer isRelocation merged levels).2.deep = levels.deep := by
  unfold writeLevels
  split
  · left
    cases levels.deep with
    | none => exact l0_writePromotedL1 config writer _
    | l1 blob => exact l0_writePromotedL1 config writer _
    | sharded shards =>
        simp only [writeShardedPromote]
        split <;> rfl
  · split
    · exact Or.inl rfl
    · exact Or.inr rfl

/-- Reading the deepest table: the flushed entry, or what lay beneath at or above the
lowest live position. -/
theorem readable_get_deepestTable (above : merged.AllAbove view.minWalPosition)
    {isRelocation : Bool} {deep : DeepLevel K} {key : K} {table : IndexTable K}
    (written : deepestTable config view merged isRelocation deep key = some table) :
    readable (table.get key) =
      readable ((merged.get key).or
        ((deep.lookup key).filter fun position => view.minWalPosition ≤ position.offset)) := by
  unfold deepestTable at written
  split at written
  · cases deep with
    | none =>
        cases written
        rw [IndexTable.mergeDirtyAndClean,
          IndexTable.get_retainAbovePosition_mergeDirty rfl above]
        rfl
    | l1 blob =>
        cases written
        rw [IndexTable.mergeDirtyAndClean,
          IndexTable.get_retainAbovePosition_mergeDirty rfl above, filter_load]
        rfl
    | sharded shards =>
        obtain ⟨owner, located, promoted⟩ := Option.bind_eq_some_iff.mp written
        obtain ⟨built, isBuilt, rfl⟩ := Option.map_eq_some_iff.mp promoted
        have owns : ownerOf shards.pieces key = some owner.1 := by
          simpa using List.find?_some located
        have partAbove := allAbove_partitionFor above shards.pieces (tombstonePlaceholder view)
          (le_trans view.min_le_current (le_max_left _ _)) owner.1
        have isMerge : built = owner.2.blob.load.mergeDirtyAndClean
            (partitionFor merged shards.pieces (tombstonePlaceholder view) owner.1) := by
          simp only [promotedShard] at isBuilt
          split at isBuilt
          · cases isBuilt
          · exact (Option.some.inj isBuilt).symm
        rw [isMerge, IndexTable.mergeDirtyAndClean,
          IndexTable.get_retainAbovePosition_mergeDirty rfl partAbove, get_partitionFor _ _ owns,
          filter_load]
        refine readable_or_congr fun _ => ?_
        have same := view_sharded shards (List.mem_of_find?_eq_some located) owns
        refine readable_ext fun position valid => ?_
        rw [Option.filter_eq_some_iff, Option.filter_eq_some_iff]
        have agree : (DeepLevel.sharded shards).lookup key = some position ↔
            owner.2.blob.content.lookup key = some position := by
          have both := congrArg (· = some position) same
          simpa [DeepLevel.view, readable_eq_some_iff, valid] using both
        rw [agree]
  · cases written

end Promote

/-! ## Moving blobs -/

theorem serialize_load (blob : Blob K) : blob.load.serialize = blob.content := by
  apply SortedMap.ext_lookup
  intro key
  rw [IndexTable.lookup_serialize, Blob.load,
    IndexTable.get_of_no_overlay (IndexTable.overlay_deserialize _ key), IndexTable.base_deserialize]

@[simp]
theorem content_reflushBlob (config : KsConfig K) (relocatePositions : List WalPosition)
    (writer : IndexWriter) (blob : Blob K) :
    (reflushBlob config relocatePositions writer blob).2.content = blob.content := by
  unfold reflushBlob
  split
  · rw [IndexWriter.flush_content, serialize_load]
  · rfl

/-- A shard moved to another place in the index log. -/
def Moved (moved piece : K × IndexShard K) : Prop :=
  moved.1 = piece.1 ∧ moved.2.maxKey = piece.2.maxKey ∧
    moved.2.blob.content = piece.2.blob.content

theorem reflushPieces_spec (config : KsConfig K) (relocatePositions : List WalPosition)
    (writer : IndexWriter) (pieces : List (K × IndexShard K)) :
    List.Forall₂ Moved (reflushPieces config relocatePositions writer pieces).2 pieces := by
  induction pieces generalizing writer with
  | nil => exact List.Forall₂.nil
  | cons piece rest ih =>
      exact List.Forall₂.cons ⟨rfl, rfl, content_reflushBlob config relocatePositions writer _⟩ (ih _)

theorem shardsOk_of_moved {moved pieces : List (K × IndexShard K)}
    (same : List.Forall₂ Moved moved pieces) (ok : ShardsOk pieces) : ShardsOk moved := by
  induction same with
  | nil => exact ok
  | @cons first second rest later agree tail ih =>
      obtain ⟨start, bound, content⟩ := agree
      obtain ⟨sorted, bounded, disjoint⟩ := ok
      obtain ⟨sortedHead, sortedTail⟩ := List.pairwise_cons.mp sorted
      obtain ⟨disjointHead, disjointTail⟩ := List.pairwise_cons.mp disjoint
      have tailOk := ih ⟨sortedTail, fun piece member => bounded piece (List.mem_cons_of_mem _ member),
        disjointTail⟩
      have starts : ∀ piece ∈ rest, ∃ other ∈ later, piece.1 = other.1 := by
        intro piece member
        have sameStarts : rest.map Prod.fst = later.map Prod.fst := by
          rw [← List.forall₂_eq_eq_eq, List.forall₂_map_left_iff, List.forall₂_map_right_iff]
          exact tail.imp fun _ _ agree => agree.1
        have inside : piece.1 ∈ rest.map Prod.fst := List.mem_map_of_mem member
        rw [sameStarts] at inside
        obtain ⟨other, found, same⟩ := List.mem_map.mp inside
        exact ⟨other, found, same.symm⟩
      refine ⟨List.pairwise_cons.mpr ⟨?_, tailOk.1⟩, ?_, List.pairwise_cons.mpr ⟨?_, tailOk.2.2⟩⟩
      · intro piece member
        obtain ⟨other, inside, sameStart⟩ := starts piece member
        rw [start, sameStart]
        exact sortedHead other inside
      · intro piece member
        rcases List.mem_cons.mp member with rfl | inRest
        · rw [start, bound, content]
          exact bounded second List.mem_cons_self
        · exact tailOk.2.1 piece inRest
      · intro piece member
        obtain ⟨other, inside, sameStart⟩ := starts piece member
        rw [bound, sameStart]
        exact disjointHead other inside

theorem holds_of_moved {moved pieces : List (K × IndexShard K)}
    (same : List.Forall₂ Moved moved pieces) (key : K) (position : WalPosition) :
    Holds moved key position ↔ Holds pieces key position := by
  induction same with
  | nil => rfl
  | cons agree _ ih =>
      have content := agree.2.2
      simp only [Holds, List.mem_cons, exists_eq_or_imp] at ih ⊢
      rw [ih, content]

theorem lookupL0_relocateInLevels (config : KsConfig K) (writer : IndexWriter)
    (levels : IndexLevels K) (relocatePositions : List WalPosition) (key : K) :
    (relocateInLevels config writer levels relocatePositions).2.lookupL0 key =
      levels.lookupL0 key := by
  unfold relocateInLevels
  obtain ⟨l0, deep⟩ := levels
  split
  · rfl
  · cases l0 <;> cases deep <;> simp [IndexLevels.lookupL0]

/-- Moving the blobs of shards keeps them as they read. -/
theorem deep_reflushPieces (config : KsConfig K) (relocatePositions : List WalPosition)
    (writer : IndexWriter) (shards : Shards K) (key : K) :
    (DeepLevel.ofPieces (reflushPieces config relocatePositions writer shards.pieces).2).view key =
        (DeepLevel.sharded shards).view key ∧
      (DeepLevel.ofPieces (reflushPieces config relocatePositions writer shards.pieces).2).isNone =
        (DeepLevel.sharded shards).isNone := by
  have moved := reflushPieces_spec config relocatePositions writer shards.pieces
  have ok := shardsOk_of_moved moved shards.ok
  refine ⟨?_, ?_⟩
  · refine readable_ext fun position valid => ?_
    exact (lookup_ofPieces ok valid).trans ((holds_of_moved moved key position).trans
      (Shards.lookup_eq_some_iff valid).symm)
  · refine (isNone_ofPieces ok).trans ?_
    rw [List.isEmpty_eq_false_iff.mpr]
    · rfl
    · intro nothing
      rw [nothing, List.forall₂_nil_left_iff] at moved
      exact shards.nonempty moved

/-- Moving blobs keeps what lies below `L0` as it reads. -/
theorem deep_relocateInLevels (config : KsConfig K) (writer : IndexWriter)
    (levels : IndexLevels K) (relocatePositions : List WalPosition) (key : K) :
    (relocateInLevels config writer levels relocatePositions).2.deep.view key =
        levels.deep.view key ∧
      (relocateInLevels config writer levels relocatePositions).2.deep.isNone =
        levels.deep.isNone := by
  obtain ⟨l0, deep⟩ := levels
  unfold relocateInLevels
  split
  · exact ⟨rfl, rfl⟩
  · cases deep with
    | none => exact ⟨rfl, rfl⟩
    | l1 blob => exact ⟨by simp [DeepLevel.view, DeepLevel.lookup], rfl⟩
    | sharded shards => exact deep_reflushPieces config relocatePositions _ shards key

theorem view_relocateInLevels (config : KsConfig K) (writer : IndexWriter)
    (levels : IndexLevels K) (relocatePositions : List WalPosition) (key : K) :
    (relocateInLevels config writer levels relocatePositions).2.view key = levels.view key := by
  rw [IndexLevels.view, IndexLevels.lookup, lookupL0_relocateInLevels, IndexLevels.view,
    IndexLevels.lookup]
  exact readable_or_congr fun _ =>
    (deep_relocateInLevels config writer levels relocatePositions key).1

end Tidehunter.Flusher
