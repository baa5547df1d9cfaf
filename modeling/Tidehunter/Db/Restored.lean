import Tidehunter.Db.Replay

/-!
# Databases read back from a snapshot

A snapshot that covers the whole log leaves nothing to replay: every cell is on disk.
Such a database is at rest as soon as what its blobs name are records of the log.
-/

namespace Tidehunter.Db

open Library Wal Index Flusher LargeTable

/-- A record on disk: its cell, its index key and its position. -/
structure StoredRecord where
  ref : CellReference
  key : Bytes
  position : WalPosition
  deriving DecidableEq, Repr

/-- One blob in each cell that has a record. -/
def storedLevels (stored : List StoredRecord) (ref : CellReference) : IndexLevels Bytes :=
  match stored.find? fun record => record.ref = ref with
  | some record => ⟨none, .l1 ⟨⟨0, 30⟩, SortedMap.empty.insert record.key record.position⟩⟩
  | none => IndexLevels.new

/-- The database of a snapshot taken at the end of the log. -/
def restored (config : Config) (cellRefs : List CellReference) (log : Log)
    (stored : List StoredRecord) : Db where
  config := config
  cellRefs := cellRefs
  cells ref := Entry.fromSnapshotData (storedLevels stored ref) log.position
  log := log
  latch := none
  lastProcessed := log.position
  indexWriter := ⟨log.layout, 64⟩
  controlRegion := ⟨log.position, storedLevels stored, fun _ => log.position⟩
  watermarks := ⟨none, 0, 0, none⟩

theorem view_storedLevels {stored : List StoredRecord} {ref : CellReference} {key : Bytes}
    {position : WalPosition} (found : (storedLevels stored ref).view key = some position) :
    ⟨ref, key, position⟩ ∈ stored := by
  unfold storedLevels at found
  split at found
  · rename_i record isRecord
    have member := List.mem_of_find?_eq_some isRecord
    have isRef : record.ref = ref := by
      simpa using List.find?_some isRecord
    change readable ((SortedMap.empty.insert record.key record.position).lookup key) = _ at found
    rw [SortedMap.lookup_insert, SortedMap.lookup_empty] at found
    split at found
    · rename_i isKey
      obtain ⟨isPosition, _⟩ := WalPosition.valid_eq_some_iff.mp found
      subst isRef isKey isPosition
      exact member
    · cases found
  · cases found

/-- What a stored record has to be for the database to be at rest. -/
def StoredRecord.Ok (config : Config) (log : Log) (stored : StoredRecord) : Prop :=
  stored.ref.cell = (config.keySpaces stored.ref.keyspace).cellId stored.key ∧
    log.minWalPosition ≤ stored.position.offset ∧
    (log.read stored.position).any (fun entry =>
      match entry with
      | .record _ key _ _ =>
          stored.position = WalPosition.ofEntry stored.position.offset entry ∧
            (config.keySpaces stored.ref.keyspace).reduceKey key = some stored.key
      | .remove _ _ => false
      | .batchStart _ => false
      | .compressedBatch _ _ => false
      | .dropCells _ _ _ _ => false) = true

instance (config : Config) (log : Log) (stored : StoredRecord) : Decidable (stored.Ok config log) :=
  inferInstanceAs (Decidable (_ ∧ _ ∧ _))

theorem atRest_restored {config : Config} {cellRefs : List CellReference} {log : Log}
    {stored : List StoredRecord} (ids : ∀ ks, (config.keySpaces ks).id = ks)
    (noCompactor : ∀ ks, (config.keySpaces ks).config.compactor = none) (nodup : cellRefs.Nodup)
    (listed : ∀ record ∈ stored, record.ref ∈ cellRefs)
    (plain : ∀ frame ∈ log.frames.entries, frame.2.isCompressedBatch = false)
    (ok : ∀ record ∈ stored, record.Ok config log) :
    (restored config cellRefs log stored).AtRest := by
  have shows : ∀ ref key frontier position,
      ((restored config cellRefs log stored).cells ref).getAt key frontier = some position →
        ⟨ref, key, position⟩ ∈ stored := by
    intro ref key frontier position found
    refine view_storedLevels ?_
    rw [← found, Entry.getAt]
    exact (Entry.probe_fromSnapshotData _ _ _ _).symm
  have live : ∀ ref key position,
      ((restored config cellRefs log stored).cells ref).get key = some position →
        ⟨ref, key, position⟩ ∈ stored := by
    intro ref key position found
    refine view_storedLevels ?_
    rw [← found, Entry.get]
    exact (Entry.probe_fromSnapshotData _ _ _ _).symm
  have framed : ∀ record ∈ stored, ∃ ks key value relocated,
      PointsAt log record.position (.record ks key value relocated) ∧
        (config.keySpaces record.ref.keyspace).reduceKey key = some record.key := by
    intro record member
    have holds := (ok record member).2.2
    cases isFrame : log.read record.position with
    | none => simp [isFrame] at holds
    | some entry =>
        rw [isFrame, Option.any_some] at holds
        cases entry with
        | record ks key value relocated =>
            have both := of_decide_eq_true holds
            exact ⟨ks, key, value, relocated, ⟨isFrame, both.1⟩, both.2⟩
        | remove _ _ => cases holds
        | batchStart _ => cases holds
        | compressedBatch _ _ => cases holds
        | dropCells _ _ _ _ => cases holds
  have noBatch : ∀ offset inner len, log.frames.lookup offset ≠ some (.compressedBatch inner len) :=
    fun offset inner len found => by cases plain _ (SortedMap.mem_entries_of_lookup found)
  refine ⟨fun ref => ?_, fun ref occupied => ?_, nodup, le_refl _, le_refl _, ids, noCompactor,
    fun ref key position found => ?_, fun ref key frontier position record found isRecord => ?_,
    fun _ => noBatch, fun offset inner len found => absurd found (noBatch offset inner len)⟩
  · exact Entry.quiescent_fromSnapshotData fun key position found =>
      (ok _ (view_storedLevels found)).2.1
  · change (Entry.fromSnapshotData (storedLevels stored ref) log.position).state ≠ .empty at occupied
    cases isRecord : stored.find? fun record => record.ref = ref with
    | none =>
        refine absurd ?_ occupied
        rw [storedLevels, isRecord]
        rfl
    | some record =>
        have isRef : record.ref = ref := by
          simpa using List.find?_some isRecord
        rw [← isRef]
        exact listed record (List.mem_of_find?_eq_some isRecord)
  · have member := live ref key position found
    obtain ⟨ks, full, value, relocated, points, _⟩ := framed _ member
    refine ⟨(ok _ member).1, _, points, (full, value), ?_⟩
    change readRecordForIndexedKey (config.keySpaces ref.keyspace) log position key = _
    rw [readRecordForIndexedKey, resolveRecordFrame, points.1]
  · obtain ⟨ks, full, value, relocated, points, reduced⟩ := framed _ (shows ref key frontier position found)
    change readRecordForIndexedKey (config.keySpaces ref.keyspace) log position key = _ at isRecord
    rw [readRecordForIndexedKey, resolveRecordFrame, points.1] at isRecord
    cases isRecord
    exact reduced

/-! ## Two records in two files -/

/-- Key spaces of two-byte keys, a cell for each key. -/
def plainSpaces (filter : Option RelocationFilter) : Config where
  keySpaces ks :=
    { id := ks
      keyIndexing := .fixed 2
      hashKey := id
      cellId := fun key => key.foldl (fun cell byte => 256 * cell + byte.val) 0
      config :=
        { l0MaxEntries := 100
          autoShardThreshold := none
          serializedLen := fun content => 20 * content.size
          compactor := none
          unloadingDisabled := false }
      relocationFilter := filter }
  batchCodec := false
  relocationMaxReclaimPct := 100
  relocationBatchMaxBytes := 128
  indexMinOccupancyPct := 0

theorem nothing_removed : ∀ file ∈ ([] : List Nat), file < WalLayout.small.locateFile 80 :=
  List.forall_mem_nil _

/-- One record in the first file, another in the second. -/
def twoFiles (first second : Bytes) : Log where
  layout := WalLayout.small
  frames := SortedMap.empty.insertAll
    [(0, .record 0 first [1] false), (64, .record 0 second [2] false)]
  position := 80
  removed := []
  frames_lt := by
    intro frame member
    rcases SortedMap.mem_insertEntry member with rfl | old
    · exact (by decide : 64 < 80)
    · rcases SortedMap.mem_insertEntry old with rfl | none
      · exact (by decide : 0 < 80)
      · cases none
  removed_lt := nothing_removed
  position_le := eighty_le_u64Max

/-- Key `[0, 0]` in the second file and another key, of a later cell, in the first. -/
def crossed (filter : Option RelocationFilter) (cellRefs : List CellReference) (cell : Nat)
    (key : Bytes) : Db :=
  restored (plainSpaces filter) cellRefs (twoFiles key [0, 0])
    [⟨⟨0, 0⟩, [0, 0], ⟨64, 15⟩⟩, ⟨⟨0, cell⟩, key, ⟨0, 15⟩⟩]

end Tidehunter.Db
