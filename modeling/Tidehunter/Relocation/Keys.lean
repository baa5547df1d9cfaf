import Tidehunter.Relocation.WalRun
import Tidehunter.Db.Restored
import Mathlib

/-!
# Keys of relocated records

The WAL-based run copies a record under the key of the frame it read. The index-based
run copies it under the key of the index entry, which is the full key only where the key
space indexes records under their full keys.
-/

namespace Tidehunter.Db

open Library Wal Index Flusher LargeTable

/-- Every user key reads as before; the frames a run wrote are the records below the limit
under their full keys, and each index key moved to the copy of its record. -/
structure KeepsKeys (db final : Db) (refs : List CellReference) (frontier limit : Nat) : Prop where
  reads : ∀ ks user, final.get ks user = db.get ks user
  frames : final.log.frames.entries.map Prod.snd = db.log.frames.entries.map Prod.snd ++
    refs.flatMap (fullCopies db frontier limit)
  moved : ∀ ref ∈ refs, ∀ key position, (db.cells ref).get key = some position →
    position.offset < limit → MovedToCopy db final limit ref key

/-- Every record of a cell that a run would copy is stored under its own index key. -/
def FullKeys (db : Db) (limit : Nat) (ref : CellReference) : Prop :=
  ∀ key position record, (db.cells ref).getAt key limit = some position → position.offset < limit →
    readRecordForIndexedKey (db.keySpaces ref.keyspace) db.log position key = some record →
    record.1 = key

/-! ## The WAL-based run -/

section WalBased

variable {db final : Db} (rest : db.AtRest) {target : Nat} (done : RelocatedBelow db final target)

include rest done

theorem get_of_relocatedBelow (ks : Nat) (user : Bytes) : final.get ks user = db.get ks user := by
  have sameLocate : final.locate ks user = db.locate ks user := by
    rw [locate, keySpaces, done.config]
    rfl
  cases located : db.locate ks user with
  | none => rw [get, sameLocate, located, get, located]; rfl
  | some place =>
      obtain ⟨ref, key⟩ := place
      obtain ⟨rfl, reduced⟩ := locate_eq_some located
      rw [get_of_locate (sameLocate.trans located), get_of_locate located, keySpaces, batchCodec,
        done.config]
      have carried : ∀ position record copy, (db.cells ref).get key = some position →
          readRecordForIndexedKey (db.keySpaces ref.keyspace) db.log position key = some record →
          (final.cells ref).get key = some copy →
          PointsAt final.log copy (copyFrame ref.keyspace record) →
          ((final.cells ref).get key).bind (readRecordCheckKey (db.config.keySpaces ref.keyspace)
            db.config.batchCodec final.log user) = ((db.cells ref).get key).bind
              (readRecordCheckKey (db.keySpaces ref.keyspace) db.batchCodec db.log user) := by
        intro position record copy live isRecord isAt points
        obtain ⟨_, frame, framed, _⟩ := rest.records ref key position live
        rw [isAt, live, Option.bind_some, Option.bind_some, ← copyValue_full rest framed isRecord reduced]
        exact readRecordCheckKey_copy points
      rcases done.keys ref key with same | ⟨position, record, copy, live, _, isRecord, isAt, points, _⟩
      · cases live : (db.cells ref).get key with
        | none => rw [same, live]; rfl
        | some position =>
            by_cases below : position.offset < target
            · obtain ⟨at_, record, copy, isLive, _, isRecord, isAt, points, _⟩ :=
                done.moved ref key position live below
              rw [← live]
              exact carried at_ record copy isLive isRecord isAt points
            · obtain ⟨_, frame, framed, _⟩ := rest.records ref key position live
              have inLog := Log.lookup_lt (Log.read_eq_some_iff.mp framed.1).2
              rw [same, live, Option.bind_some, Option.bind_some]
              exact readRecordCheckKey_congr _ _ (done.reads position (Nat.not_lt.mp below) inLog) user
      · exact carried position record copy live isRecord isAt points

theorem keepsKeys_of_relocatedBelow : KeepsKeys db final db.cellRefs db.lastProcessed target :=
  ⟨get_of_relocatedBelow rest done, done.frames, fun ref _ => done.moved ref⟩

end WalBased

/-! ## The index-based run -/

theorem eq_of_filterMap_eq {α β : Type} {items : List α} {read : α → Option β} {change : α → β → β}
    (same : items.filterMap (fun item => (read item).map (change item)) = items.filterMap read) :
    ∀ item ∈ items, ∀ result, read item = some result → change item result = result := by
  induction items with
  | nil => exact nofun
  | cons first rest ih =>
      rw [List.filterMap_cons, List.filterMap_cons] at same
      intro item member result isResult
      cases isFirst : read first with
      | none =>
          rw [isFirst] at same
          rcases List.mem_cons.mp member with rfl | later
          · rw [isFirst] at isResult
            cases isResult
          · exact ih same item later result isResult
      | some found =>
          rw [isFirst] at same
          obtain ⟨head, tail⟩ := List.cons.inj same
          rcases List.mem_cons.mp member with rfl | later
          · rw [isFirst] at isResult
            cases isResult
            exact head
          · exact ih tail item later result isResult

theorem length_filterMap_map {α β : Type} (items : List α) (read : α → Option β) (change : α → β → β) :
    (items.filterMap fun item => (read item).map (change item)).length =
      (items.filterMap read).length := by
  induction items with
  | nil => rfl
  | cons first rest ih =>
      rw [List.filterMap_cons, List.filterMap_cons]
      cases read first with
      | none => exact ih
      | some found => exact congrArg (· + 1) ih

theorem eq_of_flatMap_eq {α β : Type} {items : List α} {first second : α → List β}
    (lengths : ∀ item, (first item).length = (second item).length)
    (same : items.flatMap first = items.flatMap second) : ∀ item ∈ items, first item = second item := by
  induction items with
  | nil => exact nofun
  | cons head rest ih =>
      rw [List.flatMap_cons, List.flatMap_cons] at same
      obtain ⟨heads, tails⟩ := List.append_inj same (lengths head)
      intro item member
      rcases List.mem_cons.mp member with rfl | later
      · exact heads
      · exact ih tails item later

theorem copyFrame_injective (ks : Nat) : Function.Injective (copyFrame ks) := by
  rintro ⟨key, value⟩ ⟨key', value'⟩ same
  simp only [copyFrame, WalEntry.record.injEq] at same
  exact Prod.ext same.2.1 same.2.2.1

/-- Without a filter, the batch of a cell has every record of it below the limit, under
its index key. -/
theorem batch_of_no_filter {db : Db} (noFilter : ∀ ks, (db.keySpaces ks).relocationFilter = none)
    (limit : Nat) (ref : CellReference) :
    (processSingleCell db ref limit).batch = ((db.cells ref).asOfView limit).filterMap
      fun binding => (fullRecord (db.keySpaces ref.keyspace) db.log limit binding).map
        fun record => (binding.1, record.2) := by
  have keeps : ∀ key value, (db.keySpaces ref.keyspace).decide key value = .keep := by
    intro key value
    rw [KeySpaceDesc.decide, noFilter]
  have answers : ∀ binding, asked (db.keySpaces ref.keyspace) db.log limit binding =
      (fullRecord (db.keySpaces ref.keyspace) db.log limit binding).map
        fun record => (record.2, .keep) := by
    intro binding
    unfold asked fullRecord
    by_cases high : limit ≤ binding.2.offset
    · rw [if_pos high, if_neg (Nat.not_lt.mpr high)]
      rfl
    · rw [if_neg high, if_pos (Nat.not_le.mp high)]
      simp [keeps]
  have all : reached (db.keySpaces ref.keyspace) db.log limit ((db.cells ref).asOfView limit) =
      (db.cells ref).asOfView limit := by
    refine List.takeWhile_eq_self_iff.mpr fun binding _ => ?_
    rw [answers]
    cases fullRecord (db.keySpaces ref.keyspace) db.log limit binding <;> rfl
  have each : kept (db.keySpaces ref.keyspace) db.log limit = fun binding =>
      (fullRecord (db.keySpaces ref.keyspace) db.log limit binding).map
        fun record => (binding.1, record.2) := by
    funext binding
    rw [kept, answers]
    cases fullRecord (db.keySpaces ref.keyspace) db.log limit binding <;> rfl
  rw [processSingleCell, batch_processEntries, all, each]
  rfl

/-- The frames of a batch are full copies exactly if every record is under its own key. -/
theorem batch_frames_eq_iff {db : Db} (rest : db.AtRest)
    (noFilter : ∀ ks, (db.keySpaces ks).relocationFilter = none) (limit : Nat) (ref : CellReference) :
    (processSingleCell db ref limit).batch.map (copyFrame ref.keyspace) =
      fullCopies db limit limit ref ↔ FullKeys db limit ref := by
  rw [batch_of_no_filter noFilter, fullCopies, (List.map_injective_iff.mpr
    (copyFrame_injective ref.keyspace)).eq_iff]
  constructor
  · intro same key position record asOf below isRecord
    have member := (Entry.mem_asOfView_iff (rest.rest ref).ok).mpr asOf
    have fixed := eq_of_filterMap_eq same (key, position) member record
      (fullRecord_eq_some_iff.mpr ⟨below, isRecord⟩)
    exact (congrArg Prod.fst fixed).symm
  · intro full
    refine List.filterMap_congr fun binding member => ?_
    cases isRecord : fullRecord (db.keySpaces ref.keyspace) db.log limit binding with
    | none => rfl
    | some record =>
        obtain ⟨below, found⟩ := fullRecord_eq_some_iff.mp isRecord
        have asOf := (Entry.mem_asOfView_iff (rest.rest ref).ok).mp member
        have same := full binding.1 binding.2 record asOf below found
        rw [Option.map_some, ← same]

section IndexBased

variable {db : Db} (rest : db.AtRest)
variable (noFilter : ∀ ks, (db.keySpaces ks).relocationFilter = none)

include rest noFilter

/-- Where every record is under its own key, the copy of a key is the copy of its record. -/
theorem copyFor_of_fullKeys {limit : Nat} {ref : CellReference} (full : FullKeys db limit ref)
    {key : Bytes} {position : WalPosition} {record : Bytes × Bytes}
    (asOf : (db.cells ref).getAt key limit = some position) (below : position.offset < limit)
    (isRecord : readRecordForIndexedKey (db.keySpaces ref.keyspace) db.log position key =
      some record) :
    copyFor (db.keySpaces ref.keyspace) (processSingleCell db ref limit).batch key = some record := by
  have indexed := rest.indexed ref key limit position record asOf isRecord
  have isKey := full key position record asOf below isRecord
  have member : record ∈ (processSingleCell db ref limit).batch := by
    rw [batch_of_no_filter noFilter, List.mem_filterMap]
    refine ⟨(key, position), (Entry.mem_asOfView_iff (rest.rest ref).ok).mpr asOf, ?_⟩
    rw [fullRecord_eq_some_iff.mpr ⟨below, isRecord⟩, Option.map_some, ← isKey]
  cases found : copyFor (db.keySpaces ref.keyspace) (processSingleCell db ref limit).batch key with
  | none => exact absurd (decide_eq_true indexed) (List.find?_eq_none.mp found record member)
  | some other =>
      have inBatch := List.mem_of_find?_eq_some found
      have reduced : (db.keySpaces ref.keyspace).reduceKey other.1 = some key := by
        simpa using List.find?_some found
      rw [batch_of_no_filter noFilter, List.mem_filterMap] at inBatch
      obtain ⟨binding, inView, taken⟩ := inBatch
      obtain ⟨held, isHeld, rfl⟩ := Option.map_eq_some_iff.mp taken
      obtain ⟨low, isRead⟩ := fullRecord_eq_some_iff.mp isHeld
      have seen := (Entry.mem_asOfView_iff (rest.rest ref).ok).mp inView
      have own := full _ _ held seen low isRead
      have heldIndexed := rest.indexed ref _ limit _ held seen isRead
      rw [own] at heldIndexed
      obtain ⟨indexKey, at_⟩ := binding
      obtain rfl : indexKey = key := Option.some.inj (heldIndexed.symm.trans reduced)
      rw [asOf] at seen
      cases seen
      rw [isRecord] at isRead
      cases isRead
      exact congrArg some (Prod.ext isKey.symm rfl)

variable {run : IndexRun} {final : Db} (finished : indexBasedRelocation db run = some final)
variable (complete : visited db run = db.cellRefs)
variable (full : ∀ ref ∈ db.cellRefs, FullKeys db (run.effectiveLimit db.lastProcessed) ref)

include finished complete full

theorem get_of_fullKeys (ks : Nat) (user : Bytes) : final.get ks user = db.get ks user := by
  rw [get_indexBased rest finished]
  cases located : db.locate ks user with
  | none =>
      have nothing : db.get ks user = none := by
        rw [get, located]
        rfl
      rw [getAfter, located, nothing]
      rfl
  | some place =>
      obtain ⟨ref, key⟩ := place
      obtain ⟨rfl, reduced⟩ := locate_eq_some located
      have reclaims : (db.reclaimed (reclaimPoint db run) run.mapped).locate ref.keyspace user =
          some (ref, key) := located
      rw [getAfter_of_locate located, get_of_locate located]
      cases live : (db.cells ref).get key with
      | none =>
          have uncopied : copyOf db run ref key = none := by simp [copyOf, live]
          rw [uncopied]
          refine (get_of_locate reclaims).trans ?_
          rw [show ((db.reclaimed (reclaimPoint db run) run.mapped).cells ref).get key = none from live]
          rfl
      | some position =>
          have listed : ref ∈ db.cellRefs := rest.listed ref fun isEmpty => by
            rw [Entry.get, Entry.probe, isEmpty] at live
            cases live
          obtain ⟨_, frame, framed, record, isRecord⟩ := rest.records ref key position live
          by_cases below : position.offset < run.effectiveLimit db.lastProcessed
          · have asOf := Entry.getAt_of_get (rest.rest ref).ok live below
            have copied : copyOf db run ref key = some record := by
              rw [← copyFor_of_fullKeys rest noFilter (full ref listed) asOf below isRecord]
              simp [copyOf, live, below, complete, listed]
            rw [copied]
            exact copyValue_full rest framed isRecord reduced
          · have uncopied : copyOf db run ref key = none := by simp [copyOf, live, below]
            rw [uncopied]
            refine (get_of_locate reclaims).trans ?_
            rw [show ((db.reclaimed (reclaimPoint db run) run.mapped).cells ref).get key =
              some position from live, Option.bind_some, Option.bind_some]
            exact readRecordCheckKey_congr _ _
              (Log.read_gc_of_le _ ((reclaimPoint_le db run).trans (Nat.not_lt.mp below))) user

/-- A complete run moves every live key below its limit to a copy of its record. -/
theorem movedToCopy_of_fullKeys {ref : CellReference} (listed : ref ∈ db.cellRefs) {key : Bytes}
    {position : WalPosition} (live : (db.cells ref).get key = some position)
    (below : position.offset < run.effectiveLimit db.lastProcessed) :
    MovedToCopy db final (run.effectiveLimit db.lastProcessed) ref key := by
  obtain ⟨_, _, _, record, isRecord⟩ := rest.records ref key position live
  obtain ⟨later, progress, _, cells, _, log⟩ := indexBasedRelocation_spec rest finished
  have moved := progress.relocated ref (by rw [complete]; exact List.mem_reverse.mpr listed)
  have asOf := Entry.getAt_of_get (rest.rest ref).ok live below
  obtain ⟨copy, isAt, points, high⟩ := (moved.outcome live).1 record below
    (copyFor_of_fullKeys rest noFilter (full ref listed) asOf below isRecord)
  refine ⟨position, record, copy, live, below, isRecord, by rw [cells, isAt], ⟨?_, points.2⟩, high⟩
  have low : reclaimPoint db run ≤ copy.offset :=
    (reclaimPoint_le db run).trans
      ((limit_le_position rest (effectiveLimit_le run db.lastProcessed)).trans high)
  rw [log, Log.read_gc_of_le _ low, points.1]
  rfl

end IndexBased

/-- Two-byte keys indexed under their first byte, a cell for each index key. -/
def firstByteSpaces : Config where
  keySpaces ks :=
    { (plainSpaces none).keySpaces ks with
      keyIndexing := .reduction 2 0 1
      cellId := fun key => key.foldl (fun cell byte => 256 * cell + byte.val) 0 }
  batchCodec := false
  relocationMaxReclaimPct := 100
  relocationBatchMaxBytes := 128
  indexMinOccupancyPct := 0

/-- Key `[7, 9]` in the first file, key `[0, 0]` in the second. -/
def firstBytes : Db :=
  restored firstByteSpaces [⟨0, 0⟩, ⟨0, 7⟩] (twoFiles [7, 9] [0, 0])
    [⟨⟨0, 0⟩, [0], ⟨64, 15⟩⟩, ⟨⟨0, 7⟩, [7], ⟨0, 15⟩⟩]

theorem atRest_firstBytes : firstBytes.AtRest :=
  atRest_restored (fun _ => rfl) (fun _ => rfl) (by decide) (by decide) (by decide) (by decide)

-- The WAL-based run reclaims the same file and keeps the key.
example : (walBasedRelocation { firstBytes with lastProcessed := 64 } []).map
    (fun final => (final.get 0 [7, 9], final.log.removed)) = some (some [1], [0]) := by decide

end Tidehunter.Db
