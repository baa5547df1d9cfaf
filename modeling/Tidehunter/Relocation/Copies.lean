import Tidehunter.Relocation.IndexRun

/-!
# Reading through a copy

A copy that carries the full key of its record reads like the record. A run then leaves
the value of a key alone, unless it did not copy the record and reclaims its file.
-/

namespace Tidehunter.Db

open Library Wal Index Flusher LargeTable

/-! ## Values behind copies -/

theorem payloadLen_ofEntry (offset : Nat) (entry : WalEntry) :
    (WalPosition.ofEntry offset entry).payloadLen = entry.len := by
  simp [WalPosition.payloadLen, WalPosition.ofEntry]

/-- In a batch without duplicates the record of an index key is the only one a user key
with that index key can have. -/
theorem findRecord_of_deduplicated {ks : KeySpaceDesc} {body : List BatchOp}
    (unique : Deduplicated ks body) {key full value user : Bytes}
    (found : (findRecordBy body ks.id fun other => ks.reduceKey other = some key) =
      some (full, value)) (reduced : ks.reduceKey user = some key) :
    findRecord body ks.id user = if full ≠ user then none else some value := by
  have others : ∀ rest : List BatchOp, (∀ op ∈ rest, op.ks = ks.id → ks.reduceKey op.key ≠ some key) →
      ∀ isMatch : Bytes → Bool, (∀ other, isMatch other = true → ks.reduceKey other = some key) →
        findRecordBy rest ks.id isMatch = none := by
    intro rest none isMatch matches_
    rw [findRecordBy, List.findSome?_eq_none_iff]
    intro op member
    rw [if_neg]
    rintro ⟨here, accepted⟩
    exact none op member here (matches_ op.key accepted)
  have isUser : ∀ other, decide (other = user) = true → ks.reduceKey other = some key := by
    intro other same
    rw [of_decide_eq_true same, reduced]
  induction body with
  | nil => cases found
  | cons op rest ih =>
      obtain ⟨first, restUnique⟩ := List.pairwise_cons.mp unique
      by_cases here : op.ks = ks.id ∧ ks.reduceKey op.key = some key
      · have nothing : ∀ other ∈ rest, other.ks = ks.id → ks.reduceKey other.key ≠ some key :=
          fun other member same reducedOther =>
            first other member here.1 same (here.2.trans reducedOther.symm)
        rw [findRecordBy, List.findSome?_cons, if_pos (by simpa using here)] at found
        cases held : op.value with
        | none =>
            rw [held] at found
            rw [show List.findSome? _ rest = none from
              others rest nothing (fun other => ks.reduceKey other = some key) (by simp)] at found
            cases found
        | some stored =>
            rw [held] at found
            simp only [Option.map_some, Option.some.injEq, Prod.mk.injEq] at found
            obtain ⟨isKey, rfl⟩ := found
            rw [findRecord, findRecordBy, List.findSome?_cons]
            by_cases same : op.key = user
            · rw [if_pos ⟨here.1, by simpa using same⟩, held, if_neg (by rw [← isKey, same]; simp)]
              rfl
            · rw [if_neg (by simp [same])]
              rw [show List.findSome? _ rest = none from others rest nothing _ isUser,
                if_pos (by rw [← isKey]; exact same)]
              rfl
      · have skipped : findRecordBy (op :: rest) ks.id (fun other => ks.reduceKey other = some key) =
            findRecordBy rest ks.id (fun other => ks.reduceKey other = some key) := by
          rw [findRecordBy, List.findSome?_cons, if_neg (by simpa using here)]
          rfl
        have skippedUser : findRecord (op :: rest) ks.id user = findRecord rest ks.id user := by
          rw [findRecord, findRecordBy, List.findSome?_cons, if_neg]
          · rfl
          · rintro ⟨same, isThis⟩
            exact here ⟨same, isUser op.key isThis⟩
        rw [skippedUser]
        exact ih restUnique (skipped ▸ found)

/-- What a user key reads at a copy of a record. -/
def copyValue (ks : KeySpaceDesc) (batchCodec : Bool) (record : Bytes × Bytes) (user : Bytes) :
    Option Bytes :=
  if !ks.keyIndexing.needCheckIndexKey && !batchCodec &&
      decide (WalEntry.recordLen record.1 record.2 = WalEntry.recordLen user []) then some []
  else if record.1 ≠ user then none else some record.2

theorem readRecordCheckKey_copy {ks : KeySpaceDesc} {batchCodec : Bool} {log : Log} {id : Nat}
    {record : Bytes × Bytes} {user : Bytes} {copy : WalPosition} {relocated : Bool}
    (points : PointsAt log copy (.record id record.1 record.2 relocated)) :
    readRecordCheckKey ks batchCodec log user copy = copyValue ks batchCodec record user := by
  have len : copy.payloadLen = WalEntry.recordLen record.1 record.2 := by
    rw [points.2, payloadLen_ofEntry]
    rfl
  have resolved : resolveRecordFrame log copy = some (.record record.1 record.2) := by
    rw [resolveRecordFrame, points.1]
  unfold readRecordCheckKey
  rw [resolved, len]
  rfl

/-- A copy under the full key of a record has the value of the record for every user key
with its index key. -/
theorem copyValue_full {db : Db} (rest : db.AtRest) {ks : Nat} {key user : Bytes}
    {record : Bytes × Bytes} {position : WalPosition} {frame : WalEntry}
    (points : PointsAt db.log position frame)
    (found : readRecordForIndexedKey (db.keySpaces ks) db.log position key = some record)
    (reduced : (db.keySpaces ks).reduceKey user = some key) :
    copyValue (db.keySpaces ks) db.batchCodec record user =
      readRecordCheckKey (db.keySpaces ks) db.batchCodec db.log user position := by
  cases frame with
  | record _ walKey stored _ =>
      rw [readRecordForIndexedKey, resolveRecordFrame, points.1] at found
      cases found
      exact (readRecordCheckKey_copy points).symm
  | compressedBatch inner len =>
      have frameAt : resolveRecordFrame db.log position = some (.batch inner) := by
        rw [resolveRecordFrame, points.1]
      have inLog := (Log.read_eq_some_iff.mp points.1).2
      have codec : db.batchCodec = true := by
        cases off : db.batchCodec with
        | true => rfl
        | false => exact absurd inLog (rest.plain off _ inner len)
      rw [readRecordForIndexedKey, frameAt] at found
      have only := findRecord_of_deduplicated (rest.deduplicated _ inner len inLog ks) found reduced
      unfold copyValue readRecordCheckKey
      rw [frameAt, codec]
      simp only [Bool.not_true, Bool.and_false, Bool.false_and, Bool.false_eq_true, if_false]
      exact only.symm
  | remove _ walKey =>
      rw [readRecordForIndexedKey, resolveRecordFrame, points.1] at found
      cases found
  | batchStart count =>
      rw [readRecordForIndexedKey, resolveRecordFrame, points.1] at found
      cases found
  | dropCells _ _ _ _ =>
      rw [readRecordForIndexedKey, resolveRecordFrame, points.1] at found
      cases found

/-! ## The records of a cell that are copied -/

/-- The value of an entry and the filter's answer on it, where a run asks the filter. -/
def asked (ks : KeySpaceDesc) (log : Log) (limit : Nat) (binding : Bytes × WalPosition) :
    Option (Bytes × Decision) :=
  if limit ≤ binding.2.offset then none
  else (readRecordForIndexedKey ks log binding.2 binding.1).map fun record =>
    (record.2, ks.decide binding.1 record.2)

/-- The entries of a cell in front of the first that stops the walk. -/
def reached (ks : KeySpaceDesc) (log : Log) (limit : Nat) (entries : List (Bytes × WalPosition)) :
    List (Bytes × WalPosition) :=
  entries.takeWhile fun binding =>
    !(asked ks log limit binding).any fun answer => answer.2 = .stopRelocation

/-- The record copied for an entry. -/
def kept (ks : KeySpaceDesc) (log : Log) (limit : Nat) (binding : Bytes × WalPosition) :
    Option (Bytes × Bytes) :=
  (asked ks log limit binding).bind fun answer =>
    if answer.2 = .keep then some (binding.1, answer.1) else none

theorem batch_processEntries (ks : KeySpaceDesc) (log : Log) (limit : Nat)
    (entries : List (Bytes × WalPosition)) (context : CellProcessingContext) :
    (processEntries ks log limit entries context).batch =
      context.batch ++ (reached ks log limit entries).filterMap (kept ks log limit) := by
  induction entries generalizing context with
  | nil => simp [processEntries, reached]
  | cons binding rest ih =>
      obtain ⟨key, position⟩ := binding
      rw [processEntries, reached, List.takeWhile_cons]
      by_cases high : limit ≤ position.offset
      · have silent : asked ks log limit (key, position) = none := if_pos high
        rw [if_pos high, ih, silent]
        simp [reached, kept, silent]
      · cases record : readRecordForIndexedKey ks log position key with
        | none =>
            have silent : asked ks log limit (key, position) = none := by
              simp [asked, record]
            rw [if_neg high, silent]
            simp [ih, reached, kept, silent, CellProcessingContext.markEntryRemoved]
        | some found =>
            have answers : asked ks log limit (key, position) =
                some (found.2, ks.decide key found.2) := by
              rw [asked, if_neg high, record]
              rfl
            rw [if_neg high, answers]
            cases decision : ks.decide key found.2 with
            | keep => simp [ih, reached, kept, answers, decision, CellProcessingContext.addEntryToRelocate]
            | remove => simp [ih, reached, kept, answers, decision, CellProcessingContext.markEntryRemoved]
            | stopRelocation => simp [decision]

/-- The highest position a cell reports lies below the limit. -/
theorem highest_le {ks : KeySpaceDesc} {log : Log} {limit : Nat}
    (entries : List (Bytes × WalPosition)) {context : CellProcessingContext}
    (start : context.highestWalPosition ≤ limit) :
    (processEntries ks log limit entries context).highestWalPosition ≤ limit := by
  induction entries generalizing context with
  | nil => exact start
  | cons binding rest ih =>
      obtain ⟨key, position⟩ := binding
      rw [processEntries]
      split
      · exact ih start
      · rename_i below
        have bound : max context.highestWalPosition position.offset ≤ limit :=
          max_le start (Nat.le_of_lt (Nat.not_le.mp below))
        split
        · exact ih bound
        · split
          · exact ih bound
          · exact ih bound
          · exact start

theorem highestOf_le (db : Db) (limit : Nat) (refs : List CellReference) {start : Nat}
    (start_le : start ≤ limit) : highestOf db limit refs start ≤ limit := by
  induction refs generalizing start with
  | nil => exact start_le
  | cons ref rest ih =>
      exact ih (max_le start_le (highest_le _ (Nat.zero_le limit)))

/-- A run reclaims at most up to its limit. -/
theorem reclaimPoint_le (db : Db) (run : IndexRun) :
    reclaimPoint db run ≤ run.effectiveLimit db.lastProcessed := by
  have highest := highestOf_le db (run.effectiveLimit db.lastProcessed) (visited db run)
    (Nat.zero_le _)
  unfold reclaimPoint WatermarkData.gcWatermark
  simp only
  split <;> omega

/-! ## The outcome of a run for a key -/

/-- The record a batch has for an index key. -/
def copyFor (ks : KeySpaceDesc) (batch : List (Bytes × Bytes)) (key : Bytes) : Option (Bytes × Bytes) :=
  batch.find? fun record => ks.reduceKey record.1 = some key

/-- The copy a run points an index key to. -/
def copyOf (db : Db) (run : IndexRun) (ref : CellReference) (key : Bytes) : Option (Bytes × Bytes) :=
  let limit := run.effectiveLimit db.lastProcessed
  if ref ∈ visited db run ∧ ((db.cells ref).get key).any (fun position => position.offset < limit) then
    copyFor (db.keySpaces ref.keyspace) (processSingleCell db ref limit).batch key
  else none

/-- The database if its log were only reclaimed. -/
def reclaimed (db : Db) (watermark : Nat) (mapped : List Nat) : Db :=
  { db with log := db.log.gc watermark mapped }

/-- What a user key reads after a run: its copy, or its old record if the file stays. -/
def getAfter (db : Db) (run : IndexRun) (ks : Nat) (user : Bytes) : Option Bytes :=
  (db.locate ks user).bind fun place =>
    match copyOf db run place.1 place.2 with
    | some record => copyValue (db.keySpaces ks) db.batchCodec record user
    | none => (db.reclaimed (reclaimPoint db run) run.mapped).get ks user

/-- The update of a key in the compare-and-set list of a batch. -/
theorem target_zip {R : Bytes × Bytes → WalPosition → Prop} (ks : KeySpaceDesc)
    {records : List (Bytes × Bytes)} {reducedKeys : List Bytes} {positions : List WalPosition}
    (reduced : (records.mapM fun record => ks.reduceKey record.1) = some reducedKeys)
    (copies : List.Forall₂ R records positions) (key : Bytes) :
    (∃ record position, copyFor ks records key = some record ∧
        RelocationUpdates.target (reducedKeys.zip positions) key = some position ∧
        R record position) ∨
      copyFor ks records key = none ∧
        RelocationUpdates.target (reducedKeys.zip positions) key = none := by
  induction copies generalizing reducedKeys with
  | nil =>
      cases reduced
      exact Or.inr ⟨rfl, rfl⟩
  | @cons record position records positions copy _ ih =>
      rw [List.mapM_cons] at reduced
      obtain ⟨first, isFirst, tail⟩ := Option.bind_eq_some_iff.mp reduced
      obtain ⟨others, isOthers, same⟩ := Option.bind_eq_some_iff.mp tail
      cases same
      rw [List.zip_cons_cons, RelocationUpdates.target_cons, copyFor, List.find?_cons, isFirst]
      by_cases here : first = key
      · refine Or.inl ⟨record, position, by simp [here], if_pos here, copy⟩
      · have missed : decide (some first = some key) = false := by simpa using here
        rw [if_neg here, missed]
        exact ih isOthers

/-- A cell after its records were copied: a key is at its copy, or where it was. -/
theorem CellRelocated.outcome {db later : Db} {limit : Nat} {ref : CellReference}
    (moved : CellRelocated db later limit ref) {key : Bytes} {position : WalPosition}
    (live : (db.cells ref).get key = some position) :
    (∀ record, position.offset < limit → copyFor (db.keySpaces ref.keyspace)
        (processSingleCell db ref limit).batch key = some record →
      ∃ copy, (later.cells ref).get key = some copy ∧
        PointsAt later.log copy (.record ref.keyspace record.1 record.2 true) ∧
        db.log.position ≤ copy.offset) ∧
      ((position.offset < limit → copyFor (db.keySpaces ref.keyspace)
        (processSingleCell db ref limit).batch key = none) →
      (later.cells ref).get key = some position) := by
  obtain ⟨reducedKeys, positions, reduced, copies, gets⟩ := moved
  have after := gets key
  rw [live] at after
  rcases target_zip _ reduced copies key with ⟨record, copy, isCopy, target, points⟩ | ⟨none, target⟩
  · rw [target] at after
    refine ⟨fun other below same => ?_, fun silent => ?_⟩
    · rw [isCopy] at same
      cases same
      refine ⟨copy, ?_, points⟩
      simpa [RelocationUpdates.movedPosition, below] using after
    · have above : ¬ position.offset < limit := fun below => by simp [silent below] at isCopy
      simpa [RelocationUpdates.movedPosition, above] using after
  · rw [target] at after
    refine ⟨fun other below same => ?_, fun _ => ?_⟩
    · rw [none] at same
      cases same
    · simpa using after

/-! ## Reads after a run -/

theorem readRecordCheckKey_congr (ks : KeySpaceDesc) (batchCodec : Bool) {log other : Log}
    {position : WalPosition} (same : log.read position = other.read position) (key : Bytes) :
    readRecordCheckKey ks batchCodec log key position =
      readRecordCheckKey ks batchCodec other key position := by
  unfold readRecordCheckKey resolveRecordFrame
  rw [same]

theorem readRecordCheckKey_extends (ks : KeySpaceDesc) (batchCodec : Bool) {log later : Log}
    (grown : log.Extends later) {position : WalPosition} (below : position.offset < log.position)
    (key : Bytes) :
    readRecordCheckKey ks batchCodec later key position =
      readRecordCheckKey ks batchCodec log key position :=
  readRecordCheckKey_congr ks batchCodec (grown.read below) key

theorem get_of_locate {db : Db} {ks : Nat} {user key : Bytes} {ref : CellReference}
    (located : db.locate ks user = some (ref, key)) :
    db.get ks user = ((db.cells ref).get key).bind
      (readRecordCheckKey (db.keySpaces ks) db.batchCodec db.log user) := by
  rw [get, located]
  rfl

theorem locate_eq_some {db : Db} {ks : Nat} {user key : Bytes} {ref : CellReference}
    (located : db.locate ks user = some (ref, key)) :
    ref.keyspace = ks ∧ (db.keySpaces ks).reduceKey user = some key := by
  obtain ⟨indexKey, reduced, same⟩ := Option.map_eq_some_iff.mp located
  cases same
  exact ⟨rfl, reduced⟩

section Reads

variable {db final : Db} (rest : db.AtRest) {run : IndexRun}
variable (finished : indexBasedRelocation db run = some final)
variable {ks : Nat} {user key : Bytes} {ref : CellReference}
variable (located : db.locate ks user = some (ref, key))

include rest finished

theorem locate_indexBased (ks : Nat) (user : Bytes) : final.locate ks user = db.locate ks user := by
  obtain ⟨_, _, config, _⟩ := indexBasedRelocation_spec rest finished
  rw [locate, keySpaces, config]
  rfl

include located

/-- A key with a copy reads what its copy holds. -/
theorem get_of_copyOf {record : Bytes × Bytes} (copied : copyOf db run ref key = some record) :
    final.get ks user = copyValue (db.keySpaces ks) db.batchCodec record user := by
  have located' := (locate_indexBased rest finished ks user).trans located
  obtain ⟨later, progress, config, cells, _, log⟩ := indexBasedRelocation_spec rest finished
  obtain ⟨rfl, reduced⟩ := locate_eq_some located
  unfold copyOf at copied
  simp only at copied
  split at copied
  · rename_i seen
    cases live : (db.cells ref).get key with
    | none => simp [live] at seen
    | some position =>
        have below : position.offset < run.effectiveLimit db.lastProcessed := by
          simpa [live] using seen.2
        have moved := progress.relocated ref (List.mem_reverse.mpr seen.1)
        obtain ⟨copy, isAt, points, high⟩ := (moved.outcome live).1 record below copied
        have low : reclaimPoint db run ≤ copy.offset :=
          (reclaimPoint_le db run).trans
            ((limit_le_position rest (effectiveLimit_le run db.lastProcessed)).trans high)
        have survives : PointsAt final.log copy (.record ref.keyspace record.1 record.2 true) := by
          refine ⟨?_, points.2⟩
          rw [log, Log.read_gc_of_le _ low, points.1]
        rw [get_of_locate located', cells, isAt, keySpaces, batchCodec, config]
        exact readRecordCheckKey_copy survives
  · cases copied

/-- Every other key reads as if the log had only been reclaimed. -/
theorem get_of_copyOf_none (uncopied : copyOf db run ref key = none) :
    final.get ks user = (db.reclaimed (reclaimPoint db run) run.mapped).get ks user := by
  have located' := (locate_indexBased rest finished ks user).trans located
  obtain ⟨later, progress, config, cells, _, log⟩ := indexBasedRelocation_spec rest finished
  have low : reclaimPoint db run ≤ db.log.position :=
    (reclaimPoint_le db run).trans
      (limit_le_position rest (effectiveLimit_le run db.lastProcessed))
  have same : (later.cells ref).get key = (db.cells ref).get key := by
    by_cases seen : ref ∈ visited db run
    · have moved := progress.relocated ref (List.mem_reverse.mpr seen)
      cases live : (db.cells ref).get key with
      | none =>
          obtain ⟨_, _, _, _, gets⟩ := moved
          rw [gets key, live]
          rfl
      | some position =>
          refine (moved.outcome live).2 fun below => ?_
          rw [copyOf, live] at uncopied
          simpa [seen, below] using uncopied
    · rw [progress.others ref (by simpa using seen)]
  have reclaims : (db.reclaimed (reclaimPoint db run) run.mapped).locate ks user =
      some (ref, key) := located
  rw [get_of_locate located', get_of_locate reclaims, cells, same, keySpaces, batchCodec, config, log]
  change ((db.cells ref).get key).bind _ = ((db.cells ref).get key).bind _
  cases live : (db.cells ref).get key with
  | none => rfl
  | some position =>
      obtain ⟨_, frame, framed, _⟩ := rest.records ref key position live
      have below := Log.lookup_lt (Log.read_eq_some_iff.mp framed.1).2
      exact readRecordCheckKey_extends _ _ (progress.grown.gc low run.mapped) below user

omit located in
theorem get_indexBased (ks : Nat) (user : Bytes) : final.get ks user = getAfter db run ks user := by
  cases located : db.locate ks user with
  | none =>
      rw [get, locate_indexBased rest finished, located, getAfter, located]
      rfl
  | some place =>
      rw [getAfter, located, Option.bind_some]
      split
      · rename_i record copied
        exact get_of_copyOf rest finished located copied
      · rename_i uncopied
        exact get_of_copyOf_none rest finished located uncopied

end Reads

theorem copyOf_of_not_visited {db : Db} {run : IndexRun} {ref : CellReference}
    (unvisited : ref ∉ visited db run) (key : Bytes) : copyOf db run ref key = none :=
  if_neg fun seen => unvisited seen.1

theorem getAfter_of_locate {db : Db} {run : IndexRun} {ks : Nat} {user key : Bytes}
    {ref : CellReference} (located : db.locate ks user = some (ref, key)) :
    getAfter db run ks user = match copyOf db run ref key with
      | some record => copyValue (db.keySpaces ks) db.batchCodec record user
      | none => (db.reclaimed (reclaimPoint db run) run.mapped).get ks user := by
  rw [getAfter, located]
  rfl

end Tidehunter.Db
