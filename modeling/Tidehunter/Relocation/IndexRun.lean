import Tidehunter.Relocation.IndexBased

/-!
# The index-based run as a whole

Each cell is processed once, and processing one cell leaves the others and the old
frames of the log alone. So the outcome of a run is given by the database it started
from: the cells it visits, the records it copies of each, and the highest position.
-/

namespace Tidehunter.Db

open Library Wal Index Flusher LargeTable

/-! ## Reading old frames in a grown log -/

theorem resolveRecordFrame_extends {log later : Log} (grown : log.Extends later)
    {position : WalPosition} (below : position.offset < log.position) :
    resolveRecordFrame later position = resolveRecordFrame log position := by
  rw [resolveRecordFrame, grown.read below, resolveRecordFrame]

theorem readRecordForIndexedKey_extends (ks : KeySpaceDesc) {log later : Log}
    (grown : log.Extends later) {position : WalPosition} (below : position.offset < log.position)
    (key : Bytes) :
    readRecordForIndexedKey ks later position key = readRecordForIndexedKey ks log position key := by
  rw [readRecordForIndexedKey, resolveRecordFrame_extends grown below, readRecordForIndexedKey]

theorem processEntries_extends (ks : KeySpaceDesc) {log later : Log} (grown : log.Extends later)
    {limit : Nat} (limit_le : limit ≤ log.position) (entries : List (Bytes × WalPosition))
    (context : CellProcessingContext) :
    processEntries ks later limit entries context = processEntries ks log limit entries context := by
  induction entries generalizing context with
  | nil => rfl
  | cons binding rest ih =>
      obtain ⟨key, position⟩ := binding
      rw [processEntries, processEntries]
      by_cases high : limit ≤ position.offset
      · rw [if_pos high, if_pos high, ih]
      · rw [if_neg high, if_neg high, readRecordForIndexedKey_extends ks grown (by omega)]
        cases readRecordForIndexedKey ks log position key with
        | none => exact ih _
        | some record =>
            simp only
            cases ks.decide key record.2 with
            | keep => exact ih _
            | remove => exact ih _
            | stopRelocation => rfl

/-! ## The loop -/

/-- A cell whose records were copied: its keys are found at the copies made of them. -/
def CellRelocated (db later : Db) (limit : Nat) (ref : CellReference) : Prop :=
  ∃ reducedKeys positions,
    ((processSingleCell db ref limit).batch.mapM fun record =>
        (db.keySpaces ref.keyspace).reduceKey record.1) = some reducedKeys ∧
      List.Forall₂ (fun record position =>
        PointsAt later.log position (.record ref.keyspace record.1 record.2 true) ∧
          db.log.position ≤ position.offset) (processSingleCell db ref limit).batch positions ∧
      ∀ key, (later.cells ref).get key = ((db.cells ref).get key).map
        (RelocationUpdates.movedPosition limit
          (RelocationUpdates.target (reducedKeys.zip positions) key))

/-- A run from `db` that has done some cells. -/
structure Progress (db later : Db) (limit : Nat) (done : List CellReference) : Prop where
  config : later.config = db.config
  cellRefs : later.cellRefs = db.cellRefs
  latch : later.latch = db.latch
  controlRegion : later.controlRegion = db.controlRegion
  grown : db.log.Extends later.log
  copies : ∀ offset entry, db.log.position ≤ offset → later.log.frames.lookup offset = some entry →
    ∃ ks key value, entry = .record ks key value true
  frames : later.log.frames.entries.map Prod.snd = db.log.frames.entries.map Prod.snd ++
    done.reverse.flatMap fun ref =>
      (processSingleCell db ref limit).batch.map (copyFrame ref.keyspace)
  frontier : db.lastProcessed ≤ later.lastProcessed
  settled : later.lastProcessed ≤ later.latch.getD later.log.position
  others : ∀ ref, ref ∉ done → later.cells ref = db.cells ref
  relocated : ∀ ref ∈ done, CellRelocated db later limit ref

theorem Progress.start {db : Db} (rest : db.AtRest) (limit : Nat) : Progress db db limit [] where
  config := rfl
  cellRefs := rfl
  latch := rfl
  controlRegion := rfl
  grown := Log.Extends.refl _
  copies _ _ high found := absurd (Log.lookup_lt found) (Nat.not_lt.mpr high)
  frames := (List.append_nil _).symm
  frontier := le_refl _
  settled := rest.frontier
  others _ _ := rfl
  relocated := nofun

/-- Saving the watermark is no progress. -/
theorem Progress.save {db later : Db} {limit : Nat} {done : List CellReference}
    (progress : Progress db later limit done) (watermarks : WatermarkData) :
    Progress db { later with watermarks := watermarks } limit done :=
  ⟨progress.config, progress.cellRefs, progress.latch, progress.controlRegion, progress.grown,
    progress.copies, progress.frames, progress.frontier, progress.settled, progress.others,
    progress.relocated⟩

section Step

variable {db later : Db} {limit : Nat} {done : List CellReference} {ref : CellReference}
variable (rest : db.AtRest) (progress : Progress db later limit done)
variable (limit_le : limit ≤ db.lastProcessed)

include rest limit_le

theorem limit_le_position : limit ≤ db.log.position :=
  limit_le.trans (rest.frontier.trans rest.latched)

include progress

/-- A cell not done yet is processed as in the database before the run. -/
theorem Progress.processSingleCell_eq (pending : ref ∉ done) :
    processSingleCell later ref limit = processSingleCell db ref limit := by
  unfold processSingleCell keySpaces
  rw [progress.others ref pending, progress.config]
  exact processEntries_extends _ progress.grown (limit_le_position rest limit_le) _ _

theorem Progress.step (pending : ref ∉ done) {next : Db}
    (written : later.writeRelocatedBatch ref (processSingleCell later ref limit).batch limit =
      some next) : Progress db next limit (ref :: done) := by
  rw [progress.processSingleCell_eq rest limit_le pending] at written
  have floor := progress.grown.minWalPosition
  have atRest : (later.cells ref).Quiescent later.log.minWalPosition := by
    rw [floor, progress.others ref pending]
    exact rest.rest ref
  have spaces : later.keySpaces = db.keySpaces := by
    funext ks
    rw [keySpaces, progress.config, keySpaces]
  have result := writeRelocatedBatch_spec atRest (by rw [spaces]; exact rest.noCompactor _)
    progress.settled
    ((limit_le_position rest limit_le).trans progress.grown.position)
    (fun _ _ _ high => (limit_le.trans progress.frontier).trans high) written
  refine ⟨result.same.config.trans progress.config, result.same.cellRefs.trans progress.cellRefs,
    result.same.latch.trans progress.latch,
    result.same.controlRegion.trans progress.controlRegion, progress.grown.trans result.grown,
    fun offset entry high found => ?_, by simp [result.frames, progress.frames],
    progress.frontier.trans result.frontier, result.settled,
    fun other fresh => ?_, fun other member => ?_⟩
  · by_cases old : offset < later.log.position
    · rw [result.grown.frames offset old] at found
      exact progress.copies offset entry high found
    · exact ⟨_, result.copies offset entry (Nat.not_lt.mp old) found⟩
  · rw [List.mem_cons, not_or] at fresh
    rw [result.same.cells other fresh.1, progress.others other fresh.2]
  · rcases List.mem_cons.mp member with rfl | before
    · obtain ⟨reducedKeys, positions, reduced, copies, moved⟩ := result.moved
      refine ⟨reducedKeys, positions, by rw [← spaces]; exact reduced, copies.imp ?_, fun key => ?_⟩
      · exact fun record position copy => ⟨copy.1, progress.grown.position.trans copy.2.1⟩
      · rw [moved key, progress.others other pending]
    · have different : other ≠ ref := by
        rintro rfl
        exact pending before
      obtain ⟨reducedKeys, positions, reduced, copies, moved⟩ := progress.relocated other before
      refine ⟨reducedKeys, positions, reduced, copies.imp ?_, fun key => ?_⟩
      · exact fun record position copy => ⟨copy.1.extends result.grown, copy.2⟩
      · rw [result.same.cells other different, moved key]

end Step

/-- The loop does the cells it visits, and finds the highest position among them. -/
theorem indexLoop_spec {db : Db} (rest : db.AtRest) {run : IndexRun} {refs : List CellReference}
    {count highest : Nat} {later final : Db} {found : Nat} {done : List CellReference}
    (progress : Progress db later (run.effectiveLimit db.lastProcessed) done)
    (limit_le : run.effectiveLimit db.lastProcessed ≤ db.lastProcessed)
    (nodup : refs.Nodup) (fresh : ∀ ref ∈ refs, ref ∉ done)
    (finished : indexLoop run db.lastProcessed refs count highest later = some (final, found)) :
    Progress db final (run.effectiveLimit db.lastProcessed)
        ((visitedFrom run refs count).reverse ++ done) ∧
      found = highestOf db (run.effectiveLimit db.lastProcessed) (visitedFrom run refs count)
        highest := by
  induction refs generalizing count highest later done with
  | nil =>
      cases finished
      exact ⟨progress, rfl⟩
  | cons ref refs ih =>
      rw [indexLoop] at finished
      by_cases stops : count % numIterationsInBatch = 0 ∧ run.cancelled count = true
      · rw [if_pos stops] at finished
        cases finished
        rw [visitedFrom, if_pos stops]
        exact ⟨progress, rfl⟩
      · rw [if_neg stops] at finished
        rw [visitedFrom, if_neg stops]
        have saved : ∃ middle, Progress db middle (run.effectiveLimit db.lastProcessed) done ∧
            (if count % numIterationsInBatch = 0 ∧ count % numIterationsTillSave = 0 then
              { later with watermarks :=
                ⟨some ref, highest, db.lastProcessed, run.targetPosition⟩ }
            else later) = middle := by
          split
          · exact ⟨_, progress.save _, rfl⟩
          · exact ⟨_, progress, rfl⟩
        obtain ⟨middle, saved, isMiddle⟩ := saved
        simp only [isMiddle] at finished
        have pending := fresh ref List.mem_cons_self
        split at finished
        · cases finished
        · rename_i next written
          have step := saved.step rest limit_le pending written
          rw [saved.processSingleCell_eq rest limit_le pending] at finished
          obtain ⟨headFresh, tailNodup⟩ := List.nodup_cons.mp nodup
          obtain ⟨all, highestIs⟩ := ih step tailNodup (fun other member => by
            rw [List.mem_cons, not_or]
            refine ⟨?_, fresh other (List.mem_cons_of_mem _ member)⟩
            rintro rfl
            exact headFresh member) finished
          refine ⟨?_, highestIs⟩
          simpa using all

theorem effectiveLimit_le (run : IndexRun) (upperLimit : Nat) :
    run.effectiveLimit upperLimit ≤ upperLimit := by
  unfold IndexRun.effectiveLimit
  split
  · exact min_le_right _ _
  · exact le_refl _

theorem startCells_sublist (db : Db) (target : Option Nat) :
    (startCells db target).Sublist db.cellRefs := by
  unfold startCells
  split
  · split
    · exact List.dropWhile_sublist _
    · exact List.Sublist.refl _
  · exact List.Sublist.refl _

/-- The database after a run, before its log is reclaimed. -/
theorem indexBasedRelocation_spec {db final : Db} (rest : db.AtRest) {run : IndexRun}
    (finished : indexBasedRelocation db run = some final) :
    ∃ later, Progress db later (run.effectiveLimit db.lastProcessed) (visited db run).reverse ∧
      final.config = db.config ∧ final.cells = later.cells ∧
      final.controlRegion = db.controlRegion ∧
      final.log = later.log.gc (reclaimPoint db run) run.mapped := by
  unfold indexBasedRelocation at finished
  split at finished
  · cases finished
  · rename_i later highest looped
    cases finished
    obtain ⟨progress, rfl⟩ := indexLoop_spec rest (Progress.start rest _)
      (effectiveLimit_le run db.lastProcessed)
      (rest.nodup.sublist (startCells_sublist db run.targetPosition)) (fun _ _ => nofun) looped
    rw [List.append_nil] at progress
    refine ⟨later, progress, progress.config, rfl, progress.controlRegion, ?_⟩
    change later.log.gc _ run.mapped = _
    rw [progress.controlRegion]
    rfl

end Tidehunter.Db
