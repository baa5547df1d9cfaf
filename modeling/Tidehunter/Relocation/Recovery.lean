import Tidehunter.Relocation.Copies
import Tidehunter.Db.Restored

/-!
# Recovery after an index-based run

An index-based run reclaims the log without storing a new control region. Replay skips
the copies it made, so reopening gives a key the position that the control region from
before the run records, or that replay finds behind it.
-/

namespace Tidehunter.Db

open Library Wal Index Flusher LargeTable

/-- What replay gathers from the stored position on. -/
def replayed (db : Db) : Option Replay :=
  Replay.run db.config (replayFrames db.log db.controlRegion.lastPosition) Replay.new

/-- A database whose stored control region and log make whole batches and name frames of
the log. -/
structure Stored (db : Db) : Prop where
  whole : ∃ replay, db.replayed = some replay ∧ replay.batchRemaining = 0
  named : ∀ replay, db.replayed = some replay → ∀ ref key position,
    (replay.entry db.controlRegion ref).get key = some position → position.offset < db.log.position

/-- With whole batches only, reopening keeps the log. -/
theorem reopen_of_whole {db : Db} {replay : Replay} (ran : db.replayed = some replay)
    (closed : replay.batchRemaining = 0) :
    db.reopen = some { db with
      cells := replay.entry db.controlRegion, latch := none, lastProcessed := db.log.position } := by
  have consistent : replay.Consistent := by
    have start : Replay.new.Consistent := ⟨fun _ => rfl, fun _ => rfl⟩
    exact start.run ran
  have noStart := consistent.mp closed
  change (db.replayed.map _) = _
  rw [ran, Option.map_some, noStart]

section Recovery

variable {db final : Db} (rest : db.AtRest) {run : IndexRun}
variable (finished : indexBasedRelocation db run = some final)

include rest finished

/-- A run adds nothing that replay sees. -/
theorem replayed_indexBased (whole : ∃ replay, db.replayed = some replay ∧ replay.batchRemaining = 0) :
    final.replayed = db.replayed := by
  obtain ⟨replay, ran, closed⟩ := whole
  obtain ⟨later, progress, config, _, controlRegion, log⟩ := indexBasedRelocation_spec rest finished
  have frames : final.log.frames = later.log.frames := by
    rw [log]
    rfl
  have split : replayFrames final.log final.controlRegion.lastPosition =
      replayFrames db.log db.controlRegion.lastPosition ++
        (later.log.frames.entries.filter fun frame => db.log.position ≤ frame.1).filter
          fun frame => db.controlRegion.lastPosition ≤ frame.1 := by
    rw [replayFrames, frames, controlRegion]
    conv_lhs => rw [progress.grown.entries]
    exact List.filter_append _ _
  rw [replayed, split, Replay.run_append, config]
  change db.replayed.bind _ = _
  rw [ran, Option.bind_some]
  refine Replay.run_copies (fun frame member => ?_) closed
  obtain ⟨inLog, high⟩ := List.mem_filter.mp (List.mem_filter.mp member).1
  exact progress.copies frame.1 frame.2 (of_decide_eq_true high)
    (SortedMap.lookup_of_mem_entries inLog)

/-- A database reopened after the run reads what the control region from before it gives,
in the reclaimed log. -/
theorem get_reopen_indexBased (stored : db.Stored) :
    ∃ reopened restored, final.reopen = some reopened ∧ db.reopen = some restored ∧
      ∀ ks user, reopened.get ks user =
        (restored.reclaimed (reclaimPoint db run) run.mapped).get ks user := by
  obtain ⟨replay, ran, closed⟩ := stored.whole
  have same := replayed_indexBased rest finished stored.whole
  refine ⟨_, _, reopen_of_whole (same.trans ran) closed, reopen_of_whole ran closed,
    fun ks user => ?_⟩
  obtain ⟨later, progress, config, _, controlRegion, log⟩ := indexBasedRelocation_spec rest finished
  have low : reclaimPoint db run ≤ db.log.position :=
    (reclaimPoint_le db run).trans
      (limit_le_position rest (effectiveLimit_le run db.lastProcessed))
  unfold get reclaimed locate keySpaces batchCodec
  simp only [config, controlRegion, log]
  cases ((db.config.keySpaces ks).reduceKey user) with
  | none => rfl
  | some key =>
      simp only [Option.map_some, Option.bind_some]
      cases found : (replay.entry db.controlRegion ⟨ks, (db.config.keySpaces ks).cellId key⟩).get key with
      | none => rfl
      | some position =>
          exact readRecordCheckKey_extends _ _ (progress.grown.gc low run.mapped)
            (stored.named replay ran _ key position found) user

end Recovery

/-- Two records in two files, stored by a snapshot of the whole log. -/
def snapshotted : Db := crossed none [⟨0, 0⟩, ⟨0, 1⟩] 1 [0, 1]

def toTheEnd : IndexRun := ⟨none, fun _ => false, []⟩

theorem atRest_snapshotted : snapshotted.AtRest :=
  atRest_restored (fun _ => rfl) (fun _ => rfl) (by decide) (by decide) (by decide) (by decide)

theorem stored_snapshotted : snapshotted.Stored := by
  refine ⟨⟨Replay.new, by decide, rfl⟩, fun replay ran ref key position found => ?_⟩
  obtain rfl : Replay.new = replay := Option.some.inj ((by decide : some Replay.new = snapshotted.replayed).trans ran)
  have member : ⟨ref, key, position⟩ ∈
      [(⟨⟨0, 0⟩, [0, 0], ⟨64, 15⟩⟩ : StoredRecord), ⟨⟨0, 1⟩, [0, 1], ⟨0, 15⟩⟩] := by
    refine view_storedLevels ?_
    rw [← found]
    exact (Entry.probe_fromSnapshotData _ _ _ _).symm
  have below : ∀ record ∈ [(⟨⟨0, 0⟩, [0, 0], ⟨64, 15⟩⟩ : StoredRecord), ⟨⟨0, 1⟩, [0, 1], ⟨0, 15⟩⟩],
      record.position.offset < snapshotted.log.position := by decide
  exact below _ member

end Tidehunter.Db
