import Tidehunter.Relocation.Copies
import Tidehunter.Db.Restored
import Mathlib

/-!
# Runs that leave records out

The log is reclaimed up to the highest position among the cells a run processed, while
the records of the cells it did not process, and those behind the answer that stopped a
cell's walk, are not copied. So such a run keeps a record only if its file stays.
-/

namespace Tidehunter.Db

open Library Wal Index Flusher LargeTable

/-- A run leaves a key its value: the key's copy holds it, or the key has no copy and
its record reads in the reclaimed log. -/
def Survives (db : Db) (run : IndexRun) (ref : CellReference) (key : Bytes) (ks : Nat)
    (user value : Bytes) : Prop :=
  match copyOf db run ref key with
  | some record => copyValue (db.keySpaces ks) db.batchCodec record user = some value
  | none => (db.reclaimed (reclaimPoint db run) run.mapped).get ks user = some value

theorem get_indexBased_eq_some_iff {db final : Db} (rest : db.AtRest) {run : IndexRun}
    (finished : indexBasedRelocation db run = some final) {ks : Nat} {user key : Bytes}
    {ref : CellReference} (located : db.locate ks user = some (ref, key)) (value : Bytes) :
    final.get ks user = some value ↔ Survives db run ref key ks user value := by
  rw [get_indexBased rest finished, getAfter, located, Option.bind_some, Survives]
  cases copyOf db run ref key with
  | none => exact Iff.rfl
  | some record => exact Iff.rfl

theorem survives_of_not_visited {db : Db} {run : IndexRun} {ref : CellReference}
    (leftOut : ref ∉ visited db run) {key : Bytes} {ks : Nat} {user value : Bytes} :
    Survives db run ref key ks user value ↔
      (db.reclaimed (reclaimPoint db run) run.mapped).get ks user = some value := by
  rw [Survives, copyOf_of_not_visited leftOut]

/-! ## Cancelled and resumed runs -/

/-- Two cells, both processed. -/
def twoCells (filter : Option RelocationFilter) : Db :=
  crossed filter [⟨0, 0⟩, ⟨0, 1⟩] 1 [0, 1]

theorem atRest_twoCells (filter : Option RelocationFilter) : (twoCells filter).AtRest := by
  refine atRest_restored (fun _ => rfl) (fun _ => rfl) (by decide) (by decide) (by decide) ?_
  have ok : ∀ record ∈ [(⟨⟨0, 0⟩, [0, 0], ⟨64, 15⟩⟩ : StoredRecord), ⟨⟨0, 1⟩, [0, 1], ⟨0, 15⟩⟩],
      record.Ok (plainSpaces none) (twoFiles [0, 1] [0, 0]) := by decide
  exact ok

def wholeRun : IndexRun := ⟨none, fun _ => false, []⟩

/-- A thousand and one cells, records in the first and in the last. -/
def manyCells : Db :=
  crossed none ((List.range 1001).map fun cell => ⟨0, cell⟩) 1000 [3, 232]

/-- The command channel asks to stop at the second look. -/
def cancelledRun : IndexRun := ⟨none, fun count => count = 1000, []⟩

theorem atRest_manyCells : manyCells.AtRest := by
  refine atRest_restored (fun _ => rfl) (fun _ => rfl) ?_ ?_ (by decide) (by decide)
  · exact List.Nodup.map (fun first second same => (CellReference.mk.inj same).2) List.nodup_range
  · intro record member
    refine List.mem_map.mpr ⟨record.ref.cell, List.mem_range.mpr ?_, ?_⟩
    · revert record
      decide
    · revert record
      decide

/-- The filter was asked about the live record of a key and answered to remove it. -/
def AnsweredRemove (db : Db) (run : IndexRun) (ref : CellReference) (key : Bytes) : Prop :=
  let limit := run.effectiveLimit db.lastProcessed
  ref ∈ visited db run ∧ ∃ position value, (db.cells ref).get key = some position ∧
    (key, position) ∈ reached (db.keySpaces ref.keyspace) db.log limit
      ((db.cells ref).asOfView limit) ∧
    asked (db.keySpaces ref.keyspace) db.log limit (key, position) = some (value, .remove)

/-- The filter keeps key `[0, 0]` and stops at every other key. -/
def stopsBehindFirst : RelocationFilter := fun key _ =>
  if key = [0, 0] then .keep else .stopRelocation

def stoppedCells : Db := twoCells (some stopsBehindFirst)

end Tidehunter.Db
