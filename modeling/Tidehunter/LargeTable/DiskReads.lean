import Tidehunter.Index.Format
import Tidehunter.LargeTable.EntryReads

/-!
# Reads of a cell whose blobs are read in place

A get of a cell looks into the table of the cell and then into its blobs, which it does not
load. What it finds in a blob is what the format of the key space reads back. With keys of one
size this is what was stored. With keys of variable length a tombstone does not read back as the
sentinel, and a deleted key reads as a position.
-/

namespace Tidehunter.LargeTable

open Library Wal Index Flusher

variable {K : Type} [LinearOrder K]

namespace Entry

variable (readBack : WalPosition → WalPosition)

/-- Combine the answer of the in-memory table with what is read back from the levels beneath
it. -/
def probeUnloaded (entry : Entry K) (found : Option WalPosition) (key : K) : Option WalPosition :=
  match entry.state with
  | .empty => none
  | .unloaded => readable ((entry.beneath key).map readBack)
  | .loaded => readable (found.or ((entry.beneath key).map readBack))
  | .dirtyUnloaded => readable (found.or ((entry.beneath key).map readBack))
  | .dirtyLoaded => readable (found.or ((entry.beneath key).map readBack))

def getUnloaded (entry : Entry K) (key : K) : Option WalPosition :=
  entry.probeUnloaded readBack (entry.data.get key) key

/-- Checkpoint read as of a frontier. -/
def getAtUnloaded (entry : Entry K) (key : K) (lastProcessed : Nat) : Option WalPosition :=
  entry.probeUnloaded readBack (entry.data.getAt key lastProcessed) key

/-- What readers of the cell see, as of a frontier for a checkpoint. -/
def view (entry : Entry K) : Option Nat → K → Option WalPosition
  | none, key => entry.getUnloaded readBack key
  | some frontier, key => entry.getAtUnloaded readBack key frontier

/-- What the table of the cell has, as of a frontier for a checkpoint. -/
def inMemory (entry : Entry K) : Option Nat → K → Option WalPosition
  | none, key => entry.data.get key
  | some frontier, key => entry.data.getAt key frontier

variable {entry : Entry K} {readBack}

theorem probeUnloaded_id (entry : Entry K) (found : Option WalPosition) (key : K) :
    entry.probeUnloaded id found key = entry.probe found key := by
  unfold probeUnloaded probe
  cases entry.state <;> simp only [Option.map_id, id_eq]

theorem probeUnloaded_eq (ok : entry.Ok) {found : Option WalPosition} {key : K}
    (inTable : entry.data = IndexTable.empty → found = none) :
    entry.probeUnloaded readBack found key =
      readable (found.or ((entry.beneath key).map readBack)) := by
  unfold probeUnloaded
  split
  · rename_i state
    rw [inTable (ok.emptyData state), Option.none_or, beneath, state, ok.emptyLevels state]
    rfl
  · rename_i state
    rw [inTable (ok.unloadedData state), Option.none_or]
  · rfl
  · rfl
  · rfl

theorem view_eq (ok : entry.Ok) (lastProcessed : Option Nat) (key : K) :
    entry.view readBack lastProcessed key =
      readable ((entry.inMemory lastProcessed key).or ((entry.beneath key).map readBack)) := by
  cases lastProcessed with
  | none =>
      refine probeUnloaded_eq ok fun nothing => ?_
      rw [nothing]
      rfl
  | some frontier =>
      refine probeUnloaded_eq ok fun nothing => ?_
      rw [nothing]
      rfl

/-! ## Loading -/

/-- An iterator that does not read blobs in place loads the cell. -/
def loads (entry : Entry K) : Bool :=
  entry.pendingLastProcessed = none && (entry.state = .unloaded || entry.state = .dirtyUnloaded)

theorem maybeLoad_of_not_loads (stays : entry.loads = false) : entry.maybeLoad = entry := by
  unfold maybeLoad
  split
  · rename_i idle state
    simp [loads, idle, state] at stays
  · rename_i idle state
    simp [loads, idle, state] at stays
  · rfl

/-- What a load leaves of the cell. -/
theorem reads_maybeLoad (ok : entry.Ok) (moves : entry.loads = true) (lastProcessed : Option Nat)
    (key : K) :
    entry.maybeLoad.inMemory lastProcessed key =
        (entry.inMemory lastProcessed key).or (entry.levels.lookupL0 key) ∧
      entry.maybeLoad.beneath key = entry.levels.deep.lookup key ∧
      entry.beneath key = (entry.levels.lookupL0 key).or (entry.levels.deep.lookup key) := by
  simp only [loads, Bool.and_eq_true, decide_eq_true_eq, Bool.or_eq_true] at moves
  have atFrontier : ∀ frontier, entry.levels.loadL0.getAt key frontier =
      entry.levels.lookupL0 key := fun frontier => by
    have nothing : ∀ mark ∈ entry.levels.loadL0.overlay key, frontier ≤ mark.offset := by
      rw [overlay_loadL0]
      exact fun _ member => absurd member (Set.notMem_empty _)
    rw [IndexTable.getAt_of_no_mark nothing, base_loadL0]
  obtain ⟨idle, state | state⟩ := moves
  · have loaded : entry.maybeLoad = { entry.setData entry.levels.loadL0 with state := .loaded } := by
      simp only [maybeLoad, idle, state]
    rw [loaded]
    refine ⟨?_, rfl, ?_⟩
    · cases lastProcessed with
      | none =>
          simp only [inMemory, setData, get_loadL0, ok.unloadedData state]
          rfl
      | some frontier =>
          simp only [inMemory, setData, atFrontier, ok.unloadedData state]
          rfl
    · simp [beneath, state, EntryState.coversL0, IndexLevels.lookup]
  · have loaded : entry.maybeLoad =
        { entry.setData (entry.levels.loadL0.mergeDirtyNoClean entry.data) with
          state := .dirtyLoaded } := by
      simp only [maybeLoad, idle, state]
    rw [loaded]
    refine ⟨?_, rfl, ?_⟩
    · cases lastProcessed with
      | none =>
          simp only [inMemory, setData, IndexTable.mergeDirtyNoClean,
            IndexTable.get_mergeDirty (data_loadL0 entry.levels), base_loadL0]
      | some frontier =>
          simp only [inMemory, setData, IndexTable.mergeDirtyNoClean,
            IndexTable.getAt_mergeDirty (data_loadL0 entry.levels), base_loadL0]
    · simp [beneath, state, EntryState.coversL0, IndexLevels.lookup]

/-- A get of the key reads a tombstone of `L0` as a position, and a load would show it as the
tombstone it is. -/
def Misread (readBack : WalPosition → WalPosition) (entry : Entry K) (lastProcessed : Option Nat)
    (key : K) : Prop :=
  entry.loads = true ∧ entry.inMemory lastProcessed key = none ∧
    entry.levels.lookupL0 key = some WalPosition.invalid ∧
    readBack WalPosition.invalid ≠ WalPosition.invalid

/-- Loading changes a read only when it finds a tombstone that was misread. -/
theorem view_maybeLoad (readBackValid : ∀ position, position ≠ WalPosition.invalid →
    readBack position = position) (ok : entry.Ok) (lastProcessed : Option Nat) (key : K) :
    entry.maybeLoad.view readBack lastProcessed key = entry.view readBack lastProcessed key ↔
      ¬Misread readBack entry lastProcessed key := by
  cases moves : entry.loads with
  | false =>
      rw [maybeLoad_of_not_loads moves]
      exact iff_of_true rfl fun misread => absurd (moves.symm.trans misread.1) nofun
  | true =>
      obtain ⟨memory, under, all⟩ := reads_maybeLoad ok moves lastProcessed key
      rw [view_eq (ok_maybeLoad ok), view_eq ok, memory, under, all]
      cases held : entry.inMemory lastProcessed key with
      | some position =>
          refine iff_of_true rfl fun misread => ?_
          cases held.symm.trans misread.2.1
      | none =>
          rw [Option.none_or, Option.none_or]
          cases top : entry.levels.lookupL0 key with
          | none =>
              refine iff_of_true rfl fun misread => ?_
              cases top.symm.trans misread.2.2.1
          | some position =>
              rw [Option.some_or, Option.some_or, Option.map_some]
              by_cases tombstone : position = WalPosition.invalid
              · subst tombstone
                rw [readable_invalid]
                constructor
                · rintro same ⟨-, -, -, other⟩
                  have valid : readable (some (readBack WalPosition.invalid)) =
                      some (readBack WalPosition.invalid) :=
                    readable_eq_some_iff.mpr ⟨rfl, by simpa [WalPosition.isValid] using other⟩
                  rw [valid] at same
                  cases same
                · intro notMisread
                  have same : readBack WalPosition.invalid = WalPosition.invalid := by
                    by_contra other
                    exact notMisread ⟨moves, held, top, other⟩
                  rw [same, readable_invalid]
              · rw [readBackValid position tombstone]
                refine iff_of_true rfl fun misread => tombstone ?_
                exact Option.some.inj (top.symm.trans misread.2.2.1)

/-! ## Misread tombstones -/

/-- A tombstone on disk reads as a position, and nothing in memory hides it. -/
def MisreadOnDisk (readBack : WalPosition → WalPosition) (entry : Entry K)
    (lastProcessed : Option Nat) (key : K) : Prop :=
  entry.inMemory lastProcessed key = none ∧ entry.beneath key = some WalPosition.invalid ∧
    readBack WalPosition.invalid ≠ WalPosition.invalid

/-- A reader sees what is stored, or a misread tombstone. -/
theorem view_eq_or (readBackValid : ∀ position, position ≠ WalPosition.invalid →
    readBack position = position) (ok : entry.Ok) (lastProcessed : Option Nat) (key : K) :
    entry.view readBack lastProcessed key = entry.view id lastProcessed key ∨
      entry.view readBack lastProcessed key = some (readBack WalPosition.invalid) ∧
        entry.view id lastProcessed key = none := by
  rw [view_eq ok, view_eq ok, Option.map_id, id_eq]
  cases entry.inMemory lastProcessed key with
  | some position => exact Or.inl rfl
  | none =>
      cases entry.beneath key with
      | none => exact Or.inl rfl
      | some position =>
          rw [Option.none_or, Option.none_or, Option.map_some]
          by_cases tombstone : position = WalPosition.invalid
          · subst tombstone
            by_cases same : readBack WalPosition.invalid = WalPosition.invalid
            · exact Or.inl (congrArg (fun position => readable (some position)) same)
            · exact Or.inr ⟨readable_eq_some_iff.mpr
                ⟨rfl, by simpa [WalPosition.isValid] using same⟩, rfl⟩
          · rw [readBackValid position tombstone]
            exact Or.inl rfl

/-- What a reader sees besides readable entries are misread tombstones. -/
theorem view_ne_none_iff (readBackValid : ∀ position, position ≠ WalPosition.invalid →
    readBack position = position) (ok : entry.Ok) (lastProcessed : Option Nat) (key : K) :
    entry.view readBack lastProcessed key ≠ none ↔
      entry.view id lastProcessed key ≠ none ∨
        entry.MisreadOnDisk readBack lastProcessed key := by
  rw [view_eq ok, view_eq ok, MisreadOnDisk, Option.map_id, id_eq]
  cases entry.inMemory lastProcessed key with
  | some position => simp
  | none =>
      cases beneath : entry.beneath key with
      | none => simp
      | some position =>
          by_cases tombstone : position = WalPosition.invalid
          · subst tombstone
            simp [readable, WalPosition.valid]
          · simp [readBackValid position tombstone, tombstone]

/-- A get finds what is stored unless it misreads a tombstone. -/
theorem getUnloaded_eq_get_iff (readBackValid : ∀ position, position ≠ WalPosition.invalid →
    readBack position = position) (ok : entry.Ok) (key : K) :
    entry.getUnloaded readBack key = entry.get key ↔ ¬entry.MisreadOnDisk readBack none key := by
  have stored : entry.get key = entry.view id none key := (probeUnloaded_id entry _ key).symm
  have seen : entry.getUnloaded readBack key = entry.view readBack none key := rfl
  rw [stored, seen, view_eq ok, view_eq ok, MisreadOnDisk, Option.map_id, id_eq]
  cases entry.inMemory none key with
  | some position => simp
  | none =>
      cases beneath : entry.beneath key with
      | none => simp
      | some position =>
          by_cases tombstone : position = WalPosition.invalid
          · subst tombstone
            simp [readable, WalPosition.valid]
          · simp [readBackValid position tombstone, tombstone]

end Entry

end Tidehunter.LargeTable
