import Tidehunter.Relocation.WalBased

/-!
# The WAL-based run as a whole

Each live record below the target is copied under its full key, in whatever batch it
falls, and its index entry moves to the copy. Nothing else changes.
-/

namespace Tidehunter.Db

open Library Wal Index Flusher LargeTable

/-! ## Copies under full keys -/

/-- The record behind an index entry below a limit. -/
def fullRecord (ks : KeySpaceDesc) (log : Log) (limit : Nat) (binding : Bytes × WalPosition) :
    Option (Bytes × Bytes) :=
  if binding.2.offset < limit then readRecordForIndexedKey ks log binding.2 binding.1 else none

theorem fullRecord_eq_some_iff {ks : KeySpaceDesc} {log : Log} {limit : Nat}
    {binding : Bytes × WalPosition} {record : Bytes × Bytes} :
    fullRecord ks log limit binding = some record ↔ binding.2.offset < limit ∧
      readRecordForIndexedKey ks log binding.2 binding.1 = some record := by
  unfold fullRecord
  split <;> simp_all

theorem relocateEntries_cons (ref : CellReference) (target : Nat) (binding : Bytes × WalPosition)
    (rest : List (Bytes × WalPosition)) (batch : List (Bytes × Bytes)) (db : Db) :
    relocateEntries ref target (binding :: rest) batch db =
      match fullRecord (db.keySpaces ref.keyspace) db.log target binding with
      | none => relocateEntries ref target rest batch db
      | some record =>
          if db.config.relocationBatchMaxBytes ≤ batchSize (batch ++ [record]) then
            match db.writeRelocatedBatch ref (batch ++ [record]) target with
            | none => none
            | some db => relocateEntries ref target rest [] db
          else relocateEntries ref target rest (batch ++ [record]) db := by
  obtain ⟨key, position⟩ := binding
  rw [relocateEntries]
  by_cases below : position.offset < target
  · have isRecord : fullRecord (db.keySpaces ref.keyspace) db.log target (key, position) =
        readRecordForIndexedKey (db.keySpaces ref.keyspace) db.log position key := if_pos below
    refine (if_pos below).trans ?_
    generalize fullRecord (db.keySpaces ref.keyspace) db.log target (key, position) = full
      at isRecord ⊢
    subst isRecord
    cases readRecordForIndexedKey (db.keySpaces ref.keyspace) db.log position key with
    | none => rfl
    | some record => rfl
  · have noRecord : fullRecord (db.keySpaces ref.keyspace) db.log target (key, position) = none :=
      if_neg below
    rw [if_neg below, noRecord]

/-- The frames of a cell's records as of a frontier and below a limit, under their full
keys. -/
def fullCopies (db : Db) (frontier limit : Nat) (ref : CellReference) : List WalEntry :=
  (((db.cells ref).asOfView frontier).filterMap
    (fullRecord (db.keySpaces ref.keyspace) db.log limit)).map (copyFrame ref.keyspace)

/-- The live record of a key lies below the limit, and the key is at a copy of it under its
full key. -/
def MovedToCopy (db later : Db) (limit : Nat) (ref : CellReference) (key : Bytes) : Prop :=
  ∃ position record copy, (db.cells ref).get key = some position ∧ position.offset < limit ∧
    readRecordForIndexedKey (db.keySpaces ref.keyspace) db.log position key = some record ∧
    (later.cells ref).get key = some copy ∧
    PointsAt later.log copy (copyFrame ref.keyspace record) ∧ db.log.position ≤ copy.offset

/-- A run from `db` that has written some frames. -/
structure Relocating (db later : Db) (target : Nat) (written : List WalEntry) : Prop where
  config : later.config = db.config
  cellRefs : later.cellRefs = db.cellRefs
  latch : later.latch = db.latch
  grown : db.log.Extends later.log
  frontier : db.lastProcessed ≤ later.lastProcessed
  settled : later.lastProcessed ≤ later.latch.getD later.log.position
  rest : ∀ ref, (later.cells ref).Quiescent later.log.minWalPosition
  frames : later.log.frames.entries.map Prod.snd = db.log.frames.entries.map Prod.snd ++ written
  keys : ∀ ref key, (later.cells ref).get key = (db.cells ref).get key ∨
    MovedToCopy db later target ref key

theorem Relocating.start {db : Db} (rest : db.AtRest) (target : Nat) :
    Relocating db db target [] where
  config := rfl
  cellRefs := rfl
  latch := rfl
  grown := Log.Extends.refl _
  frontier := le_refl _
  settled := rest.frontier
  rest := rest.rest
  frames := (List.append_nil _).symm
  keys _ _ := Or.inl rfl

/-- A record that a cell held below the target as of the run's frontier. -/
def Genuine (db : Db) (target : Nat) (ref : CellReference) (record : Bytes × Bytes) : Prop :=
  ∃ key position, (db.cells ref).getAt key db.lastProcessed = some position ∧
    position.offset < target ∧
    readRecordForIndexedKey (db.keySpaces ref.keyspace) db.log position key = some record

section Run

variable {db : Db} (rest : db.AtRest) {target : Nat} (low : target ≤ db.log.position)
variable (gap : ∀ ref key position, (db.cells ref).get key = some position →
  db.lastProcessed ≤ position.offset → target ≤ position.offset)

include rest gap in
theorem getAt_of_live {ref : CellReference} {key : Bytes} {position : WalPosition}
    (live : (db.cells ref).get key = some position) (below : position.offset < target) :
    (db.cells ref).getAt key db.lastProcessed = some position := by
  refine Entry.getAt_of_get (rest.rest ref).ok live (Nat.not_le.mp fun high => ?_)
  exact absurd (gap ref key position live high) (Nat.not_le.mpr below)

variable {later next : Db} {written : List WalEntry} {ref : CellReference}

/-- A key that moved to a copy stays there: copies are not below the target. -/
theorem MovedToCopy.stays {key : Bytes} (moved : MovedToCopy db later target ref key)
    (grown : later.log.Extends next.log) {update : Option WalPosition} (low : target ≤ db.log.position)
    (gets : (next.cells ref).get key = ((later.cells ref).get key).map
      (RelocationUpdates.movedPosition target update)) : MovedToCopy db next target ref key := by
  obtain ⟨position, record, copy, live, below, isRecord, isAt, points, high⟩ := moved
  have above : ¬ copy.offset < target := Nat.not_lt.mpr (low.trans high)
  refine ⟨position, record, copy, live, below, isRecord, ?_, points.extends grown, high⟩
  rw [gets, isAt, Option.map_some]
  cases update <;> simp [RelocationUpdates.movedPosition, above]

include rest low gap

/-- One batch of copies. -/
theorem Relocating.batch (progress : Relocating db later target written)
    {records : List (Bytes × Bytes)} (genuine : ∀ record ∈ records, Genuine db target ref record)
    (stepped : later.writeRelocatedBatch ref records target = some next) :
    Relocating db next target (written ++ records.map (copyFrame ref.keyspace)) ∧
      (∀ other, other ≠ ref → next.cells other = later.cells other) ∧
      (∀ other key, MovedToCopy db later target other key → MovedToCopy db next target other key) ∧
      ∀ key position record, (db.cells ref).get key = some position → position.offset < target →
        readRecordForIndexedKey (db.keySpaces ref.keyspace) db.log position key = some record →
        record ∈ records → MovedToCopy db next target ref key := by
  have spaces : later.keySpaces = db.keySpaces := by
    funext ks
    rw [keySpaces, progress.config, keySpaces]
  have ahead : ∀ key position, (later.cells ref).get key = some position →
      later.lastProcessed ≤ position.offset → target ≤ position.offset := by
    intro key position live high
    rcases progress.keys ref key with same | ⟨_, _, copy, _, _, _, isAt, _, above⟩
    · exact gap ref key position (same ▸ live) (progress.frontier.trans high)
    · rw [isAt] at live
      cases live
      exact low.trans above
  have result := writeRelocatedBatch_spec (progress.rest ref)
    (by rw [spaces]; exact rest.noCompactor _) progress.settled
    (low.trans progress.grown.position) ahead stepped
  obtain ⟨reducedKeys, positions, reduced, copies, gets⟩ := result.moved
  rw [spaces] at reduced
  -- the record a batch has for a key is the live record of that key
  have copied : ∀ key position record, (db.cells ref).get key = some position →
      position.offset < target → (later.cells ref).get key = (db.cells ref).get key →
      copyFor (db.keySpaces ref.keyspace) records key = some record →
      MovedToCopy db next target ref key := by
    intro key position record live below same found
    rcases target_zip _ reduced copies key with
      ⟨other, copy, isOther, isTarget, points, high, _⟩ | ⟨none, _⟩
    · rw [found] at isOther
      cases isOther
      obtain ⟨indexKey, asOf, seen, _, isRecord⟩ := genuine record (List.mem_of_find?_eq_some found)
      have isKey : (db.keySpaces ref.keyspace).reduceKey record.1 = some key := by
        simpa using List.find?_some found
      rw [rest.indexed ref indexKey _ asOf record seen isRecord] at isKey
      cases isKey
      rw [getAt_of_live rest gap live below] at seen
      cases seen
      refine ⟨position, record, copy, live, below, isRecord, ?_, points,
        progress.grown.position.trans high⟩
      rw [gets, same, live, isTarget]
      simp [RelocationUpdates.movedPosition, below]
    · rw [found] at none
      cases none
  have others : ∀ other, other ≠ ref → next.cells other = later.cells other := result.same.cells
  have keeps : ∀ other key, MovedToCopy db later target other key →
      MovedToCopy db next target other key := by
    intro other key moved
    by_cases here : other = ref
    · subst here
      exact moved.stays result.grown low (gets key)
    · obtain ⟨position, record, copy, live, below, isRecord, isAt, points, high⟩ := moved
      exact ⟨position, record, copy, live, below, isRecord, by rw [others other here, isAt],
        points.extends result.grown, high⟩
  refine ⟨⟨result.same.config.trans progress.config, result.same.cellRefs.trans progress.cellRefs,
    result.same.latch.trans progress.latch, progress.grown.trans result.grown,
    progress.frontier.trans result.frontier, result.settled, fun other => ?_, ?_,
    fun other key => ?_⟩, others, keeps, ?_⟩
  · by_cases here : other = ref
    · subst here
      exact result.rest
    · rw [others other here, result.grown.minWalPosition]
      exact progress.rest other
  · rw [result.frames, progress.frames, List.append_assoc]
  · by_cases here : other = ref
    · subst here
      rcases progress.keys other key with same | moved
      · cases live : (db.cells other).get key with
        | none =>
            refine Or.inl ?_
            rw [gets key, same, live]
            rfl
        | some position =>
            rcases target_zip _ reduced copies key with ⟨record, _, found, isTarget, _⟩ | ⟨_, none⟩
            · by_cases below : position.offset < target
              · exact Or.inr (copied key position record live below same found)
              · refine Or.inl ?_
                rw [gets key, same, live]
                simp [RelocationUpdates.movedPosition, isTarget, below]
            · refine Or.inl ?_
              rw [gets key, same, live, none]
              simp
      · exact Or.inr (keeps other key moved)
    · rcases progress.keys other key with same | moved
      · exact Or.inl (by rw [others other here, same])
      · exact Or.inr (keeps other key moved)
  · intro key position record live below isRecord member
    rcases progress.keys ref key with same | moved
    · have isKey := rest.indexed ref key _ position record (getAt_of_live rest gap live below) isRecord
      cases found : copyFor (db.keySpaces ref.keyspace) records key with
      | none =>
          have absent := List.find?_eq_none.mp found record member
          exact absurd (decide_eq_true isKey) absent
      | some other => exact copied key position other live below same found
    · exact keeps ref key moved

/-- The entries of a cell, with a batch begun. -/
theorem relocateEntries_spec {final : Db} {entries : List (Bytes × WalPosition)}
    {batch : List (Bytes × Bytes)} (progress : Relocating db later target written)
    (view : ∀ binding ∈ entries,
      (db.cells ref).getAt binding.1 db.lastProcessed = some binding.2)
    (genuine : ∀ record ∈ batch, Genuine db target ref record)
    (finished : relocateEntries ref target entries batch later = some final) :
    Relocating db final target (written ++ (batch ++ entries.filterMap
        (fullRecord (db.keySpaces ref.keyspace) db.log target)).map (copyFrame ref.keyspace)) ∧
      (∀ other, other ≠ ref → final.cells other = later.cells other) ∧
      (∀ other key, MovedToCopy db later target other key → MovedToCopy db final target other key) ∧
      ∀ key position record, (db.cells ref).get key = some position → position.offset < target →
        readRecordForIndexedKey (db.keySpaces ref.keyspace) db.log position key = some record →
        record ∈ batch ∨ (key, position) ∈ entries → MovedToCopy db final target ref key := by
  induction entries generalizing batch later written with
  | nil =>
      obtain ⟨all, others, keeps, moved⟩ := progress.batch rest low gap genuine finished
      refine ⟨by simpa using all, others, keeps, fun key position record live below isRecord inside => ?_⟩
      exact moved key position record live below isRecord (inside.resolve_right nofun)
  | cons binding entries ih =>
      have tail := fun other member => view other (List.mem_cons_of_mem binding member)
      have same : fullRecord (later.keySpaces ref.keyspace) later.log target binding =
          fullRecord (db.keySpaces ref.keyspace) db.log target binding := by
        unfold fullRecord
        split
        · rename_i below
          rw [readRecordForIndexedKey_extends _ progress.grown (lt_of_lt_of_le below low), keySpaces,
            progress.config, keySpaces]
        · rfl
      rw [relocateEntries_cons, same] at finished
      cases taken : fullRecord (db.keySpaces ref.keyspace) db.log target binding with
      | none =>
          rw [taken] at finished
          obtain ⟨all, others, keeps, moved⟩ := ih progress tail genuine finished
          refine ⟨by rwa [List.filterMap_cons, taken], others, keeps, ?_⟩
          intro key position record live below isRecord inside
          refine moved key position record live below isRecord (inside.imp_right fun member => ?_)
          rcases List.mem_cons.mp member with rfl | later
          · rw [fullRecord_eq_some_iff.mpr ⟨below, isRecord⟩] at taken
            cases taken
          · exact later
      | some record =>
          obtain ⟨below, isRecord⟩ := fullRecord_eq_some_iff.mp taken
          have extended : ∀ other ∈ batch ++ [record], Genuine db target ref other := by
            intro other member
            rcases List.mem_append.mp member with old | new
            · exact genuine other old
            · obtain rfl := List.mem_singleton.mp new
              exact ⟨_, _, view _ List.mem_cons_self, below, isRecord⟩
          have inBatch : ∀ key position found, readRecordForIndexedKey (db.keySpaces ref.keyspace)
              db.log position key = some found → found ∈ batch ∨ (key, position) ∈ binding :: entries →
              found ∈ batch ++ [record] ∨ (key, position) ∈ entries := by
            intro key position found isFound inside
            rcases inside with old | member
            · exact Or.inl (List.mem_append_left _ old)
            · rcases List.mem_cons.mp member with rfl | later
              · rw [isRecord] at isFound
                cases isFound
                exact Or.inl (List.mem_append_right _ (List.mem_singleton.mpr rfl))
              · exact Or.inr later
          rw [taken] at finished
          simp only at finished
          split at finished
          · split at finished
            · cases finished
            · rename_i next stepped
              obtain ⟨first, firstOthers, firstKeeps, firstMoved⟩ :=
                progress.batch rest low gap extended stepped
              obtain ⟨all, others, keeps, moved⟩ := ih first tail
                (fun _ member => absurd member List.not_mem_nil) finished
              refine ⟨?_, fun other different => ?_, fun other key old =>
                keeps other key (firstKeeps other key old), ?_⟩
              · rw [List.filterMap_cons, taken]
                simpa using all
              · rw [others other different, firstOthers other different]
              · intro key position found live low' isFound inside
                rcases inBatch key position found isFound inside with old | later
                · exact keeps ref key (firstMoved key position found live low' isFound old)
                · exact moved key position found live low' isFound (Or.inr later)
          · obtain ⟨all, others, keeps, moved⟩ := ih progress tail extended finished
            refine ⟨?_, others, keeps, ?_⟩
            · rw [List.filterMap_cons, taken]
              simpa using all
            · intro key position found live low' isFound inside
              exact moved key position found live low' isFound
                (inBatch key position found isFound inside)

/-- The walk over the cells, without filters. -/
theorem relocateCells_spec (noFilter : ∀ ks, (db.keySpaces ks).relocationFilter = none) {final : Db}
    {refs : List CellReference} {terminal : Nat} (progress : Relocating db later target written)
    (nodup : refs.Nodup) (fresh : ∀ ref ∈ refs, later.cells ref = db.cells ref)
    (finished : relocateCells db.lastProcessed terminal target refs later = some final) :
    Relocating db final target
        (written ++ refs.flatMap (fullCopies db db.lastProcessed target)) ∧
      (∀ other key, MovedToCopy db later target other key → MovedToCopy db final target other key) ∧
      ∀ ref ∈ refs, ∀ key position, (db.cells ref).get key = some position →
        position.offset < target → MovedToCopy db final target ref key := by
  induction refs generalizing later written with
  | nil =>
      cases finished
      exact ⟨by simpa using progress, fun _ _ moved => moved, nofun⟩
  | cons ref refs ih =>
      rw [relocateCells] at finished
      split at finished
      · cases finished
      · rename_i next stepped
        obtain ⟨headFresh, tailNodup⟩ := List.nodup_cons.mp nodup
        have noFilter' : (later.keySpaces ref.keyspace).relocationFilter.isSome = false := by
          rw [keySpaces, progress.config]
          change (db.keySpaces ref.keyspace).relocationFilter.isSome = false
          rw [noFilter]
          rfl
        rw [relocateCell, noFilter', fresh ref List.mem_cons_self] at stepped
        obtain ⟨first, others, keeps, moved⟩ := relocateEntries_spec rest low gap progress
          (fun binding member => (Entry.mem_asOfView_iff (rest.rest ref).ok).mp member)
          (fun _ member => absurd member List.not_mem_nil) stepped
        obtain ⟨all, tailKeeps, tailMoved⟩ := ih first tailNodup (fun other member => by
          rw [others other (by rintro rfl; exact headFresh member),
            fresh other (List.mem_cons_of_mem _ member)]) finished
        refine ⟨?_, fun other key old => tailKeeps other key (keeps other key old), ?_⟩
        · rw [List.flatMap_cons, ← List.append_assoc]
          simpa [fullCopies] using all
        · intro other member key position live below
          rcases List.mem_cons.mp member with rfl | later
          · obtain ⟨_, _, _, record, isRecord⟩ := rest.records other key position live
            exact tailKeeps other key (moved key position record live below isRecord
              (Or.inr ((Entry.mem_asOfView_iff (rest.rest other).ok).mpr
                (getAt_of_live rest gap live below))))
          · exact tailMoved other later key position live below

end Run

/-! ## The run -/

/-- No frame lies between the frontier and the terminal position. -/
theorem scanTerminal_spec {config : Config} {upperLimit terminal : Nat}
    {frames : List (Nat × WalEntry)}
    (sorted : frames.Pairwise fun first second => first.1 < second.1)
    (scanned : scanTerminal config upperLimit frames = some terminal) :
    (∀ frame ∈ frames, upperLimit ≤ frame.1 → terminal ≤ frame.1) ∧
      (terminal = 0 ∨ ∃ frame ∈ frames, frame.1 = terminal) := by
  induction frames with
  | nil =>
      cases scanned
      exact ⟨nofun, Or.inl rfl⟩
  | cons frame rest ih =>
      obtain ⟨offset, entry⟩ := frame
      obtain ⟨above, tailSorted⟩ := List.pairwise_cons.mp sorted
      have here : ∀ found, offset = found → (found = 0 ∨ ∃ frame ∈ (offset, entry) :: rest, frame.1 = found) :=
        fun found same => Or.inr ⟨_, List.mem_cons_self, same⟩
      have behind : ∀ frame ∈ (offset, entry) :: rest, offset ≤ frame.1 := by
        intro frame member
        rcases List.mem_cons.mp member with rfl | later
        · exact le_refl _
        · exact Nat.le_of_lt (above frame later)
      unfold scanTerminal at scanned
      split at scanned
      · cases scanned
        exact ⟨fun frame member _ => behind frame member, here _ rfl⟩
      · rename_i below
        have passed : scanTerminal config upperLimit rest = some terminal →
            (∀ frame ∈ (offset, entry) :: rest, upperLimit ≤ frame.1 → terminal ≤ frame.1) ∧
              (terminal = 0 ∨ ∃ frame ∈ (offset, entry) :: rest, frame.1 = terminal) := by
          intro later
          obtain ⟨gap, found⟩ := ih tailSorted later
          refine ⟨fun frame member high => ?_, found.imp_right fun ⟨frame, member, same⟩ =>
            ⟨frame, List.mem_cons_of_mem _ member, same⟩⟩
          rcases List.mem_cons.mp member with rfl | tail
          · exact absurd high below
          · exact gap frame tail high
        cases entry with
        | record ks key value relocated =>
            simp only at scanned
            split at scanned
            · cases scanned
              exact ⟨fun frame member _ => behind frame member, here _ rfl⟩
            · exact passed scanned
        | remove _ _ => exact passed scanned
        | batchStart _ => exact passed scanned
        | compressedBatch _ _ => cases scanned
        | dropCells _ _ _ _ => exact passed scanned

/-- A database whose live records below a target were copied under their full keys. -/
structure RelocatedBelow (db final : Db) (target : Nat) : Prop where
  config : final.config = db.config
  target_le : target ≤ db.log.position
  frames : final.log.frames.entries.map Prod.snd = db.log.frames.entries.map Prod.snd ++
    db.cellRefs.flatMap (fullCopies db db.lastProcessed target)
  reads : ∀ position, target ≤ position.offset → position.offset < db.log.position →
    final.log.read position = db.log.read position
  keys : ∀ ref key, (final.cells ref).get key = (db.cells ref).get key ∨
    MovedToCopy db final target ref key
  moved : ∀ ref key position, (db.cells ref).get key = some position → position.offset < target →
    MovedToCopy db final target ref key

/-- Storing the index and reclaiming below the target keep the copies and what is not
below the target. -/
theorem relocatedBelow_finishRelocation {db later : Db} (rest : db.AtRest) {target : Nat}
    (low : target ≤ db.log.position)
    (progress : Relocating db later target
      (db.cellRefs.flatMap (fullCopies db db.lastProcessed target)))
    (moved : ∀ ref key position, (db.cells ref).get key = some position →
      position.offset < target → MovedToCopy db later target ref key) (mapped : List Nat) :
    RelocatedBelow db (finishRelocation target mapped later) target := by
  have rebuilt := sameReads_rebuildControlRegionFrom progress.rest (fun ks => by
    rw [keySpaces, progress.config]
    exact rest.noCompactor ks) target
  rw [finishRelocation]
  generalize later.rebuildControlRegionFrom target = stored at rebuilt
  have kept : ∀ position, target ≤ position.offset →
      (stored.log.gc (min target stored.controlRegion.lastPosition) mapped).read position =
        later.log.read position := by
    intro position high
    rw [Log.read_gc_of_le _ ((min_le_left _ _).trans high), rebuilt.log]
  have carries : ∀ ref key, MovedToCopy db later target ref key →
      MovedToCopy db { stored with
        log := stored.log.gc (min target stored.controlRegion.lastPosition) mapped } target ref key := by
    rintro ref key ⟨position, record, copy, live, below, isRecord, isAt, points, high⟩
    refine ⟨position, record, copy, live, below, isRecord, ?_, ⟨?_, points.2⟩, high⟩
    · rw [← isAt]
      exact rebuilt.reads ref key
    · rw [← points.1]
      exact kept copy (low.trans high)
  refine ⟨rebuilt.config.trans progress.config, low, ?_, fun position high below => ?_,
    fun ref key => ?_, fun ref key position live below => carries ref key (moved ref key position live below)⟩
  · rw [← progress.frames, ← rebuilt.log]
    rfl
  · rw [← progress.grown.read below]
    exact kept position high
  · refine (progress.keys ref key).imp (fun same => ?_) (carries ref key)
    rw [← same]
    exact rebuilt.reads ref key

theorem walBasedRelocation_spec {db final : Db} (rest : db.AtRest)
    (noFilter : ∀ ks, (db.keySpaces ks).relocationFilter = none) {mapped : List Nat}
    (finished : walBasedRelocation db mapped = some final) :
    ∃ target, RelocatedBelow db final target := by
  unfold walBasedRelocation at finished
  split at finished
  · cases finished
  · split at finished
    · cases finished
    · rename_i terminal scanned
      simp only at finished
      split at finished
      · cases finished
        refine ⟨0, rfl, Nat.zero_le _, ?_, fun _ _ _ => rfl, fun _ _ => Or.inl rfl,
          fun _ _ _ _ below => absurd below (Nat.not_lt_zero _)⟩
        have nothing : ∀ ref, fullCopies db db.lastProcessed 0 ref = [] := by
          intro ref
          simp [fullCopies, fullRecord]
        simp [nothing]
      · generalize isTarget : db.targetPosition terminal = target at finished
        have target_le : target ≤ terminal := isTarget ▸ targetPosition_le_terminal db terminal
        have sorted : (replayFrames db.log db.log.minWalPosition).Pairwise
            fun first second => first.1 < second.1 := db.log.frames.sorted.filter _
        obtain ⟨clear, found⟩ := scanTerminal_spec sorted scanned
        have low : target ≤ db.log.position := by
          rcases found with rfl | ⟨frame, member, rfl⟩
          · exact target_le.trans (Nat.zero_le _)
          · exact target_le.trans
              (Nat.le_of_lt (db.log.frames_lt frame (List.mem_filter.mp member).1))
        have gap : ∀ ref key position, (db.cells ref).get key = some position →
            db.lastProcessed ≤ position.offset → target ≤ position.offset := by
          intro ref key position live high
          obtain ⟨_, frame, points, _⟩ := rest.records ref key position live
          obtain ⟨reachable, inLog⟩ := Log.read_eq_some_iff.mp points.1
          refine target_le.trans (clear (position.offset, frame) (List.mem_filter.mpr ⟨?_, ?_⟩) high)
          · exact SortedMap.mem_entries_of_lookup inLog
          · exact decide_eq_true (Log.minWalPosition_le_of_isReachable reachable)
        obtain ⟨later, walked, rfl⟩ := Option.map_eq_some_iff.mp finished
        obtain ⟨progress, _, moved⟩ := relocateCells_spec rest low gap noFilter
          (Relocating.start rest target) rest.nodup (fun _ _ => rfl) walked
        rw [List.nil_append] at progress
        refine ⟨target, relocatedBelow_finishRelocation rest low progress
          (fun ref key position live below => ?_) mapped⟩
        refine moved ref (rest.listed ref fun isEmpty => ?_) key position live below
        rw [Entry.get, Entry.probe, isEmpty] at live
        cases live

end Tidehunter.Db
