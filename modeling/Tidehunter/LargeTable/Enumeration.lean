import Tidehunter.LargeTable.CellRuns
import Tidehunter.LargeTable.Iteration

/-!
# Iteration enumerates the present keys

From no cursor an iterator lists, in order and each once, the keys it sees in the cells. These
are the keys a get finds, unless a tombstone on disk reads as a position for one of them and
not for the other, or the value cache has a record of a deleted key.
-/

namespace Tidehunter.LargeTable

open Library Wal Index Flusher KeyShape

namespace KsTable

/-! ## The list of an iterator -/

variable {blooms : BloomFilter Bytes} (table : KsTable blooms)

/-- Ask for the next entry until there is none. -/
def iterateFrom (lastProcessed : Option Nat) (direction : Direction) :
    Nat → CellId → Option Bytes → IterCaches table.format → Option (List (Bytes × WalPosition))
  | 0, _, _, _ => some []
  | fuel + 1, cell, prev, caches =>
      match table.nextEntry lastProcessed none direction cell prev caches with
      | none => none
      | some (none, _) => some []
      | some (some (cell, key, position), caches) =>
          (iterateFrom lastProcessed direction fuel cell (some key) caches).map
            ((key, position) :: ·)

/-- Iterate from no cursor. -/
def iterate (lastProcessed : Option Nat) (direction : Direction) :
    Option (List (Bytes × WalPosition)) :=
  table.iterateFrom lastProcessed direction table.steps (table.startCell direction) none
    IterCaches.clear

variable {table} {cell : CellId} {key : Bytes} {lastProcessed : Option Nat} {direction : Direction}
  {prev : Option Bytes}

/-! ## Enumeration -/

theorem iterateFrom_spec (ok : table.Ok) {fuel : Nat} (holds : table.Holds cell)
    (behind : ∀ key, prev = some key → table.shape.cellId key = some cell)
    {caches : IterCaches table.format} (fit : table.FitAt cell caches)
    (enough : table.stepsLeft direction cell prev ≤ fuel) :
    ∃ list, table.iterateFrom lastProcessed direction fuel cell prev caches = some list ∧
      Enumerates direction (table.Ahead direction none cell prev) (table.view lastProcessed)
        list := by
  induction fuel generalizing cell prev caches with
  | zero =>
      unfold stepsLeft at enough
      omega
  | succ fuel ih =>
      obtain ⟨result, kept, ran, next, located⟩ := @nextEntry_spec _ table cell lastProcessed
        direction prev none ok holds behind caches fit
      rw [iterateFrom, ran]
      cases result with
      | none => exact ⟨[], rfl, Enumerates.nil next⟩
      | some found =>
          obtain ⟨foundCell, key, position⟩ := found
          obtain ⟨ofKey, keptFit⟩ := located _ rfl
          have fewer := stepsLeft_found ok next.1 next.2.1 ofKey
          obtain ⟨rest, ranRest, listed⟩ := ih (holds_of_cellId ofKey)
            (fun other same => Option.some.inj same ▸ ofKey) keptFit
            (Nat.le_of_lt_succ (Nat.lt_of_lt_of_le fewer enough))
          refine ⟨(key, position) :: rest, by simp only [ranRest, Option.map_some],
            Enumerates.cons next ?_⟩
          exact listed.congr fun other _ _ => ahead_found next.1 ofKey other

/-- From no cursor every key the iterator sees is listed. -/
theorem iterate_spec (ok : table.Ok) (lastProcessed : Option Nat) (direction : Direction) :
    ∃ list, table.iterate lastProcessed direction = some list ∧
      Enumerates direction (fun _ => True) (table.view lastProcessed) list := by
  have noPrev : ∀ key, (none : Option Bytes) = some key →
      table.shape.cellId key = some (table.startCell direction) := nofun
  obtain ⟨list, ran, listed⟩ := iterateFrom_spec ok (holds_startCell table direction) noPrev
    (fun entry _ => cachesFit_clear entry.levels.blobs)
    (stepsLeft_le_steps ok direction (table.startCell direction) none)
  refine ⟨list, ran, listed.congr fun key position shown => iff_of_true ?_ trivial⟩
  obtain ⟨cell, ofKey, -⟩ := Option.bind_eq_some_iff.mp shown
  refine ⟨cell, ofKey, ?_⟩
  rcases direction.before_or_eq_or_before (table.startCell direction) cell with
    before | same | after
  · exact .inr ⟨before, nofun⟩
  · exact .inl ⟨same.symm, trivial⟩
  · cases direction with
    | forward => exact absurd after (CellShape.firstCell_le ofKey).not_gt
    | backward => exact absurd after (CellShape.le_lastCell ofKey).not_gt

/-! ## Iteration and gets -/

/-- The entry an iterator walks in a cell whose operations are applied. -/
def walked (table : KsTable blooms) (promoted : Cell Bytes blooms) : Entry Bytes :=
  if table.unloadedIterator then promoted.entry else promoted.entry.maybeLoad

/-- A key without a readable entry is misread by an iterator if and only if a get finds it: it
misreads a tombstone that its filter lets pass, or the value cache has a record. -/
def ReadsAlike (table : KsTable blooms) (lastProcessed : Option Nat) (key : Bytes) : Prop :=
  ∀ cell slot promoted, table.shape.cellId key = some cell →
    table.entries.lookup cell = some slot → table.promoted slot = some promoted →
      promoted.entry.view id lastProcessed key = none →
        ((table.walked promoted).MisreadOnDisk table.format.readBack lastProcessed key ↔
          promoted.bloomFilterNotFound key = false ∧
              promoted.entry.MisreadOnDisk table.format.readBack lastProcessed key ∨
            lastProcessed = none ∧ slot.cached key ≠ none)

variable {slot : Slot blooms} {promoted : Cell Bytes blooms}

theorem view_walked (cellOk : table.CellOk cell promoted) :
    (table.walked promoted).view table.format.readBack lastProcessed key ≠ none ↔
      promoted.entry.view id lastProcessed key ≠ none ∨
        (table.walked promoted).MisreadOnDisk table.format.readBack lastProcessed key := by
  unfold walked
  split
  · exact Entry.view_ne_none_iff table.format.readBack_of_valid cellOk.walkOk.ok lastProcessed key
  · have same : promoted.entry.maybeLoad.view id lastProcessed key =
        promoted.entry.view id lastProcessed key :=
      (Entry.view_maybeLoad (fun _ _ => rfl) cellOk.walkOk.ok lastProcessed key).mpr
        fun misread => misread.2.2.2 rfl
    rw [← same]
    exact Entry.view_ne_none_iff table.format.readBack_of_valid
      (Entry.walkOk_maybeLoad cellOk.walkOk).ok lastProcessed key

theorem view_of_slot (ofKey : table.shape.cellId key = some cell)
    (held : table.entries.lookup cell = some slot)
    (isPromoted : table.promoted slot = some promoted) :
    table.view lastProcessed key =
      (table.walked promoted).view table.format.readBack lastProcessed key := by
  rw [view, ofKey, Option.bind_some, cellView, entryAt, held, Option.bind_some, prepareCell,
    isPromoted]
  rfl

/-- What a get finds in a cell. -/
theorem present_of_slot (ofKey : table.shape.cellId key = some cell)
    (held : table.entries.lookup cell = some slot)
    (isPromoted : table.promoted slot = some promoted) :
    table.Present lastProcessed key ↔
      promoted.bloomFilterNotFound key = false ∧
          promoted.entry.view table.format.readBack lastProcessed key ≠ none ∨
        lastProcessed = none ∧ slot.cached key ≠ none := by
  cases lastProcessed with
  | none =>
      simp only [Present, reads, get, ofKey, held, isPromoted, Option.bind_some, Option.map_some,
        Option.some.injEq, exists_eq_left', true_and, Entry.view]
      unfold getIn
      cases slot.cached key with
      | some record => simp
      | none =>
          cases promoted.bloomFilterNotFound key with
          | true => simp
          | false => cases promoted.entry.getUnloaded table.format.readBack key <;> simp
  | some frontier =>
      simp only [Present, reads, getCheckpoint, ofKey, held, isPromoted, Option.bind_some,
        Option.map_some, Option.some.injEq, exists_eq_left', reduceCtorEq, false_and, or_false,
        Entry.view]
      unfold getCheckpointIn
      cases promoted.bloomFilterNotFound key with
      | true => simp
      | false =>
          cases promoted.entry.getAtUnloaded table.format.readBack key frontier with
          | none => simp
          | some position => cases servedAt slot key frontier promoted <;> simp

/-- For a key, iterators and gets agree if and only if they read it alike. -/
theorem view_ne_none_iff_present_iff (ok : table.Ok) :
    (table.view lastProcessed key ≠ none ↔ table.Present lastProcessed key) ↔
      table.ReadsAlike lastProcessed key := by
  cases ofKey : table.shape.cellId key with
  | none =>
      refine iff_of_true ?_ fun _ _ _ other => nomatch ofKey.symm.trans other
      cases lastProcessed <;> simp [view, Present, reads, get, getCheckpoint, ofKey]
  | some cell =>
      cases held : table.entries.lookup cell with
      | none =>
          refine iff_of_true ?_ fun other _ _ same other' => ?_
          · cases lastProcessed <;>
              simp [view, cellView, entryAt, Present, reads, get, getCheckpoint, ofKey, held]
          · cases Option.some.inj (ofKey.symm.trans same)
            cases held.symm.trans other'
      | some slot =>
          obtain ⟨promoted, isPromoted, cellOk⟩ := ok.rests cell slot held
          have passes := cellOk.filtered lastProcessed key
          have alike : table.ReadsAlike lastProcessed key ↔
              (promoted.entry.view id lastProcessed key = none →
                ((table.walked promoted).MisreadOnDisk table.format.readBack lastProcessed key ↔
                  promoted.bloomFilterNotFound key = false ∧
                      promoted.entry.MisreadOnDisk table.format.readBack lastProcessed key ∨
                    lastProcessed = none ∧ slot.cached key ≠ none)) := by
            refine ⟨fun all => all cell slot promoted ofKey held isPromoted,
              fun here otherCell otherSlot other sameCell sameSlot samePromoted => ?_⟩
            cases Option.some.inj (ofKey.symm.trans sameCell)
            cases Option.some.inj (held.symm.trans sameSlot)
            cases Option.some.inj (isPromoted.symm.trans samePromoted)
            exact here
          rw [alike, view_of_slot ofKey held isPromoted, view_walked cellOk,
            present_of_slot ofKey held isPromoted,
            Entry.view_ne_none_iff table.format.readBack_of_valid cellOk.walkOk.ok lastProcessed key]
          tauto

/-- Iteration from no cursor comes to its end, and lists its keys in order and each once. They
are the keys that gets find if and only if both read every key alike. -/
theorem iterate_lists_present_iff (table : KsTable blooms) (ok : table.Ok)
    (lastProcessed : Option Nat) (direction : Direction) :
    ∃ list, table.iterate lastProcessed direction = some list ∧
      (list.map Prod.fst).Pairwise direction.Before ∧
      ((∀ key, key ∈ list.map Prod.fst ↔ table.Present lastProcessed key) ↔
        ∀ key, table.ReadsAlike lastProcessed key) := by
  obtain ⟨list, ran, listed⟩ := iterate_spec ok lastProcessed direction
  refine ⟨list, ran, List.pairwise_map.mpr listed.sorted, forall_congr' fun key => ?_⟩
  rw [← view_ne_none_iff_present_iff ok]
  have member : key ∈ list.map Prod.fst ↔ table.view lastProcessed key ≠ none := by
    rw [List.mem_map, Option.ne_none_iff_exists']
    constructor
    · rintro ⟨⟨other, position⟩, inList, rfl⟩
      exact ⟨position, ((listed.complete _ _).mp inList).2⟩
    · rintro ⟨position, shown⟩
      exact ⟨(key, position), (listed.complete _ _).mpr ⟨trivial, shown⟩, rfl⟩
  rw [member]

/-! ## A key space of one cell -/

def passAll : BloomFilter Bytes where
  Filter := Unit
  new := ()
  insert _ _ := ()
  contains _ _ := true
  contains_insert _ _ := rfl
  contains_of_contains _ _ _ _ := rfl

def oneCell : CellShape where
  mutexes := 1
  keyType := .uniform ⟨1, one_eq_two_pow⟩
  powerOfTwo := one_eq_two_pow
  fits config same := by
    cases same
    decide

theorem cellId_oneCell (key : Bytes) : oneCell.cellId key = some (.integer 0) := by
  rw [CellShape.cellId_uniform rfl, downscaleU32, rescaleU32]
  have small := startingU32_lt key
  simp only [CellShape.numCells, oneCell, Nat.mul_one, Option.some.injEq, CellId.integer.injEq]
  exact Nat.div_eq_of_lt small

/-- The table of a key space whose one cell is live. -/
def ofLive (indexFormat : IndexFormatType) (unloadedIterator : Bool)
    (live : LiveCell Bytes passAll) : KsTable passAll where
  shape := oneCell
  indexFormat := indexFormat
  unloadedIterator := unloadedIterator
  cellIndex := SortedMap.empty
  entries := SortedMap.empty.insert (.integer 0) ⟨live.cell, fun _ => none⟩
  frontier := live.frontier
  status := live.status

theorem ok_ofLive {indexFormat : IndexFormatType} {unloadedIterator : Bool}
    {live : LiveCell Bytes passAll} (ok : live.cell.entry.Ok)
    (unsharded : live.cell.entry.levels.deep.isSharded = false)
    (unique : UniqueBlobs live.cell.entry.levels.blobs) (noPending : live.cell.pending = [])
    (noFilter : live.cell.bloom = none) : (ofLive indexFormat unloadedIterator live).Ok where
  created cell slot held := by
    obtain rfl : cell = .integer 0 := by
      by_contra other
      simp [ofLive, SortedMap.lookup_insert, other] at held
    exact List.mem_map_of_mem (List.mem_range.mpr Nat.one_pos)
  rests cell slot held := by
    obtain rfl : cell = .integer 0 := by
      by_contra other
      simp [ofLive, SortedMap.lookup_insert, other] at held
    simp only [ofLive, SortedMap.lookup_insert, if_true, Option.some.injEq] at held
    subst held
    refine ⟨live.cell, ?_, ⟨ok, fun shards same => ?_, unique⟩, fun key _ => cellId_oneCell key,
      fun _ key _ => ?_⟩
    · simp only [promoted, Cell.promotePending, ofLive, noPending, List.filter_nil, List.foldlM_nil]
      exact congrArg some (by rw [← noPending])
    · rw [same] at unsharded
      cases unsharded
    · rw [Cell.bloomFilterNotFound, noFilter]
      rfl
  kinds _ member := absurd member List.not_mem_nil

/-- A key space that promotes its second entry. -/
def twoKeys : KsConfig Bytes where
  l0MaxEntries := 1
  autoShardThreshold := none
  serializedLen content := 40 * content.size
  compactor := none
  unloadingDisabled := false

/-- Two keys are flushed, then one of them is removed and the tombstone is flushed. -/
def removedKey : List (LiveCell.Event Bytes) :=
  [.write [1] true ⟨0, 20⟩, .write [2] true ⟨20, 20⟩, .publish 40, .work (.observe 40),
    .work (.requestFlush []),
    .work (.execute ⟨40, 0, 80, zero_le_eighty, eighty_le_u64Max⟩ ⟨.small, 0⟩),
    .work .complete, .write [1] false ⟨40, 20⟩, .publish 60, .work (.observe 60),
    .work (.requestFlush []),
    .work (.execute ⟨60, 0, 80, zero_le_eighty, eighty_le_u64Max⟩ ⟨.small, 128⟩),
    .work .complete]

/-- The run of a removed key leaves a table at rest. -/
theorem exists_removedKey (check : LiveCell Bytes passAll → Bool)
    (checked : (runEvents (LiveCell.step twoKeys) removedKey
      (LiveCell.new none : LiveCell Bytes passAll)).any check = true) :
    ∃ live, runEvents (LiveCell.step twoKeys) removedKey
        (LiveCell.new none : LiveCell Bytes passAll) = some live ∧
      check live = true ∧ ∀ indexFormat unloadedIterator,
        (ofLive indexFormat unloadedIterator live).Ok := by
  have rested : (runEvents (LiveCell.step twoKeys) removedKey
      (LiveCell.new none : LiveCell Bytes passAll)).any (fun live =>
        !live.cell.entry.levels.deep.isSharded && live.cell.pending.isEmpty &&
        live.cell.bloom.isNone && decide (∀ first ∈ live.cell.entry.levels.blobs,
          ∀ second ∈ live.cell.entry.levels.blobs, first.position = second.position →
            first.content = second.content)) = true := by
    decide +kernel
  obtain ⟨live, ran, met⟩ := (Option.any_eq_true _ _).mp rested
  simp only [Bool.and_eq_true, Bool.not_eq_true', List.isEmpty_iff, Option.isNone_iff_eq_none,
    decide_eq_true_eq] at met
  obtain ⟨⟨⟨unsharded, noPending⟩, noFilter⟩, unique⟩ := met
  obtain ⟨other, ranOther, checkedOther⟩ := (Option.any_eq_true _ _).mp checked
  cases Option.some.inj (ran.symm.trans ranOther)
  exact ⟨live, ran, checkedOther, fun _ _ =>
    ok_ofLive (LiveCell.sound_of_ran rfl (by decide) ran).keeps.ok unsharded unique noPending
      noFilter⟩

/-- With keys of variable length and an iterator that loads cells, a get finds the removed key
and the iterator does not list it. -/
theorem removedKey_found_not_listed :
    ∃ live, runEvents (LiveCell.step twoKeys) removedKey
        (LiveCell.new none : LiveCell Bytes passAll) = some live ∧
      (ofLive (.header none) false live).Ok ∧
      (ofLive (.header none) false live).get [1] = some (.walPosition varlenTombstone) ∧
      (ofLive (.header none) false live).iterate none .forward = some [([2], ⟨20, 20⟩)] := by
  obtain ⟨live, ran, met, ok⟩ := exists_removedKey (fun live =>
    decide ((ofLive (.header none) false live).get [1] = some (.walPosition varlenTombstone)) &&
      decide ((ofLive (.header none) false live).iterate none .forward =
        some [([2], ⟨20, 20⟩)])) (by decide +kernel)
  simp only [Bool.and_eq_true, decide_eq_true_eq] at met
  exact ⟨live, ran, ok _ _, met.1, met.2⟩

theorem iterate_lists_present_iff_removedKey :
    ∃ live, runEvents (LiveCell.step twoKeys) removedKey
        (LiveCell.new none : LiveCell Bytes passAll) = some live ∧
      (ofLive (.header (some 1)) true live).Ok ∧
      (ofLive (.header (some 1)) true live).get [1] = some .notFound ∧
      ∃ list, (ofLive (.header (some 1)) true live).iterate none .backward = some list ∧
        (list.map Prod.fst).Pairwise Direction.backward.Before ∧
        ((∀ key, key ∈ list.map Prod.fst ↔
            (ofLive (.header (some 1)) true live).Present none key) ↔
          ∀ key, (ofLive (.header (some 1)) true live).ReadsAlike none key) := by
  obtain ⟨live, ran, met, ok⟩ := exists_removedKey (fun live =>
    decide ((ofLive (.header (some 1)) true live).get [1] = some .notFound)) (by decide +kernel)
  exact ⟨live, ran, ok _ _, of_decide_eq_true met, iterate_lists_present_iff _ (ok _ _) _ _⟩

end KsTable

end Tidehunter.LargeTable
