import Tidehunter.Db.Restored
import Tidehunter.Iterators.Yields
import Tidehunter.LargeTable.Enumeration
import Tidehunter.Relocation.Cutoff
import Tidehunter.Relocation.WalBased

/-!
# Gets, existence checks and iteration

The three ways to find a key turn an answer of the index into a record differently. A get takes a
frame just long enough for the key for an empty value and reads every other one. An existence
check is content with the index where an index key stands for one key only. An iterator reads
every frame and passes over what it cannot read. They agree as long as what the index has is
backed by records.
-/

namespace Tidehunter.LargeTable.KsTable

open Library Wal Index KeyShape

variable {blooms : BloomFilter Bytes} {table : KsTable blooms} {key : Bytes}

/-- What the value cache has for an index key. -/
def cachedAt (table : KsTable blooms) (key : Bytes) : Option (Bytes × Bytes) :=
  (table.shape.cellId key).bind fun cell =>
    (table.entries.lookup cell).bind fun slot => slot.cached key

/-- A get misreads a tombstone of the key. -/
def GetMisreads (table : KsTable blooms) (key : Bytes) : Prop :=
  ∃ cell slot promoted, table.shape.cellId key = some cell ∧
    table.entries.lookup cell = some slot ∧ table.promoted slot = some promoted ∧
    promoted.bloomFilterNotFound key = false ∧
    promoted.entry.MisreadOnDisk table.format.readBack none key

/-- An iterator misreads a tombstone of the key. -/
def WalkMisreads (table : KsTable blooms) (key : Bytes) : Prop :=
  ∃ cell slot promoted, table.shape.cellId key = some cell ∧
    table.entries.lookup cell = some slot ∧ table.promoted slot = some promoted ∧
    (table.walked promoted).MisreadOnDisk table.format.readBack none key

/-- The cell of a key and what is in it. -/
inductive Locates (table : KsTable blooms) (key : Bytes) : Prop
  | nowhere (noCell : table.shape.cellId key = none)
  | unused (cell : CellId) (ofKey : table.shape.cellId key = some cell)
      (held : table.entries.lookup cell = none)
  | used (cell : CellId) (slot : Slot blooms) (promoted : Cell Bytes blooms)
      (ofKey : table.shape.cellId key = some cell) (held : table.entries.lookup cell = some slot)
      (isPromoted : table.promoted slot = some promoted) (cellOk : table.CellOk cell promoted)

theorem locates (ok : table.Ok) (key : Bytes) : table.Locates key := by
  cases ofKey : table.shape.cellId key with
  | none => exact .nowhere ofKey
  | some cell =>
      cases held : table.entries.lookup cell with
      | none => exact .unused cell ofKey held
      | some slot =>
          obtain ⟨promoted, isPromoted, cellOk⟩ := ok.rests cell slot held
          exact .used cell slot promoted ofKey held isPromoted cellOk

section Used

variable {cell : CellId} {slot : Slot blooms} {promoted : Cell Bytes blooms}

theorem getMisreads_of_slot (ofKey : table.shape.cellId key = some cell)
    (held : table.entries.lookup cell = some slot)
    (isPromoted : table.promoted slot = some promoted) :
    table.GetMisreads key ↔ promoted.bloomFilterNotFound key = false ∧
      promoted.entry.MisreadOnDisk table.format.readBack none key := by
  constructor
  · rintro ⟨otherCell, otherSlot, other, sameCell, sameSlot, samePromoted, misread⟩
    cases Option.some.inj (ofKey.symm.trans sameCell)
    cases Option.some.inj (held.symm.trans sameSlot)
    cases Option.some.inj (isPromoted.symm.trans samePromoted)
    exact misread
  · exact fun misread => ⟨cell, slot, promoted, ofKey, held, isPromoted, misread⟩

theorem stored_of_slot (ofKey : table.shape.cellId key = some cell)
    (held : table.entries.lookup cell = some slot)
    (isPromoted : table.promoted slot = some promoted) (lastProcessed : Option Nat) :
    table.stored lastProcessed key = promoted.entry.view id lastProcessed key := by
  rw [stored, ofKey, Option.bind_some, held, Option.bind_some, isPromoted, Option.bind_some]

theorem cachedAt_of_slot (ofKey : table.shape.cellId key = some cell)
    (held : table.entries.lookup cell = some slot) : table.cachedAt key = slot.cached key := by
  rw [cachedAt, ofKey, Option.bind_some, held, Option.bind_some]

theorem get_of_slot (ofKey : table.shape.cellId key = some cell)
    (held : table.entries.lookup cell = some slot)
    (isPromoted : table.promoted slot = some promoted) :
    table.get key = some (table.getIn slot key promoted) := by
  rw [get, ofKey, Option.bind_some, held]
  simp only [isPromoted, Option.map_some]

end Used

/-- The index answers from the value cache first. -/
theorem get_of_cached (ok : table.Ok) {full value : Bytes}
    (cached : table.cachedAt key = some (full, value)) :
    table.get key = some (.value full value) := by
  cases locates ok key with
  | nowhere noCell => rw [cachedAt, noCell] at cached; cases cached
  | unused cell ofKey held => rw [cachedAt, ofKey, Option.bind_some, held] at cached; cases cached
  | used cell slot promoted ofKey held isPromoted cellOk =>
      rw [cachedAt_of_slot ofKey held] at cached
      rw [get_of_slot ofKey held isPromoted, getIn, cached]

/-- Without a cached record the index answers with what is stored, or a misread tombstone. -/
theorem get_of_not_cached (ok : table.Ok) (located : table.shape.cellId key ≠ none)
    (cached : table.cachedAt key = none) :
    (∃ position, table.stored none key = some position ∧
        table.get key = some (.walPosition position)) ∨
      table.stored none key = none ∧
        (table.GetMisreads key ∧
            table.get key = some (.walPosition (table.format.readBack WalPosition.invalid)) ∨
          ¬table.GetMisreads key ∧ table.get key = some .notFound) := by
  cases locates ok key with
  | nowhere noCell => exact absurd noCell located
  | unused cell ofKey held =>
      refine .inr ⟨by rw [stored, ofKey, Option.bind_some, held, Option.bind_none], .inr ⟨?_, ?_⟩⟩
      · rintro ⟨other, slot, -, sameCell, sameSlot, -⟩
        cases Option.some.inj (ofKey.symm.trans sameCell)
        cases held.symm.trans sameSlot
      · rw [get, ofKey, Option.bind_some, held]
  | used cell slot promoted ofKey held isPromoted cellOk =>
      rw [cachedAt_of_slot ofKey held] at cached
      rw [getMisreads_of_slot ofKey held isPromoted, stored_of_slot ofKey held isPromoted,
        get_of_slot ofKey held isPromoted]
      unfold getIn
      rw [cached]
      have valid := table.format.readBack_of_valid
      have passes := cellOk.filtered none key
      have unloaded : promoted.entry.getUnloaded table.format.readBack key =
          promoted.entry.view table.format.readBack none key := rfl
      rcases Entry.view_eq_or valid cellOk.walkOk.ok none key with same | ⟨misread, nothing⟩
      · cases isStored : promoted.entry.view id none key with
        | some position =>
            have passed := passes (by rw [isStored]; rintro ⟨⟩)
            refine .inl ⟨position, rfl, ?_⟩
            simp only [passed, Bool.false_eq_true, if_false, unloaded, same, isStored]
        | none =>
            refine .inr ⟨rfl, .inr ⟨?_, ?_⟩⟩
            · rintro ⟨-, misread⟩
              have seen := (Entry.view_ne_none_iff valid cellOk.walkOk.ok none key).mpr (.inr misread)
              exact seen (same.trans isStored)
            · simp only [unloaded, same, isStored, ite_self]
      · have seen : promoted.entry.view table.format.readBack none key ≠ none := by
          rw [misread]
          rintro ⟨⟩
        have isMisread : promoted.entry.MisreadOnDisk table.format.readBack none key :=
          ((Entry.view_ne_none_iff valid cellOk.walkOk.ok none key).mp seen).resolve_left
            (not_not.mpr nothing)
        refine .inr ⟨nothing, ?_⟩
        cases passed : promoted.bloomFilterNotFound key with
        | true =>
            refine .inr ⟨fun both => ?_, rfl⟩
            cases both.1
        | false =>
            refine .inl ⟨⟨rfl, isMisread⟩, ?_⟩
            simp only [Bool.false_eq_true, if_false, unloaded, misread]

/-- A misread tombstone is no entry. -/
theorem stored_of_getMisreads (ok : table.Ok) (misreads : table.GetMisreads key) :
    table.stored none key = none := by
  obtain ⟨cell, slot, promoted, ofKey, held, isPromoted, -, inMemory, beneath, -⟩ := misreads
  obtain ⟨other, isOther, cellOk⟩ := ok.rests cell slot held
  cases Option.some.inj (isPromoted.symm.trans isOther)
  rw [stored_of_slot ofKey held isPromoted, Entry.view_eq cellOk.walkOk.ok, inMemory, beneath]
  rfl

theorem get_of_nowhere (noCell : table.shape.cellId key = none) : table.get key = none := by
  rw [get, noCell, Option.bind_none]

/-- An iterator finds the keys with an entry and those whose tombstone it misreads. -/
theorem view_ne_none_iff_stored (ok : table.Ok) :
    table.view none key ≠ none ↔ table.stored none key ≠ none ∨ table.WalkMisreads key := by
  cases locates ok key with
  | nowhere noCell =>
      simp [view, stored, WalkMisreads, noCell]
  | unused cell ofKey held =>
      simp [view, cellView, entryAt, stored, WalkMisreads, ofKey, held]
  | used cell slot promoted ofKey held isPromoted cellOk =>
      rw [view_of_slot ofKey held isPromoted, view_walked cellOk,
        stored_of_slot ofKey held isPromoted]
      refine or_congr_right ⟨fun misread => ⟨cell, slot, promoted, ofKey, held, isPromoted, misread⟩,
        ?_⟩
      rintro ⟨otherCell, otherSlot, other, sameCell, sameSlot, samePromoted, misread⟩
      cases Option.some.inj (ofKey.symm.trans sameCell)
      cases Option.some.inj (held.symm.trans sameSlot)
      cases Option.some.inj (isPromoted.symm.trans samePromoted)
      exact misread

end Tidehunter.LargeTable.KsTable

namespace Tidehunter.Iterators

open Library Wal Index KeyShape LargeTable Db

/-! ## The three ways to find a key -/

/-- A key space without work in flight. -/
structure RestingKeySpace (blooms : BloomFilter Bytes) where
  desc : KeySpaceDesc
  batchCodec : Bool
  log : Log
  table : KsTable blooms

namespace RestingKeySpace

variable {blooms : BloomFilter Bytes} (space : RestingKeySpace blooms)

/-- A position too short for a frame is a panic where its payload is measured. -/
def measures (position : WalPosition) : Bool :=
  space.desc.keyIndexing.needCheckIndexKey || space.batchCodec ||
    decide (crcHeaderLength ≤ position.len)

/-- The value of a key at a position. None is a panic. -/
def readCheckKey (key : Bytes) (position : WalPosition) : Option (Option Bytes) :=
  if space.measures position then
    some (readRecordCheckKey space.desc space.batchCodec space.log key position)
  else none

/-- The value of a key. None is a panic. -/
def get (key : Bytes) : Option (Option Bytes) :=
  (space.desc.reduceKey key).bind fun reduced =>
    (space.table.get reduced).bind fun
      | .value full value =>
          some (if space.desc.keyIndexing.needCheckIndexKey && decide (full ≠ key) then none
            else some value)
      | .walPosition position => space.readCheckKey key position
      | .notFound => some none

/-- Whether a key exists. Where an index key stands for one key only, the record is not read. -/
def existsKey (key : Bytes) : Option Bool :=
  (space.desc.reduceKey key).bind fun reduced =>
    (space.table.get reduced).bind fun
      | .value full _ => some (!space.desc.keyIndexing.needCheckIndexKey || decide (full = key))
      | .walPosition position =>
          if space.desc.keyIndexing.needCheckIndexKey then
            (space.readCheckKey key position).map Option.isSome
          else some true
      | .notFound => some false

/-- What an iterator walks. A cached record is not read again. -/
def source : IterationSource blooms where
  table := space.table
  lastProcessed := none
  keyIndexing := space.desc.keyIndexing
  hashKey := space.desc.hashKey
  record key position :=
    match space.table.cachedAt key with
    | some record => some record
    | none => readRecordForIndexedKey space.desc space.log position key

/-- All records an iterator without bounds gives. -/
def iterate : Option (List (Bytes × Bytes)) := (DbIterator.new space.source).collect

/-- The index and the value cache hold records under their index keys. A frame may be gone, but
one that is there is the frame that was indexed. -/
structure Ok : Prop where
  table : space.table.Ok
  framed : ∀ key position entry, space.table.stored none key = some position →
    space.log.read position = some entry → position = WalPosition.ofEntry position.offset entry
  indexed : ∀ key position record, space.table.stored none key = some position →
    readRecordForIndexedKey space.desc space.log position key = some record →
      space.desc.reduceKey record.1 = some key
  cached : ∀ key record, space.table.cachedAt key = some record →
    space.desc.reduceKey record.1 = some key
  plain : space.batchCodec = false → ∀ offset inner len,
    space.log.frames.lookup offset ≠ some (.compressedBatch inner len)
  deduplicated : ∀ offset inner len,
    space.log.frames.lookup offset = some (.compressedBatch inner len) →
      Deduplicated space.desc inner

/-- Get, exists and iteration agree about a key. -/
structure Agrees (list : List (Bytes × Bytes)) (key : Bytes) : Prop where
  found : (∃ value, space.get key = some (some value)) ↔ space.existsKey key = some true
  listed : space.existsKey key = some true ↔ ∃ value, (key, value) ∈ list
  value : ∀ value, space.get key = some (some value) ↔ (key, value) ∈ list

/-- What the value cache and the index answer for a key is backed. A cached record belongs to the
key and the index still has an entry; without key reduction no tombstone is misread, and the
record of the entry is there and belongs to the key. -/
def Backed (key : Bytes) : Prop :=
  ∀ indexKey, space.desc.reduceKey key = some indexKey →
    (∀ full value, space.table.cachedAt indexKey = some (full, value) →
      space.desc.keyIndexing.needCheckIndexKey = true ∧ full ≠ key ∨
        full = key ∧ (space.table.stored none indexKey ≠ none ∨
          space.table.WalkMisreads indexKey)) ∧
    (space.table.cachedAt indexKey = none → space.desc.keyIndexing.needCheckIndexKey = false →
      ¬space.table.GetMisreads indexKey ∧
        ∀ position, space.table.stored none indexKey = some position →
          ∃ value, readRecordForIndexedKey space.desc space.log position indexKey =
            some (key, value))

/-! ## Reading records -/

variable {space} {key : Bytes} {position : WalPosition}

theorem resolve_sentinel (log : Log) (sentinel : position.offset = u64Max) :
    resolveRecordFrame log position = none := by
  have nothing : log.read position = none := by
    rw [Option.eq_none_iff_forall_ne_some]
    intro entry found
    have below := Log.lookup_lt (Log.read_eq_some_iff.mp found).2
    rw [sentinel] at below
    exact absurd log.position_le (Nat.not_le.mpr below)
  rw [resolveRecordFrame, nothing]

theorem readRecordForIndexedKey_sentinel (ks : KeySpaceDesc) (log : Log) (key : Bytes)
    (sentinel : position.offset = u64Max) :
    readRecordForIndexedKey ks log position key = none := by
  rw [readRecordForIndexedKey, resolve_sentinel log sentinel]

/-- A record found under a wider match is found under its own. -/
theorem findRecordBy_narrow {body : List BatchOp} {ks : Nat} {wide narrow : Bytes → Bool}
    (within : ∀ other, narrow other = true → wide other = true) {value : Bytes}
    (own : narrow key = true) (found : findRecordBy body ks wide = some (key, value)) :
    findRecordBy body ks narrow = some (key, value) := by
  induction body with
  | nil => cases found
  | cons op rest ih =>
      unfold findRecordBy at found ih ⊢
      rw [List.findSome?_cons] at found ⊢
      by_cases isWide : op.ks = ks ∧ wide op.key = true
      · rw [if_pos isWide] at found
        cases held : op.value with
        | none =>
            rw [held] at found
            rw [Option.map_none, ite_self]
            exact ih found
        | some opValue =>
            rw [held] at found
            cases Option.some.inj found
            rw [if_pos ⟨isWide.1, own⟩]
            rfl
      · rw [if_neg isWide] at found
        rw [if_neg fun isNarrow => isWide ⟨isNarrow.1, within _ isNarrow.2⟩]
        exact ih found

/-- A found record is that of an operation. -/
theorem exists_op_of_findRecordBy {body : List BatchOp} {ks : Nat} {isMatch : Bytes → Bool}
    {value : Bytes} (found : findRecordBy body ks isMatch = some (key, value)) :
    ∃ op ∈ body, op.ks = ks ∧ isMatch key = true ∧ op.key = key := by
  obtain ⟨op, member, here⟩ := List.exists_of_findSome?_eq_some found
  split at here
  · rename_i isOp
    obtain ⟨_, -, same⟩ := Option.map_eq_some_iff.mp here
    cases same
    exact ⟨op, member, isOp.1, isOp.2, rfl⟩
  · cases here

/-- In a batch with one operation for an index key, the record of a key is the one found under
its index key. -/
theorem findRecordBy_of_own {ks : KeySpaceDesc} {body : List BatchOp} {indexKey : Bytes}
    (deduplicated : Deduplicated ks body) (reduced : ks.reduceKey key = some indexKey)
    {value : Bytes} (found : findRecordBy body ks.id (fun other => other = key) = some (key, value)) :
    findRecordBy body ks.id (fun other => ks.reduceKey other = some indexKey) =
      some (key, value) := by
  induction body with
  | nil => cases found
  | cons op rest ih =>
      obtain ⟨first, later⟩ := List.pairwise_cons.mp deduplicated
      have notLater : op.ks = ks.id ∧ ks.reduceKey op.key = some indexKey →
          findRecordBy rest ks.id (fun other => other = key) ≠ some (key, value) := by
        rintro ⟨isKs, isIndex⟩ inRest
        obtain ⟨other, member, otherKs, -, otherKey⟩ := exists_op_of_findRecordBy inRest
        refine first other member isKs otherKs ?_
        rw [isIndex, otherKey, reduced]
      unfold findRecordBy at found ih notLater ⊢
      rw [List.findSome?_cons] at found ⊢
      by_cases isIndex : op.ks = ks.id ∧ ks.reduceKey op.key = some indexKey
      · rw [if_pos ⟨isIndex.1, decide_eq_true isIndex.2⟩]
        by_cases isKey : op.key = key
        · rw [if_pos ⟨isIndex.1, decide_eq_true isKey⟩] at found
          cases held : op.value with
          | none =>
              rw [held] at found
              exact absurd found (notLater isIndex)
          | some opValue =>
              rw [held] at found
              exact found
        · rw [if_neg fun both => isKey (of_decide_eq_true both.2)] at found
          exact absurd found (notLater isIndex)
      · have notKey : ¬(op.ks = ks.id ∧ decide (op.key = key) = true) := fun both =>
          isIndex ⟨both.1, by rw [of_decide_eq_true both.2, reduced]⟩
        rw [if_neg notKey] at found
        rw [if_neg fun both => isIndex ⟨both.1, of_decide_eq_true both.2⟩]
        exact ih later found

theorem findRecord_eq_some_iff {body : List BatchOp} {ks : Nat} {value : Bytes} :
    findRecord body ks key = some value ↔
      findRecordBy body ks (fun other => other = key) = some (key, value) := by
  constructor
  · intro found
    obtain ⟨⟨other, otherValue⟩, isFound, rfl⟩ := Option.map_eq_some_iff.mp found
    obtain ⟨-, -, -, isKey, -⟩ := exists_op_of_findRecordBy isFound
    cases of_decide_eq_true isKey
    exact isFound
  · intro found
    rw [findRecord, found]
    rfl

/-- With key reduction a get reads the record of an entry and compares its key. -/
theorem readRecordCheckKey_reduced (ok : space.Ok)
    (checks : space.desc.keyIndexing.needCheckIndexKey = true) {indexKey : Bytes}
    (reduced : space.desc.reduceKey key = some indexKey) (value : Bytes) :
    readRecordCheckKey space.desc space.batchCodec space.log key position = some value ↔
      readRecordForIndexedKey space.desc space.log position indexKey = some (key, value) := by
  unfold readRecordCheckKey readRecordForIndexedKey
  rw [checks, Bool.not_true, Bool.false_and, Bool.false_and, if_neg Bool.false_ne_true]
  cases resolved : resolveRecordFrame space.log position with
  | none => simp
  | some frame =>
      cases frame with
      | record full held =>
          by_cases isKey : full = key
          · simp [isKey]
          · simp [isKey]
      | batch body =>
          have deduplicated : Deduplicated space.desc body := by
            unfold resolveRecordFrame at resolved
            split at resolved <;> cases resolved
            rename_i inner len isBatch
            exact ok.deduplicated _ _ _ (Log.read_eq_some_iff.mp isBatch).2
          simp only [findRecord_eq_some_iff]
          refine ⟨findRecordBy_of_own deduplicated reduced, findRecordBy_narrow ?_ ?_⟩
          · intro other isKey
            rw [of_decide_eq_true isKey]
            exact decide_eq_true reduced
          · exact decide_eq_true rfl

/-- Without key reduction a get gives the value of a record that is there. -/
theorem readCheckKey_of_record (ok : space.Ok) {indexKey value : Bytes}
    (stored : space.table.stored none indexKey = some position)
    (reduced : space.desc.reduceKey key = some indexKey)
    (read : readRecordForIndexedKey space.desc space.log position indexKey = some (key, value)) :
    space.readCheckKey key position = some (some value) := by
  unfold readRecordForIndexedKey resolveRecordFrame at read
  cases isRead : space.log.read position with
  | none =>
      rw [isRead] at read
      cases read
  | some entry =>
      have framed := ok.framed indexKey position entry stored isRead
      have len : position.len = entry.len + crcHeaderLength := congrArg WalPosition.len framed
      have measured : space.measures position = true := by
        rw [measures, Bool.or_eq_true]
        exact .inr (decide_eq_true (len ▸ Nat.le_add_left _ _))
      rw [readCheckKey, if_pos measured, readRecordCheckKey, resolveRecordFrame, isRead]
      rw [isRead] at read
      cases entry with
      | record ks full held relocated =>
          cases Option.some.inj read
          split
          · rename_i short
            simp only [Bool.and_eq_true, decide_eq_true_eq, WalPosition.payloadLen, len,
              Nat.add_sub_cancel, WalEntry.len, WalEntry.recordLen, List.length_nil,
              Nat.add_left_cancel_iff, List.length_eq_zero_iff] at short
            rw [short.2]
          · simp
      | compressedBatch inner length =>
          have codec : space.batchCodec = true := by
            by_contra off
            exact ok.plain (Bool.eq_false_iff.mpr off) _ _ _ (Log.read_eq_some_iff.mp isRead).2
          rw [codec, Bool.not_true, Bool.and_false, Bool.false_and, if_neg Bool.false_ne_true]
          refine congrArg some (findRecord_eq_some_iff.mpr (findRecordBy_narrow ?_ ?_ read))
          · intro other isKey
            rw [of_decide_eq_true isKey]
            exact decide_eq_true reduced
          · exact decide_eq_true rfl
      | remove _ _ => cases read
      | batchStart _ => cases read
      | dropCells _ _ _ _ => cases read

/-! ## Iteration -/

theorem seen_of_cached {indexKey : Bytes} {record : Bytes × Bytes}
    (cached : space.table.cachedAt indexKey = some record) :
    space.source.seen indexKey = some record ↔ space.table.view none indexKey ≠ none := by
  show (space.table.view none indexKey).bind (fun position =>
    match space.table.cachedAt indexKey with
    | some record => some record
    | none => readRecordForIndexedKey space.desc space.log position indexKey) = _ ↔ _
  rw [cached]
  cases space.table.view none indexKey <;> simp

/-- What is not cached is read from the log. -/
theorem seen_of_not_cached (ok : space.Ok) {indexKey : Bytes}
    (cached : space.table.cachedAt indexKey = none) :
    space.source.seen indexKey = (space.table.stored none indexKey).bind fun position =>
      readRecordForIndexedKey space.desc space.log position indexKey := by
  show (space.table.view none indexKey).bind (fun position =>
    match space.table.cachedAt indexKey with
    | some record => some record
    | none => readRecordForIndexedKey space.desc space.log position indexKey) = _
  rw [cached]
  rcases KsTable.view_eq_or ok.table none indexKey with same | ⟨misread, nothing⟩
  · rw [same]
  · rw [misread, nothing, Option.bind_some, Option.bind_none]
    exact readRecordForIndexedKey_sentinel _ _ _ (IterationSource.offset_readBack_invalid space.source)

theorem walks (ok : space.Ok) : space.source.Walks := by
  refine ⟨ok.table, fun indexKey record seen => ?_⟩
  cases cached : space.table.cachedAt indexKey with
  | some held =>
      obtain ⟨position, shown, -⟩ := Option.bind_eq_some_iff.mp seen
      have viewed : space.table.view none indexKey ≠ none := fun none => nomatch shown.symm.trans none
      cases Option.some.inj (seen.symm.trans ((seen_of_cached cached).mpr viewed))
      exact ok.cached indexKey record cached
  | none =>
      rw [seen_of_not_cached ok cached] at seen
      obtain ⟨position, stored, read⟩ := Option.bind_eq_some_iff.mp seen
      exact ok.indexed indexKey position record stored read

/-- An iterator without bounds gives the records it sees. -/
theorem iterate_spec (ok : space.Ok) :
    ∃ list, space.iterate = some list ∧
      ∀ record, record ∈ list ↔ ∃ indexKey, space.source.seen indexKey = some record := by
  have ready : (DbIterator.new space.source).Ready space.table.shape.firstCell :=
    ⟨rfl, KsTable.holds_startCell space.table .forward, nofun,
      fun entry _ => cachesFit_clear entry.levels.blobs⟩
  obtain ⟨listed, collected, enumerates⟩ :=
    DbIterator.collect_spec (walks ok) (.inl ⟨rfl, rfl⟩) ready
  refine ⟨_, collected, fun record => ?_⟩
  have inside : (DbIterator.new space.source).inside = space.source.seen := by
    funext indexKey
    have unchecked := fun key =>
      @DbIterator.checkBounds_of_no_bounds _ space.source (DbIterator.new space.source) rfl rfl key
    unfold DbIterator.inside
    cases space.source.seen indexKey <;> simp [unchecked]
  have complete := enumerates.complete
  rw [inside] at complete
  rw [List.mem_map]
  constructor
  · rintro ⟨⟨indexKey, found⟩, member, rfl⟩
    exact ⟨indexKey, ((complete indexKey found).mp member).2⟩
  · rintro ⟨indexKey, seen⟩
    obtain ⟨position, shown⟩ := IterationSource.view_of_seen seen
    obtain ⟨cell, ofKey, -⟩ := Option.bind_eq_some_iff.mp shown
    refine ⟨(indexKey, record), (complete indexKey record).mpr ⟨?_, seen⟩, rfl⟩
    exact (KsTable.ahead_none_iff ofKey).mpr
      ⟨(CellShape.firstCell_le ofKey).not_gt, .inr nofun⟩

/-- The iterator gives a key under its index key. -/
theorem mem_iterate_iff (ok : space.Ok) {list : List (Bytes × Bytes)}
    (listed : ∀ record, record ∈ list ↔ ∃ indexKey, space.source.seen indexKey = some record)
    {indexKey : Bytes} (reduced : space.desc.reduceKey key = some indexKey) (value : Bytes) :
    (key, value) ∈ list ↔ space.source.seen indexKey = some (key, value) := by
  rw [listed]
  refine ⟨?_, fun seen => ⟨indexKey, seen⟩⟩
  rintro ⟨other, seen⟩
  have sameKey : space.desc.reduceKey key = some other := (walks ok).reduces other (key, value) seen
  cases Option.some.inj (reduced.symm.trans sameKey)
  exact seen

/-! ## Agreement -/

section Keys

variable {list : List (Bytes × Bytes)} {indexKey : Bytes}

/-- A key that none of the three finds. -/
theorem agrees_of_absent (noValue : ∀ value, space.get key ≠ some (some value))
    (notFound : space.existsKey key ≠ some true) (unlisted : ∀ value, (key, value) ∉ list) :
    space.Agrees list key :=
  ⟨iff_of_false (fun ⟨value, found⟩ => noValue value found) notFound,
    iff_of_false notFound fun ⟨value, member⟩ => unlisted value member,
    fun value => iff_of_false (noValue value) (unlisted value)⟩

/-- A key that all three find with one value. -/
theorem agrees_of_present {held : Bytes} (found : space.get key = some (some held))
    (existing : space.existsKey key = some true)
    (member : ∀ value, (key, value) ∈ list ↔ held = value) : space.Agrees list key := by
  refine ⟨iff_of_true ⟨held, found⟩ existing,
    iff_of_true existing ⟨held, (member held).mpr rfl⟩, fun value => ?_⟩
  rw [found, member, Option.some.injEq, Option.some.injEq]

theorem agrees_iff_of_cached (ok : space.Ok) {full held : Bytes}
    (reduced : space.desc.reduceKey key = some indexKey)
    (member : ∀ value, (key, value) ∈ list ↔ space.source.seen indexKey = some (key, value))
    (cached : space.table.cachedAt indexKey = some (full, held)) :
    space.Agrees list key ↔
      space.desc.keyIndexing.needCheckIndexKey = true ∧ full ≠ key ∨
        full = key ∧ (space.table.stored none indexKey ≠ none ∨
          space.table.WalkMisreads indexKey) := by
  have answered := KsTable.get_of_cached ok.table cached
  have seen := @seen_of_cached _ space indexKey (full, held) cached
  rw [← KsTable.view_ne_none_iff_stored ok.table, ← seen]
  have get : space.get key = some (if space.desc.keyIndexing.needCheckIndexKey &&
      decide (full ≠ key) then none else some held) := by
    rw [RestingKeySpace.get, reduced, Option.bind_some, answered, Option.bind_some]
  have existing : space.existsKey key =
      some (!space.desc.keyIndexing.needCheckIndexKey || decide (full = key)) := by
    rw [existsKey, reduced, Option.bind_some, answered, Option.bind_some]
  have onlyFull : ∀ value, space.source.seen indexKey = some (key, value) → full = key := by
    intro value isSeen
    obtain ⟨position, shown⟩ := IterationSource.view_of_seen isSeen
    have same := seen.mpr fun nothing => nomatch shown.symm.trans nothing
    exact congrArg Prod.fst (Option.some.inj (same.symm.trans isSeen))
  by_cases isKey : full = key
  · subst isKey
    simp only [ne_eq, not_true_eq_false, decide_false, Bool.and_false, Bool.false_eq_true, if_false]
      at get
    simp only [decide_true, Bool.or_true] at existing
    simp only [ne_eq, not_true_eq_false, and_false, false_or, true_and]
    constructor
    · intro agrees
      exact (member held).mp ((agrees.value held).mp get)
    · intro isSeen
      refine agrees_of_present get existing fun value => ?_
      rw [member, isSeen, Option.some.injEq, Prod.mk.injEq, and_iff_right rfl]
  · have unlisted : ∀ value, (key, value) ∉ list := fun value inList =>
      isKey (onlyFull value ((member value).mp inList))
    simp only [isKey, false_and, or_false, ne_eq, not_false_eq_true, and_true]
    cases checks : space.desc.keyIndexing.needCheckIndexKey with
    | true =>
        simp only [checks, isKey, ne_eq, not_false_eq_true, decide_true, Bool.and_self, if_true]
          at get
        simp only [checks, isKey, Bool.not_true, decide_false, Bool.or_self] at existing
        refine iff_of_true (agrees_of_absent (fun value => ?_) ?_ unlisted) rfl
        · rw [get]
          exact nofun
        · rw [existing]
          exact nofun
    | false =>
        simp only [checks, Bool.false_and, Bool.false_eq_true, if_false] at get
        refine iff_of_false (fun agrees => ?_) Bool.false_ne_true
        exact unlisted held ((agrees.value held).mp get)

theorem agrees_iff_of_not_cached (ok : space.Ok)
    (reduced : space.desc.reduceKey key = some indexKey)
    (member : ∀ value, (key, value) ∈ list ↔ space.source.seen indexKey = some (key, value))
    (located : space.table.shape.cellId indexKey ≠ none)
    (cached : space.table.cachedAt indexKey = none) :
    space.Agrees list key ↔
      (space.desc.keyIndexing.needCheckIndexKey = false →
        ¬space.table.GetMisreads indexKey ∧
          ∀ position, space.table.stored none indexKey = some position →
            ∃ value, readRecordForIndexedKey space.desc space.log position indexKey =
              some (key, value)) := by
  rw [seen_of_not_cached ok cached] at member
  have answers : ∀ position, space.table.get indexKey = some (.walPosition position) →
      space.get key = space.readCheckKey key position ∧
        space.existsKey key = if space.desc.keyIndexing.needCheckIndexKey then
          (space.readCheckKey key position).map Option.isSome else some true := by
    intro position answered
    constructor
    · rw [RestingKeySpace.get, reduced, Option.bind_some, answered, Option.bind_some]
    · rw [existsKey, reduced, Option.bind_some, answered, Option.bind_some]
  have reads : ∀ position, space.desc.keyIndexing.needCheckIndexKey = true →
      space.readCheckKey key position =
        some (readRecordCheckKey space.desc space.batchCodec space.log key position) := by
    intro position checks
    rw [readCheckKey, measures, checks, Bool.true_or, Bool.true_or, if_pos rfl]
  rcases KsTable.get_of_not_cached ok.table located cached with
    ⟨position, stored, answered⟩ | ⟨nothing, ⟨misreads, answered⟩ | ⟨notMisread, answered⟩⟩
  · obtain ⟨get, existing⟩ := answers position answered
    simp only [stored, Option.bind_some] at member
    cases checks : space.desc.keyIndexing.needCheckIndexKey with
    | true =>
        rw [checks, if_pos rfl, reads position checks, Option.map_some] at existing
        rw [reads position checks] at get
        refine iff_of_true ?_ nofun
        have same := @readRecordCheckKey_reduced _ space key position ok checks indexKey reduced
        cases read : readRecordCheckKey space.desc space.batchCodec space.log key position with
        | none =>
            rw [read] at get existing
            refine agrees_of_absent (fun value => ?_) ?_ fun value inList => ?_
            · rw [get]
              exact nofun
            · rw [existing]
              exact nofun
            · cases read.symm.trans ((same value).mpr ((member value).mp inList))
        | some held =>
            rw [read] at get existing
            refine agrees_of_present get existing fun value => ?_
            rw [member, ← same, read, Option.some.injEq]
    | false =>
        rw [checks, if_neg Bool.false_ne_true] at existing
        simp only [forall_const]
        constructor
        · intro agrees
          obtain ⟨value, inList⟩ := agrees.listed.mp existing
          refine ⟨fun misreads => ?_, fun other isOther => ⟨value, ?_⟩⟩
          · cases stored.symm.trans (KsTable.stored_of_getMisreads ok.table misreads)
          · cases Option.some.inj (stored.symm.trans isOther)
            exact (member value).mp inList
        · rintro ⟨-, backed⟩
          obtain ⟨held, read⟩ := backed position stored
          have found := readCheckKey_of_record ok stored reduced read
          refine agrees_of_present (get.trans found) existing fun value => ?_
          rw [member, read, Option.some.injEq, Prod.mk.injEq, and_iff_right rfl]
  · obtain ⟨get, existing⟩ := answers _ answered
    have unlisted : ∀ value, (key, value) ∉ list := fun value inList => by
      have seen := (member value).mp inList
      rw [nothing, Option.bind_none] at seen
      cases seen
    cases checks : space.desc.keyIndexing.needCheckIndexKey with
    | true =>
        have unread : readRecordCheckKey space.desc space.batchCodec space.log key
            (space.table.format.readBack WalPosition.invalid) = none := by
          rw [Option.eq_none_iff_forall_ne_some]
          intro value read
          have found := (readRecordCheckKey_reduced ok checks reduced value).mp read
          have gone := readRecordForIndexedKey_sentinel space.desc space.log indexKey
            (IterationSource.offset_readBack_invalid space.source)
          cases gone.symm.trans found
        rw [checks, if_pos rfl, reads _ checks, unread] at existing
        rw [reads _ checks, unread] at get
        refine iff_of_true (agrees_of_absent (fun value => ?_) ?_ unlisted) nofun
        · rw [get]
          exact nofun
        · rw [existing]
          exact nofun
    | false =>
        rw [checks, if_neg Bool.false_ne_true] at existing
        refine iff_of_false (fun agrees => ?_) fun backed => (backed rfl).1 misreads
        obtain ⟨value, inList⟩ := agrees.listed.mp existing
        exact unlisted value inList
  · have get : space.get key = some none := by
      rw [RestingKeySpace.get, reduced, Option.bind_some, answered, Option.bind_some]
    have existing : space.existsKey key = some false := by
      rw [existsKey, reduced, Option.bind_some, answered, Option.bind_some]
    refine iff_of_true (agrees_of_absent (fun value => ?_) ?_ fun value inList => ?_) fun _ =>
      ⟨notMisread, fun position stored => nomatch nothing.symm.trans stored⟩
    · rw [get]
      exact nofun
    · rw [existing]
      exact nofun
    · have seen := (member value).mp inList
      rw [nothing, Option.bind_none] at seen
      cases seen

/-- A key without a place in the index. -/
theorem agrees_of_nowhere (noGet : space.get key = none) (noExists : space.existsKey key = none)
    (unlisted : ∀ value, (key, value) ∉ list) : space.Agrees list key := by
  refine agrees_of_absent (fun value => ?_) ?_ unlisted
  · rw [noGet]
    exact nofun
  · rw [noExists]
    exact nofun

end Keys

/-- A key space of one cell. -/
def ofCell (db : Db) (ref : CellReference) : RestingKeySpace KsTable.passAll where
  desc := db.keySpaces ref.keyspace
  batchCodec := db.batchCodec
  log := db.log
  table := KsTable.ofLive (.header (db.keySpaces ref.keyspace).keyIndexing.indexKeySize) true
    { (LiveCell.new none : LiveCell Bytes KsTable.passAll) with
      cell := { (Cell.new none : Cell Bytes KsTable.passAll) with entry := db.cells ref }
      frontier := db.lastProcessed }

/-- The cell is in memory, and no frame its entries name is there any more. -/
def Stranded (db : Db) (ref : CellReference) : Prop :=
  (db.cells ref).state = .loaded ∧ (db.cells ref).levels.deep.isSharded = false ∧
    (∀ first ∈ (db.cells ref).levels.blobs, ∀ second ∈ (db.cells ref).levels.blobs,
      first.position = second.position → first.content = second.content) ∧
    (∀ key ∈ (db.cells ref).keys, ∀ position ∈ ((db.cells ref).get key).toList,
      db.log.read position = none) ∧
    ∀ frame ∈ db.log.frames.entries, frame.2.isCompressedBatch = false

instance (db : Db) (ref : CellReference) : Decidable (Stranded db ref) :=
  inferInstanceAs (Decidable (_ ∧ _ ∧ _ ∧ _ ∧ _))

theorem ok_ofCell {db : Db} {ref : CellReference} (stranded : Stranded db ref) :
    (ofCell db ref).Ok := by
  obtain ⟨loaded, unsharded, unique, gone, plain⟩ := stranded
  have entryOk : (db.cells ref).Ok :=
    ⟨fun empty => (nomatch loaded.symm.trans empty),
      fun empty => (nomatch loaded.symm.trans empty),
      fun unloaded => (nomatch loaded.symm.trans unloaded)⟩
  have tableOk : (ofCell db ref).table.Ok := KsTable.ok_ofLive entryOk unsharded unique rfl rfl
  have inTable : (ofCell db ref).table.entries.lookup (.integer 0) =
      some ⟨{ (Cell.new none : Cell Bytes KsTable.passAll) with entry := db.cells ref },
        fun _ => none⟩ := by
    simp only [ofCell, KsTable.ofLive, SortedMap.lookup_insert, if_true]
  have unread : ∀ key position, (ofCell db ref).table.stored none key = some position →
      db.log.read position = none := by
    intro key position stored
    rw [KsTable.stored_of_slot (KsTable.cellId_oneCell key) inTable rfl] at stored
    have shown : (db.cells ref).view id none key = some position := stored
    have got : (db.cells ref).get key = some position :=
      (Entry.probeUnloaded_id (db.cells ref) _ key).symm.trans shown
    have inKeys := @Entry.mem_keys_of_view _ _ (db.cells ref) entryOk id none key
      (Option.ne_none_iff_exists'.mpr ⟨position, shown⟩)
    exact gone key inKeys position (Option.mem_toList.mpr got)
  have noBatch : ∀ offset inner len,
      db.log.frames.lookup offset ≠ some (.compressedBatch inner len) :=
    fun offset inner len found => by cases plain _ (SortedMap.mem_entries_of_lookup found)
  refine ⟨tableOk, fun key position entry stored read => ?_, fun key position record stored read =>
    ?_, fun key record cached => ?_, fun _ => noBatch, fun offset inner len found =>
      absurd found (noBatch offset inner len)⟩
  · cases (unread key position stored).symm.trans read
  · have unresolved : resolveRecordFrame db.log position = none := by
      rw [resolveRecordFrame, unread key position stored]
    change readRecordForIndexedKey _ db.log position key = _ at read
    rw [readRecordForIndexedKey, unresolved] at read
    cases read
  · rw [KsTable.cachedAt_of_slot (KsTable.cellId_oneCell key) inTable] at cached
    cases cached

/-- The filter removes key 7 and stops at every other key. -/
def removesSeven : RelocationFilter := fun key _ => if key = [7] then .remove else .stopRelocation

def filteredSpaces : Config :=
  { plainSpaces none with
    keySpaces := fun ks =>
      { Relocation.pruned with id := ks, relocationFilter := some removesSeven } }

/-- Key 7 in the first file, another key in the second. -/
def sevenAndEight (value : Bytes) : Log where
  layout := WalLayout.small
  frames := SortedMap.empty.insertAll
    [(0, .record 0 [7] value false), (64, .record 0 [8] [2] false)]
  position := 80
  removed := []
  frames_lt := by
    intro frame member
    rcases SortedMap.mem_insertEntry member with rfl | old
    · exact (by decide : 64 < 80)
    · rcases SortedMap.mem_insertEntry old with rfl | none
      · exact (by decide : 0 < 80)
      · cases none
  removed_lt := nothing_removed
  position_le := eighty_le_u64Max

/-- Key 7 is in `L1`. -/
def sevenOnDisk (value : Bytes) : Db :=
  restored filteredSpaces [⟨0, 0⟩] (sevenAndEight value)
    [⟨⟨0, 0⟩, [7], WalPosition.ofEntry 0 (.record 0 [7] value false)⟩]

end RestingKeySpace

end Tidehunter.Iterators
