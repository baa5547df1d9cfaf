import Tidehunter.Index.PackedTable

/-!
# Writes that come out of order

Writers of one key may take the lock of its row in another order than that of their frames. A
write below the latest position of its key is ordered behind it. What the overlay holds in the
end does not depend on the order, and the cached counters follow the contents.
-/

namespace Tidehunter.Index

open Library Wal Flat

namespace PackedTable

/-! ## One write -/

/-- Follow an entry from clean to dirty or back. -/
def adjustDirtyCount (dirtyCount : Nat) (wasDirty isDirty : Bool) : Nat :=
  match wasDirty, isDirty with
  | true, false => dirtyCount - 1
  | false, true => dirtyCount + 1
  | true, true => dirtyCount
  | false, false => dirtyCount

/-- Record a live write in the overlay. A write below the latest position of its key is ordered
behind it and changes no counter. None is the panic on a repeated offset. -/
def checkedInsert (table : PackedTable) (key : Bytes) (position : IndexWalPosition) :
    Option (PackedTable × WriteOrder) :=
  match table.data.lookup key with
  | some positions =>
      let prev := positions.latest
      if position.offset < prev.offset then
        if positions.toList.any (fun other => other.offset = position.offset) then none
        else some ({ table with data := table.data.insert key (positions.insert position) }, .stale)
      else if prev.offset < position.offset then
        some ({ table with
          data := table.data.insert key (positions.insert position)
          dirtyCount := adjustDirtyCount table.dirtyCount (!prev.isClean) (!position.isClean) },
          .latest)
      else none
  | none =>
      some ({ table with
        data := table.data.insert key (AscList.singleton position)
        keyBytes := table.keyBytes + key.length
        dirtyCount := adjustDirtyCount table.dirtyCount false (!position.isClean) }, .latest)

def insert (table : PackedTable) (key : Bytes) (position : WalPosition) :
    Option (PackedTable × WriteOrder) :=
  table.checkedInsert key (IndexWalPosition.newModified position)

def remove (table : PackedTable) (key : Bytes) (position : WalPosition) :
    Option (PackedTable × WriteOrder) :=
  table.checkedInsert key (IndexWalPosition.newRemoved position)

/-- The overlay holds a position for a key. -/
def Holds (table : PackedTable) (key : Bytes) (position : IndexWalPosition) : Prop :=
  ∃ positions, table.data.lookup key = some positions ∧ position ∈ positions

/-- A write of a fresh offset leaves the flat buffer and puts one position into the overlay. -/
theorem checkedInsert_spec {table : PackedTable} {key : Bytes} {position : IndexWalPosition}
    (fresh : ∀ held, table.Holds key held → held.offset ≠ position.offset) :
    ∃ result order positions, table.checkedInsert key position = some (result, order) ∧
      result.data = table.data.insert key positions ∧
      (∀ held, held ∈ positions ↔ held = position ∨ table.Holds key held) ∧
      result.flat = table.flat ∧ result.keySize = table.keySize := by
  unfold checkedInsert
  cases found : table.data.lookup key with
  | none =>
      refine ⟨_, _, _, rfl, rfl, fun held => ?_, rfl, rfl⟩
      rw [AscList.mem_singleton, Holds, found]
      simp
  | some positions =>
      have members : ∀ held, held ∈ positions.insert position ↔
          held = position ∨ table.Holds key held := by
        intro held
        rw [AscList.mem_insert, Holds, found]
        simp
      have newer := fresh positions.latest ⟨positions, found, positions.latest_mem⟩
      simp only
      split
      · rename_i stale
        have unique : (positions.toList.any fun other => other.offset = position.offset) = false := by
          rw [List.any_eq_false]
          intro other member same
          exact fresh other ⟨positions, found, member⟩ (of_decide_eq_true same)
        rw [if_neg (by rw [unique]; decide)]
        exact ⟨_, _, _, rfl, rfl, members, rfl, rfl⟩
      · rename_i notStale
        rw [if_pos (by omega)]
        exact ⟨_, _, _, rfl, rfl, members, rfl, rfl⟩

/-! ## The counters -/

/-- A key counts as dirty by its latest position. -/
def dirtyWeight (positions : DataPositions) : Nat := if positions.latest.isClean then 0 else 1

/-- The counters of the overlay as sums over its keys. -/
theorem recountDataStats_eq (data : SortedMap Bytes DataPositions) :
    recountDataStats data =
      ((data.entries.map fun binding => binding.1.length).sum,
        (data.entries.map fun binding => dirtyWeight binding.2).sum) := by
  have general : ∀ (bindings : List (Bytes × DataPositions)) (start : Nat × Nat),
      (bindings.map fun binding => (binding.1, binding.2.latest)).foldl
          (fun counted entry =>
            (counted.1 + entry.1.length, if entry.2.isClean then counted.2 else counted.2 + 1))
          start =
        (start.1 + (bindings.map fun binding => binding.1.length).sum,
          start.2 + (bindings.map fun binding => dirtyWeight binding.2).sum) := by
    intro bindings
    induction bindings with
    | nil => exact fun _ => rfl
    | cons first rest ih =>
        intro start
        rw [List.map_cons, List.foldl_cons, ih, List.map_cons, List.map_cons, List.sum_cons,
          List.sum_cons, dirtyWeight]
        split <;> simp only [Nat.zero_add, ← Nat.add_assoc]
  rw [recountDataStats, dataLatestPerKey, general, Nat.zero_add, Nat.zero_add]

/-- The counters say what the overlay and the dirty entries of the flat buffer add up to. -/
theorem counted_iff {table : PackedTable} :
    table.Counted ↔
      table.keyBytes = (table.data.entries.map fun binding => binding.1.length).sum ∧
      table.dirtyCount = dirtyEntries (flatIter table.flat table.keySize) +
        (table.data.entries.map fun binding => dirtyWeight binding.2).sum := by
  rw [Counted, recountStats, recountDataStats_eq, Prod.mk.injEq]

theorem counted_empty : empty.Counted := rfl

/-- A position above all others is the latest. -/
theorem latest_insert_of_lt {positions : DataPositions} {position : IndexWalPosition}
    (above : positions.latest.offset < position.offset) :
    (positions.insert position).latest = position := by
  refine AscList.latest_eq_iff.mpr ⟨AscList.mem_insert.mpr (Or.inl rfl), fun other member => ?_⟩
  rcases AscList.mem_insert.mp member with rfl | old
  · exact le_refl _
  · exact (AscList.le_latest old).trans (IndexWalPosition.lt_of_offset_lt above).le

/-- A position below the latest one leaves it the latest. -/
theorem latest_insert_of_gt {positions : DataPositions} {position : IndexWalPosition}
    (below : position.offset < positions.latest.offset) :
    (positions.insert position).latest = positions.latest := by
  refine AscList.latest_eq_iff.mpr
    ⟨AscList.mem_insert.mpr (Or.inr positions.latest_mem), fun other member => ?_⟩
  rcases AscList.mem_insert.mp member with rfl | old
  · exact (IndexWalPosition.lt_of_offset_lt below).le
  · exact AscList.le_latest old

/-- A dirty write keeps the counters right. -/
theorem Counted.checkedInsert {table result : PackedTable} {key : Bytes}
    {position : IndexWalPosition} {order : WriteOrder} (counted : table.Counted)
    (dirty : position.isClean = false)
    (written : table.checkedInsert key position = some (result, order)) : result.Counted := by
  obtain ⟨bytes, count⟩ := counted_iff.mp counted
  refine counted_iff.mpr ?_
  unfold PackedTable.checkedInsert at written
  cases found : table.data.lookup key with
  | none =>
      simp only [found, dirty] at written
      obtain ⟨rfl, -⟩ := Prod.mk.inj (Option.some.inj written)
      have byteSum := table.data.sum_insert key (AscList.singleton position)
        fun binding => binding.1.length
      have dirtySum := table.data.sum_insert key (AscList.singleton position)
        fun binding => dirtyWeight binding.2
      simp only [found, Option.map_none, Option.getD_none, Nat.add_zero, dirtyWeight,
        AscList.latest_singleton, dirty] at byteSum dirtySum
      simp only [adjustDirtyCount, Bool.not_false, byteSum, dirtySum, bytes, count, dirtyWeight,
        true_and]
      simp only [Bool.false_eq_true, if_false]
      omega
  | some positions =>
      have byteSum := table.data.sum_insert key (positions.insert position)
        fun binding => binding.1.length
      have dirtySum := table.data.sum_insert key (positions.insert position)
        fun binding => dirtyWeight binding.2
      simp only [found, Option.map_some, Option.getD_some] at byteSum dirtySum
      simp only [found] at written
      split at written
      · rename_i stale
        split at written
        · cases written
        · obtain ⟨rfl, -⟩ := Prod.mk.inj (Option.some.inj written)
          have same : dirtyWeight (positions.insert position) = dirtyWeight positions := by
            rw [dirtyWeight, latest_insert_of_gt stale, dirtyWeight]
          rw [same] at dirtySum
          exact ⟨by simp only; omega, by simp only; omega⟩
      · split at written
        · rename_i above
          obtain ⟨rfl, -⟩ := Prod.mk.inj (Option.some.inj written)
          have isOne : dirtyWeight (positions.insert position) = 1 := by
            rw [dirtyWeight, latest_insert_of_lt above, dirty]
            rfl
          rw [isOne] at dirtySum
          refine ⟨by simp only; omega, ?_⟩
          simp only [dirty, Bool.not_false]
          cases clean : positions.latest.isClean with
          | true =>
              have weight : dirtyWeight positions = 0 := by rw [dirtyWeight, clean]; rfl
              simp only [Bool.not_true, adjustDirtyCount]
              omega
          | false =>
              have weight : dirtyWeight positions = 1 := by rw [dirtyWeight, clean]; rfl
              simp only [Bool.not_false, adjustDirtyCount]
              omega
        · cases written

/-! ## Sequences of writes -/

/-- An insert or a remove of a key at a position of the log. -/
structure Write where
  key : Bytes
  position : WalPosition
  removal : Bool
  deriving DecidableEq

/-- The index position a write records. -/
def Write.recorded (write : Write) : IndexWalPosition :=
  if write.removal then IndexWalPosition.newRemoved write.position
  else IndexWalPosition.newModified write.position

theorem Write.offset_recorded (write : Write) :
    write.recorded.offset = write.position.offset := by
  unfold recorded
  split <;> rfl

theorem Write.isClean_recorded (write : Write) : write.recorded.isClean = false := by
  unfold recorded
  split <;> rfl

def apply (table : PackedTable) (write : Write) : Option (PackedTable × WriteOrder) :=
  if write.removal then table.remove write.key write.position
  else table.insert write.key write.position

theorem apply_eq (table : PackedTable) (write : Write) :
    table.apply write = table.checkedInsert write.key write.recorded := by
  unfold apply Write.recorded
  split <;> rfl

/-- Writes in the order in which they take the lock. -/
def applyAll (table : PackedTable) (writes : List Write) : Option PackedTable :=
  writes.foldlM (fun table write => (table.apply write).map Prod.fst) table

/-- No write repeats the offset of another one, or one the overlay already has for its key. -/
structure Fresh (table : PackedTable) (writes : List Write) : Prop where
  distinct : writes.Pairwise fun first second => first.position.offset ≠ second.position.offset
  unused : ∀ write ∈ writes, ∀ held, table.Holds write.key held →
    held.offset ≠ write.position.offset

/-- The position lists of a key are determined by what they hold. -/
theorem data_eq_of_holds {first second : PackedTable}
    (same : ∀ key position, first.Holds key position ↔ second.Holds key position) :
    first.data = second.data := by
  refine SortedMap.ext_lookup fun key => ?_
  cases inFirst : first.data.lookup key with
  | none =>
      cases inSecond : second.data.lookup key with
      | none => rfl
      | some positions =>
          obtain ⟨held, found, -⟩ := (same key _).mpr ⟨positions, inSecond, positions.latest_mem⟩
          rw [inFirst] at found
          cases found
  | some positions =>
      obtain ⟨others, found, -⟩ := (same key _).mp ⟨positions, inFirst, positions.latest_mem⟩
      rw [found]
      refine congrArg some (AscList.ext_mem fun member => ⟨fun present => ?_, fun present => ?_⟩)
      · obtain ⟨held, isHeld, inHeld⟩ := (same key member).mp ⟨positions, inFirst, present⟩
        rwa [Option.some.inj (found.symm.trans isHeld)]
      · obtain ⟨held, isHeld, inHeld⟩ := (same key member).mpr ⟨others, found, present⟩
        rwa [Option.some.inj (inFirst.symm.trans isHeld)]

/-- One write of a sequence: what the overlay then holds, and the rest is still fresh. -/
theorem apply_spec {table : PackedTable} {write : Write} {rest : List Write}
    (fresh : table.Fresh (write :: rest)) :
    ∃ result order, table.apply write = some (result, order) ∧
      (∀ key position, result.Holds key position ↔
        table.Holds key position ∨ key = write.key ∧ position = write.recorded) ∧
      result.flat = table.flat ∧ result.keySize = table.keySize ∧ result.Fresh rest := by
  obtain ⟨first, distinct⟩ := List.pairwise_cons.mp fresh.distinct
  obtain ⟨unusedFirst, unused⟩ := List.forall_mem_cons.mp fresh.unused
  obtain ⟨result, order, positions, written, data, members, flat, keySize⟩ :=
    @checkedInsert_spec table write.key write.recorded (by
      rw [Write.offset_recorded]
      exact unusedFirst)
  have holds : ∀ key position, result.Holds key position ↔
      table.Holds key position ∨ key = write.key ∧ position = write.recorded := by
    intro key position
    rw [Holds, data]
    by_cases same : key = write.key
    · subst same
      simp only [SortedMap.lookup_insert_self, Option.some.injEq, exists_eq_left', members,
        true_and]
      exact Or.comm
    · simp only [SortedMap.lookup_insert_of_ne _ _ same, same, false_and, or_false]
      exact Iff.rfl
  refine ⟨result, order, by rw [apply_eq, written], holds, flat, keySize, distinct, ?_⟩
  intro later member held isHeld
  rcases (holds _ _).mp isHeld with old | ⟨-, rfl⟩
  · exact unused later member held old
  · rw [Write.offset_recorded]
    exact first later member

/-- A sequence of writes of fresh offsets does not panic, and the overlay holds what it held and
what was written. -/
theorem applyAll_spec {table : PackedTable} {writes : List Write} (fresh : table.Fresh writes)
    (counted : table.Counted) :
    ∃ result, table.applyAll writes = some result ∧
      (∀ key position, result.Holds key position ↔ table.Holds key position ∨
        ∃ write ∈ writes, key = write.key ∧ position = write.recorded) ∧
      result.flat = table.flat ∧ result.keySize = table.keySize ∧ result.Counted := by
  induction writes generalizing table with
  | nil => exact ⟨table, rfl, fun key position => by simp, rfl, rfl, counted⟩
  | cons write rest ih =>
      obtain ⟨next, order, written, holds, flat, keySize, stillFresh⟩ := apply_spec fresh
      have nextCounted : next.Counted :=
        counted.checkedInsert write.isClean_recorded (by rwa [← apply_eq])
      obtain ⟨result, ran, members, resultFlat, resultSize, resultCounted⟩ :=
        ih stillFresh nextCounted
      refine ⟨result, ?_, fun key position => ?_, resultFlat.trans flat,
        resultSize.trans keySize, resultCounted⟩
      · rw [applyAll, List.foldlM_cons, written]
        exact ran
      · rw [members, holds, or_assoc]
        simp only [List.exists_mem_cons_iff]

theorem Fresh.perm {table : PackedTable} {writes order : List Write} (fresh : table.Fresh writes)
    (reordered : order.Perm writes) : table.Fresh order where
  distinct := (reordered.pairwise_iff fun different => Ne.symm different).mpr fresh.distinct
  unused write member := fresh.unused write (reordered.mem_iff.mp member)

/-- Every order of the writes ends in the same table, live and as of every frontier, and its
counters are those of its contents. -/
theorem applyAll_converges {table : PackedTable} {writes : List Write}
    (fresh : table.Fresh writes) (counted : table.Counted) :
    ∃ result : PackedTable, result.Counted ∧ ∀ order : List Write, order.Perm writes →
      ∃ reached, table.applyAll order = some reached ∧
        (∀ key, reached.get key = result.get key) ∧
        (∀ key frontier, reached.getAt key frontier = result.getAt key frontier) ∧
        reached.keyBytes = result.keyBytes ∧ reached.dirtyCount = result.dirtyCount ∧
        reached.Counted := by
  obtain ⟨result, ran, members, flat, keySize, resultCounted⟩ := applyAll_spec fresh counted
  refine ⟨result, resultCounted, fun order reordered => ?_⟩
  obtain ⟨reached, reachedRan, reachedMembers, reachedFlat, reachedSize, reachedCounted⟩ :=
    applyAll_spec (fresh.perm reordered) counted
  have data : reached.data = result.data := by
    refine data_eq_of_holds fun key position => ?_
    rw [reachedMembers, members]
    simp only [reordered.mem_iff]
  have sameFlat : reached.flat = result.flat := reachedFlat.trans flat.symm
  have sameSize : reached.keySize = result.keySize := reachedSize.trans keySize.symm
  -- counters that are those of the contents agree when the contents do
  have counters : (reached.keyBytes, reached.dirtyCount) = (result.keyBytes, result.dirtyCount) := by
    rw [reachedCounted, resultCounted, recountStats, recountStats, data, sameFlat, sameSize]
  have same : reached = result := by
    obtain ⟨bytes, count⟩ := Prod.mk.inj counters
    cases reached
    cases result
    simp_all
  subst same
  exact ⟨reached, reachedRan, fun _ => rfl, fun _ _ => rfl, rfl, rfl, reachedCounted⟩

/-- Two writes of one key, of which the remove is the older one, and a write of another key. -/
def overwritten : List Write :=
  [⟨[1], ⟨20, 8⟩, false⟩, ⟨[1], ⟨10, 8⟩, true⟩, ⟨[1, 2], ⟨30, 8⟩, false⟩]

theorem overwritten_distinct :
    overwritten.Pairwise fun first second => first.position.offset ≠ second.position.offset := by
  decide

theorem fresh_overwritten : empty.Fresh overwritten where
  distinct := overwritten_distinct
  unused _ _ _ holds := by
    obtain ⟨_, found, _⟩ := holds
    cases found

theorem applyAll_converges_overwritten :
    ∃ result : PackedTable, result.Counted ∧ ∀ order : List Write, order.Perm overwritten →
      ∃ reached, empty.applyAll order = some reached ∧
        (∀ key, reached.get key = result.get key) ∧
        (∀ key frontier, reached.getAt key frontier = result.getAt key frontier) ∧
        reached.keyBytes = result.keyBytes ∧ reached.dirtyCount = result.dirtyCount ∧
        reached.Counted :=
  applyAll_converges fresh_overwritten counted_empty

end PackedTable

end Tidehunter.Index
