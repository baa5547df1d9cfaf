import Tidehunter.LargeTable.EntryReads

/-!
# Entries that a flush uncovers

A flush drops an entry from the table it writes when the entry lies below an offset,
or when the compactor does not retain its key. A dropped entry no longer shadows what
lies beneath it. This module says exactly when a key then reads something it did not
read before.
-/

namespace Tidehunter.LargeTable

open Library Wal Index Flusher

variable {K V : Type} [LinearOrder K]

/-- A read after some step returns what it returned before, or nothing. -/
def SameOrAbsent (before after : Option V) : Prop := after = before ∨ after = none

section Uncovered

variable (config : KsConfig K) (view : LogView) (flushed : IndexTable K) (lowest : Nat)
variable (deep : DeepLevel K) (key : K) (read readAfter : WalPosition → Option V)

/-- The value a key has before the flush, through the flushed table and the level below. -/
def valueBefore : Option V := (readable ((flushed.get key).or (deep.lookup key))).bind read

/-- A position that was shadowed before the flush reads as a value the key did not have. -/
def Resurfaces (uncovered : Option WalPosition) : Prop :=
  ¬ SameOrAbsent (valueBefore flushed deep key read) ((readable uncovered).bind readAfter)

/-- The compactor drops a key from a new `L0` while an older entry lies beneath. -/
def CompactorUncovers : Prop :=
  deepestTable config view (flushed.retainAbovePosition lowest) false deep key = none ∧
    (∃ entry, (flushed.retainAbovePosition lowest).entry key = some entry ∧
      entry.isRemoved = false) ∧
    retained config (flushed.retainAbovePosition lowest) key = false ∧
    ((flushed.retainAbovePosition lowest).flat.lookup key).all (fun entry => !entry.isRemoved) ∧
    Resurfaces flushed deep key read readAfter (deep.lookup key)

/-- The offset filter drops the entry of a key while an older entry lies beneath. -/
def FilterUncovers : Prop :=
  (∃ entry, flushed.entry key = some entry ∧ entry.offset < lowest) ∧
    match deepestTable config view (flushed.retainAbovePosition lowest) false deep key with
    | some table =>
        retained config table key = true ∧
          Resurfaces flushed deep key read readAfter
            (((flushed.retainAbovePosition lowest).get key).or
              ((deep.lookup key).filter fun position => view.minWalPosition ≤ position.offset))
    | none =>
        (retained config (flushed.retainAbovePosition lowest) key = true ∨
            (flushed.retainAbovePosition lowest).entry key = none) ∧
          Resurfaces flushed deep key read readAfter
            (((flushed.retainAbovePosition lowest).get key).or (deep.lookup key))

/-- What the levels written by a flush hold for a key. -/
def writtenView : Option WalPosition :=
  match deepestTable config view (flushed.retainAbovePosition lowest) false deep key with
  | some table => if retained config table key then readable (table.get key) else none
  | none => readable (((runCompactor config (flushed.retainAbovePosition lowest)).get key).or
      (deep.lookup key))

variable {config view flushed lowest deep key read readAfter}

/-- Without a dropped entry the flushed table is as it was at the key. -/
theorem entry_filtered_of_not_dropped
    (kept : ¬ ∃ entry, flushed.entry key = some entry ∧ entry.offset < lowest) :
    (flushed.retainAbovePosition lowest).entry key = flushed.entry key := by
  cases visible : flushed.entry key with
  | none => exact IndexTable.entry_retainAbovePosition_of_none visible
  | some entry =>
      refine IndexTable.entry_retainAbovePosition_of_le visible (not_lt.mp fun below => ?_)
      exact kept ⟨entry, visible, below⟩

theorem sameOrAbsent_of_same (shrinks : ∀ position, readAfter position = none ∨
      readAfter position = read position) {found : Option WalPosition} :
    SameOrAbsent (found.bind read) (found.bind readAfter) := by
  cases found with
  | none => exact Or.inr rfl
  | some position =>
      rcases shrinks position with gone | same
      · exact Or.inr gone
      · exact Or.inl same

theorem sameOrAbsent_none {before : Option V} :
    SameOrAbsent before ((none : Option WalPosition).bind readAfter) := Or.inr rfl

/-- Of a key that the compactor drops from an `L0`, a tombstone stays or nothing does. -/
theorem get_runCompactor_of_dropped {table : IndexTable K} (dropped : retained config table key = false) :
    (runCompactor config table).get key = some WalPosition.invalid ∧
        (∀ entry, table.entry key = some entry → entry.isRemoved = false →
          (table.flat.lookup key).all (fun under => !under.isRemoved) = false) ∨
      (runCompactor config table).get key = none ∧
        (∀ entry, table.entry key = some entry → entry.isRemoved = false) ∧
        (table.flat.lookup key).all (fun under => !under.isRemoved) = true := by
  unfold retained at dropped
  cases compactor : config.compactor with
  | none => simp [compactor] at dropped
  | some keep =>
      simp only [compactor] at dropped
      rw [runCompactor, compactor, IndexTable.get,
        IndexTable.entry_compactWith_of_not_retained dropped, IndexTable.entry]
      cases upper : table.dataGetLatest key with
      | none =>
          cases under : table.flat.lookup key with
          | none => simp
          | some entry =>
              cases removed : entry.isRemoved <;>
                simp [Option.filter, removed, IndexWalPosition.intoWalPosition_of_isRemoved]
      | some entry =>
          cases removed : entry.isRemoved with
          | true => simp [Option.filter, removed, IndexWalPosition.intoWalPosition_of_isRemoved]
          | false =>
              cases under : table.flat.lookup key with
              | none => simp [Option.filter, removed]
              | some below =>
                  cases hidden : below.isRemoved <;>
                    simp [Option.filter, removed, hidden,
                      IndexWalPosition.intoWalPosition_of_isRemoved]

/-- A flush that drops no entry of a key and shows it whole keeps its value. -/
theorem sameOrAbsent_of_not_dropped
    (shrinks : ∀ position, readAfter position = none ∨ readAfter position = read position)
    (kept : ¬ ∃ entry, flushed.entry key = some entry ∧ entry.offset < lowest)
    {below : Option WalPosition} (sublevel : below = none ∨ below = deep.lookup key) :
    SameOrAbsent (valueBefore flushed deep key read)
      ((readable (((flushed.retainAbovePosition lowest).get key).or below)).bind readAfter) := by
  have same : (flushed.retainAbovePosition lowest).get key = flushed.get key := by
    rw [IndexTable.get, entry_filtered_of_not_dropped kept, IndexTable.get]
  rw [same, valueBefore]
  cases flushed.get key with
  | some position => exact sameOrAbsent_of_same shrinks
  | none =>
      rcases sublevel with nothing | whole
      · rw [nothing]
        exact sameOrAbsent_none
      · rw [whole]
        exact sameOrAbsent_of_same shrinks

variable (config view flushed lowest deep key read readAfter) in
/-- A key reads as before or absent exactly when neither filter uncovers an entry. -/
theorem sameOrAbsent_writtenView_iff
    (shrinks : ∀ position, readAfter position = none ∨ readAfter position = read position)
    (high : view.minWalPosition ≤ lowest) :
    SameOrAbsent (valueBefore flushed deep key read)
        ((writtenView config view flushed lowest deep key).bind readAfter) ↔
      ¬ CompactorUncovers config view flushed lowest deep key read readAfter ∧
        ¬ FilterUncovers config view flushed lowest deep key read readAfter := by
  unfold writtenView CompactorUncovers FilterUncovers
  cases written : deepestTable config view (flushed.retainAbovePosition lowest) false deep key with
  | some table =>
      have shown := readable_get_deepestTable config view _
        (IndexTable.allAbove_retainAbovePosition flushed high) written
      cases kept : retained config table key with
      | false => simp [kept, SameOrAbsent]
      | true =>
          simp only [kept, if_true, shown, Resurfaces, true_and, reduceCtorEq, false_and, not_false_eq_true,
            not_and, not_not]
          refine ⟨fun same _ => same, fun same => ?_⟩
          by_cases dropped : ∃ entry, flushed.entry key = some entry ∧ entry.offset < lowest
          · exact same dropped
          · refine sameOrAbsent_of_not_dropped shrinks dropped ?_
            cases deep.lookup key with
            | none => exact Or.inl rfl
            | some position =>
                by_cases above : view.minWalPosition ≤ position.offset
                · exact Or.inr (by simp [Option.filter, above])
                · exact Or.inl (by simp [Option.filter, above])
  | none =>
      cases kept : retained config (flushed.retainAbovePosition lowest) key with
      | true =>
          have whole : (runCompactor config (flushed.retainAbovePosition lowest)).get key =
              (flushed.retainAbovePosition lowest).get key := by
            rw [IndexTable.get, entry_runCompactor_of_retained kept, IndexTable.get]
          simp only [whole, Resurfaces, true_and, true_or, not_and, not_not, reduceCtorEq, false_and,
            and_false, not_false_eq_true]
          refine ⟨fun same _ => same, fun same => ?_⟩
          by_cases dropped : ∃ entry, flushed.entry key = some entry ∧ entry.offset < lowest
          · exact same dropped
          · exact sameOrAbsent_of_not_dropped shrinks dropped (Or.inr rfl)
      | false =>
          rcases get_runCompactor_of_dropped kept with ⟨tombstone, hidden⟩ | ⟨nothing, present, bare⟩
          · have visible : (flushed.retainAbovePosition lowest).entry key ≠ none := by
              intro absent
              rw [IndexTable.get, entry_runCompactor_of_none config absent] at tombstone
              cases tombstone
            simp only [tombstone, Option.some_or, readable_invalid, Bool.false_eq_true, false_or,
              visible, false_and, and_false, not_false_eq_true, and_true, true_and]
            refine ⟨fun _ => ?_, fun _ => sameOrAbsent_none⟩
            rintro ⟨⟨entry, isEntry, live⟩, clear, _⟩
            rw [hidden entry isEntry live] at clear
            cases clear
          · simp only [nothing, Option.none_or]
            cases visible : (flushed.retainAbovePosition lowest).entry key with
            | none =>
                have absent : (flushed.retainAbovePosition lowest).get key = none :=
                  Option.map_eq_none_iff.mpr visible
                simp only [absent, Option.none_or, reduceCtorEq, false_and, exists_false, and_false,
                  not_false_eq_true, true_and, or_true, Resurfaces, not_and, not_not]
                refine ⟨fun same _ => same, fun same => ?_⟩
                by_cases dropped : ∃ entry, flushed.entry key = some entry ∧ entry.offset < lowest
                · exact same dropped
                · have unchanged : SameOrAbsent (valueBefore flushed deep key read) _ :=
                    sameOrAbsent_of_not_dropped shrinks dropped (Or.inr rfl)
                  rwa [absent, Option.none_or] at unchanged
            | some entry =>
                have live := present entry visible
                simp [live, bare, Resurfaces]

end Uncovered

end Tidehunter.LargeTable
