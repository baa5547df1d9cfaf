import Tidehunter.Index.TableOps
import Mathlib

/-!
# Entries leaving the overlay

A promotion moves the settled keys of the overlay into the flat buffer. The completion of a
flush removes what it wrote from a table that has changed since: the flushed positions of
a key are found in the overlay, or in the flat buffer if a promotion came in between.
-/

namespace Tidehunter.Index

open Library Wal

variable {K : Type} [LinearOrder K]

namespace IndexTable

/-! ## Promotion -/

theorem lookup_data_promoteToFlat (table : IndexTable K) (threshold : Nat) (key : K) :
    (table.promoteToFlatUnconditionally threshold).data.lookup key =
      (table.data.lookup key).filter fun positions =>
        !isProcessed threshold positions.latest.offset :=
  SortedMap.lookup_filter _ _ _

theorem lookup_flat_promoteToFlat (table : IndexTable K) (threshold : Nat) (key : K) :
    (table.promoteToFlatUnconditionally threshold).flat.lookup key =
      ((table.dataGetLatest key).filter fun position =>
        isProcessed threshold position.offset).or (table.flat.lookup key) :=
  SortedMap.lookup_merge _ _ _ _ rfl

/-- A key is promoted as a whole, or not at all. -/
theorem promoteToFlat_cases (table : IndexTable K) (threshold : Nat) (key : K) :
    (table.promoteToFlatUnconditionally threshold).data.lookup key = table.data.lookup key ∧
        (table.promoteToFlatUnconditionally threshold).flat.lookup key = table.flat.lookup key ∨
      ∃ positions, table.data.lookup key = some positions ∧ positions.latest.offset < threshold ∧
        (table.promoteToFlatUnconditionally threshold).data.lookup key = none ∧
        (table.promoteToFlatUnconditionally threshold).flat.lookup key = some positions.latest := by
  rw [lookup_data_promoteToFlat, lookup_flat_promoteToFlat, dataGetLatest]
  cases found : table.data.lookup key with
  | none => exact Or.inl ⟨rfl, rfl⟩
  | some positions =>
      by_cases processed : positions.latest.offset < threshold
      · refine Or.inr ⟨positions, rfl, processed, ?_, ?_⟩
        · simp [Option.filter, isProcessed_iff.mpr processed]
        · simp [Option.filter, isProcessed_iff.mpr processed]
      · have not : isProcessed threshold positions.latest.offset = false := by
          rw [Bool.eq_false_iff, ne_eq, isProcessed_iff]
          exact processed
        refine Or.inl ⟨?_, ?_⟩
        · simp [Option.filter, not]
        · simp [Option.filter, not]

/-! ## Flushed entries -/

/-- The positions of a key below a frontier. -/
def processedOf (lastProcessed : Nat) (positions : Option DataPositions) : List IndexWalPosition :=
  (positions.elim [] AscList.toList).filter fun position => isProcessed lastProcessed position.offset

/-- In an ascending list the processed positions come first. -/
theorem ascending_split {positions : List IndexWalPosition} (ascending : positions.Pairwise (· < ·))
    (lastProcessed : Nat) :
    (positions.takeWhile fun position => isProcessed lastProcessed position.offset) =
        positions.filter (fun position => isProcessed lastProcessed position.offset) ∧
      positions = positions.filter (fun position => isProcessed lastProcessed position.offset) ++
        positions.filter fun position => !isProcessed lastProcessed position.offset := by
  induction positions with
  | nil => exact ⟨rfl, rfl⟩
  | cons first rest ih =>
      obtain ⟨above, tail⟩ := List.pairwise_cons.mp ascending
      obtain ⟨taken, split⟩ := ih tail
      cases processed : isProcessed lastProcessed first.offset with
      | true =>
          simp only [List.takeWhile_cons, List.filter_cons, processed, if_true, Bool.not_true,
            Bool.false_eq_true, if_false, List.cons_append, taken, true_and]
          exact congrArg _ split
      | false =>
          have behind : ∀ position ∈ rest, isProcessed lastProcessed position.offset = false := by
            intro position member
            rw [Bool.eq_false_iff, ne_eq, isProcessed_iff] at processed ⊢
            exact fun below => processed
              ((IndexWalPosition.offset_le_of_le (above position member).le).trans_lt below)
          have none : rest.filter (fun position => isProcessed lastProcessed position.offset) = [] :=
            List.filter_eq_nil_iff.mpr fun position member => by simp [behind position member]
          have all : rest.filter (fun position => !isProcessed lastProcessed position.offset) = rest :=
            List.filter_eq_self.mpr fun position member => by simp [behind position member]
          simp [processed, none, all]

theorem processedPrefix_eq (positions : DataPositions) (lastProcessed : Nat) :
    processedPrefix positions lastProcessed = processedOf lastProcessed (some positions) :=
  (ascending_split positions.ascending lastProcessed).1

theorem toList_eq_append (positions : DataPositions) (lastProcessed : Nat) :
    positions.toList = processedOf lastProcessed (some positions) ++
      positions.toList.filter fun position => !isProcessed lastProcessed position.offset :=
  (ascending_split positions.ascending lastProcessed).2

theorem unmergeWalk_nil (live : List IndexWalPosition) (unmatched : Option IndexWalPosition) :
    unmergeWalk live [] unmatched = (live, unmatched) := by
  induction live with
  | nil => rfl
  | cons first rest ih =>
      rw [unmergeWalk]
      simp [ih]

/-- Flushed positions that are all live. -/
theorem unmergeWalk_matched (flushed rest : List IndexWalPosition) :
    unmergeWalk (flushed ++ rest) flushed none = (rest, none) := by
  induction flushed with
  | nil => exact unmergeWalk_nil rest none
  | cons first later ih =>
      rw [List.cons_append, unmergeWalk]
      simp [ih]

/-- Flushed positions that all lie below the live ones. -/
theorem unmergeWalk_behind {live flushed : List IndexWalPosition} (nonempty : live ≠ [])
    (behind : ∀ position ∈ live, ∀ other ∈ flushed, other.offset < position.offset) :
    unmergeWalk live flushed none = (live, flushed.getLast?) := by
  cases live with
  | nil => exact absurd rfl nonempty
  | cons first rest =>
      have below : ∀ other ∈ flushed, decide (other.offset < first.offset) = true := fun other member =>
        decide_eq_true (behind first List.mem_cons_self other member)
      have taken := List.takeWhile_eq_self_iff.mpr below
      have dropped := List.dropWhile_eq_nil_iff.mpr below
      rw [unmergeWalk]
      simp [taken, dropped, unmergeWalk_nil]

/-- What happens to a key between the request of a flush and its completion: writes behind
the frontier, and at most one promotion. -/
def Follows (lastProcessed : Nat) (original table : IndexTable K) (key : K) : Prop :=
  processedOf lastProcessed (table.data.lookup key) =
        processedOf lastProcessed (original.data.lookup key) ∧
      table.flat.lookup key = original.flat.lookup key ∨
    processedOf lastProcessed (table.data.lookup key) = [] ∧
      processedOf lastProcessed (original.data.lookup key) ≠ [] ∧
      table.flat.lookup key = (processedOf lastProcessed (original.data.lookup key)).getLast?

theorem Follows.refl (lastProcessed : Nat) (table : IndexTable K) (key : K) :
    Follows lastProcessed table table key :=
  Or.inl ⟨rfl, rfl⟩

theorem mem_processedOf {lastProcessed : Nat} {positions : Option DataPositions}
    {position : IndexWalPosition} :
    position ∈ processedOf lastProcessed positions ↔
      (∃ held, positions = some held ∧ position ∈ held) ∧ position.offset < lastProcessed := by
  cases positions with
  | none => simp [processedOf]
  | some held =>
      simp only [processedOf, Option.elim_some, List.mem_filter, isProcessed_iff, Option.some.injEq,
        exists_eq_left']
      rfl

/-- The positions of a key that a flush up to a frontier leaves in memory. -/
def unprocessedOf (lastProcessed : Nat) (positions : Option DataPositions) : Option DataPositions :=
  positions.bind fun held => held.filter fun position => !isProcessed lastProcessed position.offset

theorem unprocessedOf_of_processedOf_eq_nil {lastProcessed : Nat} {positions : Option DataPositions}
    (nothing : processedOf lastProcessed positions = []) :
    unprocessedOf lastProcessed positions = positions := by
  cases positions with
  | none => rfl
  | some held =>
      refine AscList.filter_eq_self fun position member => ?_
      rw [Bool.not_eq_true', Bool.eq_false_iff, ne_eq, isProcessed_iff]
      intro below
      have inside := mem_processedOf.mpr ⟨⟨held, rfl, member⟩, below⟩
      rw [nothing] at inside
      cases inside

/-- No promotion came between the request and the completion. -/
theorem unmergePositions_of_same {live : Option DataPositions} {flushed : DataPositions}
    {lastProcessed : Nat}
    (same : processedOf lastProcessed live = processedOf lastProcessed (some flushed)) :
    unmergePositions live flushed lastProcessed = (unprocessedOf lastProcessed live, none) := by
  cases isPrefix : processedOf lastProcessed (some flushed) with
  | nil =>
      rw [isPrefix] at same
      rw [unprocessedOf_of_processedOf_eq_nil same]
      simp only [unmergePositions, processedPrefix_eq, isPrefix]
  | cons first rest =>
      rw [isPrefix] at same
      cases live with
      | none => cases same
      | some held =>
          have split := toList_eq_append held lastProcessed
          rw [same] at split
          simp only [unmergePositions, processedPrefix_eq, isPrefix]
          have walked := unmergeWalk_matched (first :: rest)
            (held.toList.filter fun position => !isProcessed lastProcessed position.offset)
          rw [← split] at walked
          simp only [walked, unprocessedOf, Option.bind_some, AscList.filter]

/-- A promotion moved the flushed positions into the flat buffer. -/
theorem unmergePositions_of_promoted {live : Option DataPositions} {flushed : DataPositions}
    {lastProcessed : Nat} (nothing : processedOf lastProcessed live = [])
    (promoted : processedOf lastProcessed (some flushed) ≠ []) :
    unmergePositions live flushed lastProcessed =
      (unprocessedOf lastProcessed live,
        (processedOf lastProcessed (some flushed)).getLast?) := by
  rw [unprocessedOf_of_processedOf_eq_nil nothing]
  cases isPrefix : processedOf lastProcessed (some flushed) with
  | nil => exact absurd isPrefix promoted
  | cons first rest =>
      cases live with
      | none => simp only [unmergePositions, processedPrefix_eq, isPrefix]
      | some held =>
          have behind : ∀ position ∈ held.toList, ∀ other ∈ first :: rest,
              other.offset < position.offset := by
            intro position member other inside
            rw [← isPrefix] at inside
            have high : lastProcessed ≤ position.offset := by
              by_contra below
              have processed := mem_processedOf.mpr
                ⟨⟨held, rfl, member⟩, Nat.lt_of_not_le below⟩
              rw [nothing] at processed
              cases processed
            exact (mem_processedOf.mp inside).2.trans_le high
          simp only [unmergePositions, processedPrefix_eq, isPrefix,
            unmergeWalk_behind held.nonempty behind]
          simp [held.nonempty]

/-- What leaves memory when a flush completes is what it covers. -/
theorem unmergeFlushed_of_follows {original table : IndexTable K} {lastProcessed : Nat} {key : K}
    (follows : Follows lastProcessed original table key) :
    (table.unmergeFlushed original lastProcessed).data.lookup key =
        unprocessedOf lastProcessed (table.data.lookup key) ∧
      (table.unmergeFlushed original lastProcessed).flat.lookup key = none := by
  simp only [unmergeFlushed, SortedMap.lookup_filterMap, SortedMap.lookup_filter]
  cases found : original.data.lookup key with
  | none =>
      rcases follows with ⟨same, sameFlat⟩ | ⟨_, promoted, _⟩
      · rw [found] at same
        refine ⟨?_, ?_⟩
        · rw [unprocessedOf_of_processedOf_eq_nil same]
          cases table.data.lookup key <;> rfl
        · rw [sameFlat]
          cases original.flat.lookup key <;> simp
      · rw [found] at promoted
        exact absurd rfl promoted
  | some flushed =>
      have remaining (last : Option IndexWalPosition)
          (unmerged : unmergePositions (table.data.lookup key) flushed lastProcessed =
            (unprocessedOf lastProcessed (table.data.lookup key), last)) :
          ((table.data.lookup key).bind fun live =>
            (unmergePositions (some live) flushed lastProcessed).1) =
            unprocessedOf lastProcessed (table.data.lookup key) := by
        cases held : table.data.lookup key with
        | none => rfl
        | some live =>
            rw [held] at unmerged
            exact congrArg Prod.fst unmerged
      rw [Follows, found] at follows
      rcases follows with ⟨same, sameFlat⟩ | ⟨nothing, promoted, inFlat⟩
      · have unmerged := unmergePositions_of_same same
        refine ⟨remaining _ unmerged, ?_⟩
        rw [sameFlat]
        cases original.flat.lookup key <;> simp
      · have unmerged := unmergePositions_of_promoted nothing promoted
        refine ⟨remaining _ unmerged, ?_⟩
        rw [inFlat]
        simp only [Option.bind_some, unmerged]
        cases (processedOf lastProcessed (some flushed)).getLast? <;> simp

theorem mem_overlay_unmergeFlushed {original table : IndexTable K} {lastProcessed : Nat} {key : K}
    (follows : Follows lastProcessed original table key) {mark : Mark} :
    mark ∈ (table.unmergeFlushed original lastProcessed).overlay key ↔
      mark ∈ table.overlay key ∧ lastProcessed ≤ mark.offset := by
  rw [← mem_overlay_retainUnprocessed, mem_overlay, mem_overlay,
    (unmergeFlushed_of_follows follows).1, retainUnprocessed, SortedMap.lookup_filterMap]
  rfl

theorem base_unmergeFlushed {original table : IndexTable K} {lastProcessed : Nat} {key : K}
    (follows : Follows lastProcessed original table key) :
    (table.unmergeFlushed original lastProcessed).base key = none := by
  rw [base, (unmergeFlushed_of_follows follows).2]
  rfl

/-! ## What a table may do while it is flushed -/

theorem processedOf_congr {first second : Option DataPositions} {lastProcessed : Nat}
    (agree : ∀ position, position.offset < lastProcessed →
      ((∃ held, first = some held ∧ position ∈ held) ↔
        ∃ held, second = some held ∧ position ∈ held)) :
    processedOf lastProcessed first = processedOf lastProcessed second := by
  have ascending (positions : Option DataPositions) :
      (processedOf lastProcessed positions).Pairwise (· < ·) := by
    cases positions with
    | none => exact List.Pairwise.nil
    | some held => exact held.ascending.filter _
  refine AscList.eq_of_mem_iff (ascending first) (ascending second) fun position => ?_
  rw [mem_processedOf, mem_processedOf]
  exact and_congr_left fun below => agree position below

/-- A write behind the frontier. -/
theorem Follows.checkedInsert {original table result : IndexTable K} {lastProcessed : Nat}
    {key other : K} {position : IndexWalPosition} {order : WriteOrder}
    (follows : Follows lastProcessed original table other)
    (above : lastProcessed ≤ position.offset)
    (written : table.checkedInsert key position = some (result, order)) :
    Follows lastProcessed original result other := by
  obtain ⟨positions, rfl, members⟩ := checkedInsert_shape written
  have same : processedOf lastProcessed ((table.data.insert key positions).lookup other) =
      processedOf lastProcessed (table.data.lookup other) := by
    by_cases isKey : other = key
    · subst isKey
      rw [SortedMap.lookup_insert_self]
      refine processedOf_congr fun member below => ?_
      have older : member ≠ position := fun equal =>
        absurd (equal ▸ below) (Nat.not_lt.mpr above)
      simp [members, older]
    · rw [SortedMap.lookup_insert_of_ne _ _ isKey]
  rw [Follows, same]
  exact follows

/-- A promotion up to the frontier or less far. -/
theorem Follows.promoteToFlat {original table : IndexTable K} {lastProcessed threshold : Nat}
    {key : K} (follows : Follows lastProcessed original table key)
    (below : threshold ≤ lastProcessed) :
    Follows lastProcessed original (table.promoteToFlatUnconditionally threshold) key := by
  rcases table.promoteToFlat_cases threshold key with
    ⟨sameData, sameFlat⟩ | ⟨positions, found, processed, noData, promoted⟩
  · rw [Follows, sameData, sameFlat]
    exact follows
  · have all : processedOf lastProcessed (some positions) = positions.toList := by
      refine List.filter_eq_self.mpr fun position member => isProcessed_iff.mpr ?_
      exact (IndexWalPosition.offset_le_of_le (AscList.le_latest member)).trans_lt
        (processed.trans_le below)
    rw [Follows, found, all] at follows
    rcases follows with ⟨same, _⟩ | ⟨nothing, _, _⟩
    · refine Or.inr ⟨?_, ?_, ?_⟩
      · rw [noData]
        rfl
      · rw [← same]
        exact positions.nonempty
      · rw [promoted, ← same, AscList.latest, List.getLast?_eq_some_getLast]
    · exact absurd nothing positions.nonempty

end IndexTable

end Tidehunter.Index
