import Tidehunter.Index.TableView

/-!
# The table operations, key by key

One equation for each operation of `IndexTable`: the marks it leaves in the overlay
of a key, its flat entry, and what a read of the key then returns.
-/

namespace Tidehunter.Index

open Library Wal

variable {K : Type} [LinearOrder K]

namespace IndexTable

/-! ## Live writes -/

/-- A live write replaces the positions of its key by those and its own. -/
theorem checkedInsert_shape {table result : IndexTable K} {key : K} {position : IndexWalPosition}
    {order : WriteOrder} (written : table.checkedInsert key position = some (result, order)) :
    ∃ positions : DataPositions, result = { table with data := table.data.insert key positions } ∧
      ∀ member, member ∈ positions ↔ member = position ∨
        ∃ held, table.data.lookup key = some held ∧ member ∈ held := by
  unfold checkedInsert at written
  split at written
  · rename_i held found
    have members : ∀ member, member ∈ held.insert position ↔ member = position ∨
        ∃ other, table.data.lookup key = some other ∧ member ∈ other := by
      intro member
      simp [found]
    split at written
    · split at written
      · cases written
      · cases written
        exact ⟨_, rfl, members⟩
    · split at written
      · cases written
        exact ⟨_, rfl, members⟩
      · cases written
  · rename_i absent
    cases written
    exact ⟨_, rfl, by simp [absent]⟩

/-- A write is stale where the overlay holds a newer operation of its key. -/
theorem checkedInsert_order {table result : IndexTable K} {key : K} {position : IndexWalPosition}
    {order : WriteOrder} (written : table.checkedInsert key position = some (result, order)) :
    order = .latest ∧ (∀ mark ∈ table.overlay key, mark.offset < position.offset) ∨
      order = .stale ∧ ∃ mark ∈ table.overlay key, position.offset < mark.offset := by
  unfold checkedInsert at written
  split at written
  · rename_i held found
    split at written
    · rename_i older
      split at written
      · cases written
      · cases written
        refine Or.inr ⟨rfl, held.latest.mark, ?_, older⟩
        exact mem_overlay.mpr ⟨held, found, held.latest, held.latest_mem, rfl⟩
    · split at written
      · rename_i newer
        cases written
        refine Or.inl ⟨rfl, fun mark member => ?_⟩
        obtain ⟨other, isHeld, inside, isMember, rfl⟩ := mem_overlay.mp member
        obtain rfl := Option.some.inj (found.symm.trans isHeld)
        exact (IndexWalPosition.offset_le_of_le (held.le_latest isMember)).trans_lt newer
      · cases written
  · rename_i absent
    cases written
    refine Or.inl ⟨rfl, fun mark member => ?_⟩
    obtain ⟨other, isHeld, _⟩ := mem_overlay.mp member
    exact absurd (absent.symm.trans isHeld) nofun

theorem checkedInsert_spec {table result : IndexTable K} {key : K} {position : IndexWalPosition}
    {order : WriteOrder} (written : table.checkedInsert key position = some (result, order)) :
    result.flat = table.flat ∧
      ∀ other mark, mark ∈ result.overlay other ↔
        (other = key ∧ mark = position.mark) ∨ mark ∈ table.overlay other := by
  obtain ⟨positions, rfl, members⟩ := checkedInsert_shape written
  refine ⟨rfl, fun other mark => ?_⟩
  simp only [mem_overlay]
  by_cases same : other = key
  · subst same
    simp only [SortedMap.lookup_insert_self, Option.some.injEq, exists_eq_left', members, true_and]
    constructor
    · rintro ⟨member, rfl | ⟨held, found, inside⟩, rfl⟩
      · exact Or.inl rfl
      · exact Or.inr ⟨held, found, member, inside, rfl⟩
    · rintro (rfl | ⟨held, found, member, inside, rfl⟩)
      · exact ⟨position, Or.inl rfl, rfl⟩
      · exact ⟨member, Or.inr ⟨held, found, inside⟩, rfl⟩
  · simp [SortedMap.lookup_insert_of_ne _ _ same, same]

/-- A live write succeeds unless its offset is already taken. -/
theorem checkedInsert_isSome {table : IndexTable K} {key : K} {position : IndexWalPosition}
    (fresh : ∀ mark ∈ table.overlay key, mark.offset ≠ position.offset) :
    ∃ result order, table.checkedInsert key position = some (result, order) := by
  unfold checkedInsert
  split
  · rename_i held found
    have distinct : ∀ member ∈ held, member.offset ≠ position.offset := fun member inside =>
      fresh member.mark ⟨held, found, member, inside, rfl⟩
    split
    · have unused : (held.toList.any fun other => other.offset = position.offset) = false := by
        simpa [AscList.mem_toList] using distinct
      simp [unused]
    · rename_i notBelow
      have above : held.latest.offset < position.offset :=
        lt_of_le_of_ne (not_lt.mp notBelow) (distinct _ held.latest_mem)
      simp [above]
  · exact ⟨_, _, rfl⟩

/-! ## Merging into a freshly loaded base -/

theorem mem_insertSortedAll {held : Option DataPositions} {positions : List IndexWalPosition}
    {result : DataPositions} (merged : insertSortedAll held positions = some result)
    (member : IndexWalPosition) :
    member ∈ result ↔ (∃ old, held = some old ∧ member ∈ old) ∨ member ∈ positions := by
  induction positions generalizing held with
  | nil =>
      simp only [insertSortedAll, List.foldl_nil] at merged
      simp [merged]
  | cons first rest ih =>
      rw [insertSortedAll, List.foldl_cons] at merged
      rw [ih merged]
      cases held with
      | none => simp
      | some old => simp [or_assoc, or_comm, or_left_comm]

theorem insertSortedAll_eq_none_iff {held : Option DataPositions}
    {positions : List IndexWalPosition} :
    insertSortedAll held positions = none ↔ held = none ∧ positions = [] := by
  induction positions generalizing held with
  | nil => simp [insertSortedAll]
  | cons first rest ih =>
      rw [insertSortedAll, List.foldl_cons]
      exact (ih.trans (by simp))

@[simp]
theorem offset_demote (promoteToClean : Bool) (position : IndexWalPosition) :
    (demote promoteToClean position).offset = position.offset :=
  congrArg Mark.offset (mark_demote promoteToClean position)

@[simp]
theorem len_demote (promoteToClean : Bool) (position : IndexWalPosition) :
    (demote promoteToClean position).len = position.len :=
  congrArg Mark.len (mark_demote promoteToClean position)

theorem rank_demote_le (promoteToClean : Bool) {first second : IndexWalPosition}
    (ordered : first.kind.rank ≤ second.kind.rank) :
    (demote promoteToClean first).kind.rank ≤ (demote promoteToClean second).kind.rank := by
  obtain ⟨_, _, kind⟩ := first
  obtain ⟨_, _, kind'⟩ := second
  change kind.rank ≤ kind'.rank at ordered
  cases promoteToClean <;> cases kind <;> cases kind' <;>
    first
      | exact ordered
      | exact absurd ordered (by decide)
      | exact Nat.le_refl _
      | exact Nat.zero_le _

theorem demote_monotone (promoteToClean : Bool) {first second : IndexWalPosition}
    (ordered : first ≤ second) : demote promoteToClean first ≤ demote promoteToClean second := by
  rw [IndexWalPosition.le_iff] at ordered ⊢
  simp only [offset_demote, len_demote]
  rcases ordered with less | ⟨same, less | ⟨sameLen, rank⟩⟩
  · exact Or.inl less
  · exact Or.inr ⟨same, Or.inl less⟩
  · exact Or.inr ⟨same, Or.inr ⟨sameLen, rank_demote_le promoteToClean rank⟩⟩

/-- The positions a merge into a base without overlay leaves for a key. -/
theorem lookup_data_mergeDirty {table : IndexTable K} (noData : table.data = SortedMap.empty)
    (dirty : IndexTable K) (promoteToClean : Bool) (key : K) :
    (table.mergeDirty dirty promoteToClean).data.lookup key =
      (dirty.data.lookup key).bind fun positions =>
        insertSortedAll none (positions.toList.map (demote promoteToClean)) := by
  rw [mergeDirty, SortedMap.lookup_filter, SortedMap.lookup_merge _ _ _ _ rfl, noData]
  cases found : dirty.data.lookup key with
  | none => simp
  | some positions =>
      cases merged : insertSortedAll none (positions.toList.map (demote promoteToClean)) <;>
        simp [SortedMap.contains, found, merged]

theorem insertSortedAll_latest {positions result : DataPositions} (promoteToClean : Bool)
    (merged : insertSortedAll none (positions.toList.map (demote promoteToClean)) = some result) :
    result.latest = demote promoteToClean positions.latest := by
  rw [AscList.latest_eq_iff]
  simp only [mem_insertSortedAll merged, List.mem_map]
  refine ⟨Or.inr ⟨_, positions.latest_mem, rfl⟩, ?_⟩
  rintro member (⟨old, impossible, _⟩ | ⟨original, present, rfl⟩)
  · cases impossible
  · exact demote_monotone promoteToClean (AscList.le_latest present)

theorem latestWhere_insertSortedAll {positions result : DataPositions} (promoteToClean : Bool)
    (frontier : Nat)
    (merged : insertSortedAll none (positions.toList.map (demote promoteToClean)) = some result) :
    (result.latestWhere fun position => isProcessed frontier position.offset) =
      (positions.latestWhere fun position => isProcessed frontier position.offset).map
        (demote promoteToClean) := by
  cases latest : positions.latestWhere fun position => isProcessed frontier position.offset with
  | none =>
      rw [Option.map_none, AscList.latestWhere_eq_none_iff]
      intro member present
      obtain ⟨old, impossible, _⟩ | inside := (mem_insertSortedAll merged member).mp present
      · cases impossible
      · obtain ⟨original, held, rfl⟩ := List.mem_map.mp inside
        rw [offset_demote]
        exact AscList.latestWhere_eq_none_iff.mp latest original held
  | some winner =>
      obtain ⟨held, processed, greatest⟩ := AscList.latestWhere_eq_some_iff.mp latest
      rw [Option.map_some, AscList.latestWhere_eq_some_iff]
      refine ⟨(mem_insertSortedAll merged _).mpr (Or.inr (List.mem_map.mpr ⟨_, held, rfl⟩)), ?_, ?_⟩
      · rw [offset_demote]
        exact processed
      · intro member present below
        obtain ⟨old, impossible, _⟩ | inside := (mem_insertSortedAll merged member).mp present
        · cases impossible
        · obtain ⟨original, inOriginal, rfl⟩ := List.mem_map.mp inside
          rw [offset_demote] at below
          exact demote_monotone promoteToClean (greatest original inOriginal below)

theorem overlay_mergeDirty {table : IndexTable K} (noData : table.data = SortedMap.empty)
    (dirty : IndexTable K) (promoteToClean : Bool) (key : K) :
    (table.mergeDirty dirty promoteToClean).overlay key = dirty.overlay key := by
  ext mark
  simp only [mem_overlay, lookup_data_mergeDirty noData, Option.bind_eq_some_iff]
  constructor
  · rintro ⟨result, ⟨positions, found, merged⟩, position, present, rfl⟩
    obtain ⟨old, impossible, _⟩ | inside := (mem_insertSortedAll merged position).mp present
    · cases impossible
    · obtain ⟨original, held, rfl⟩ := List.mem_map.mp inside
      exact ⟨positions, found, original, held, (mark_demote promoteToClean original).symm⟩
  · rintro ⟨positions, found, position, present, rfl⟩
    cases merged : insertSortedAll none (positions.toList.map (demote promoteToClean)) with
    | none =>
        have nothing := (insertSortedAll_eq_none_iff.mp merged).2
        exact absurd (List.map_eq_nil_iff.mp nothing) positions.nonempty
    | some result =>
        exact ⟨result, ⟨positions, found, merged⟩, _,
          (mem_insertSortedAll merged _).mpr (Or.inr (List.mem_map.mpr ⟨position, present, rfl⟩)),
          mark_demote promoteToClean position⟩

theorem base_mergeDirty (table dirty : IndexTable K) (promoteToClean : Bool) (key : K) :
    (table.mergeDirty dirty promoteToClean).base key = (dirty.base key).or (table.base key) := by
  rw [base, mergeDirty, SortedMap.lookup_merge _ _ _ _ rfl, base, base]
  cases dirty.flat.lookup key <;> simp

/-- A merge into a loaded base reads as the fresher table over the base. -/
theorem get_mergeDirty {table : IndexTable K} (noData : table.data = SortedMap.empty)
    (dirty : IndexTable K) (promoteToClean : Bool) (key : K) :
    (table.mergeDirty dirty promoteToClean).get key = (dirty.get key).or (table.base key) := by
  have flat := base_mergeDirty table dirty promoteToClean key
  unfold base at flat
  simp only [get, entry, dataGetLatest, lookup_data_mergeDirty noData]
  cases found : dirty.data.lookup key with
  | none => simpa [base] using flat
  | some positions =>
      cases merged : insertSortedAll none (positions.toList.map (demote promoteToClean)) with
      | none =>
          have nothing := (insertSortedAll_eq_none_iff.mp merged).2
          exact absurd (List.map_eq_nil_iff.mp nothing) positions.nonempty
      | some result => simp [merged, insertSortedAll_latest promoteToClean merged]

theorem getAt_mergeDirty {table : IndexTable K} (noData : table.data = SortedMap.empty)
    (dirty : IndexTable K) (promoteToClean : Bool) (key : K) (frontier : Nat) :
    (table.mergeDirty dirty promoteToClean).getAt key frontier =
      (dirty.getAt key frontier).or (table.base key) := by
  have flat := base_mergeDirty table dirty promoteToClean key
  unfold base at flat
  simp only [getAt, entryAt, dataGetLatestProcessed, lookup_data_mergeDirty noData]
  cases found : dirty.data.lookup key with
  | none => simpa [base] using flat
  | some positions =>
      cases merged : insertSortedAll none (positions.toList.map (demote promoteToClean)) with
      | none =>
          have nothing := (insertSortedAll_eq_none_iff.mp merged).2
          exact absurd (List.map_eq_nil_iff.mp nothing) positions.nonempty
      | some result =>
          simp only [Option.bind_some, merged, latestWhere_insertSortedAll promoteToClean frontier merged]
          cases positions.latestWhere fun position => isProcessed frontier position.offset with
          | none => simpa [base] using flat
          | some winner => simp

/-! ## Frontier filters -/

@[simp]
theorem base_retainProcessed (table : IndexTable K) (frontier : Nat) (key : K) :
    (table.retainProcessed frontier).base key = table.base key := rfl

theorem dataGetLatest_retainProcessed (table : IndexTable K) (frontier : Nat) (key : K) :
    (table.retainProcessed frontier).dataGetLatest key =
      table.dataGetLatestProcessed key frontier := by
  simp only [dataGetLatest, dataGetLatestProcessed, retainProcessed, SortedMap.lookup_filterMap]
  cases table.data.lookup key <;> rfl

/-- A filter above every write of a key leaves its entry. -/
theorem entry_retainProcessed {table : IndexTable K} {frontier : Nat} {key : K}
    (below : ∀ mark ∈ table.overlay key, mark.offset < frontier) :
    (table.retainProcessed frontier).entry key = table.entry key := by
  rw [entry, dataGetLatest_retainProcessed, ← dataGetLatest_eq_processed below]
  rfl

/-- Reading the filtered table is reading the table as of the frontier. -/
@[simp]
theorem get_retainProcessed (table : IndexTable K) (frontier : Nat) (key : K) :
    (table.retainProcessed frontier).get key = table.getAt key frontier := by
  simp only [get, entry, getAt, entryAt, dataGetLatest_retainProcessed]
  rfl

theorem mem_overlay_retainUnprocessed {table : IndexTable K} {frontier : Nat} {key : K}
    {mark : Mark} :
    mark ∈ (table.retainUnprocessed frontier).overlay key ↔
      mark ∈ table.overlay key ∧ frontier ≤ mark.offset := by
  simp only [mem_overlay, retainUnprocessed, SortedMap.lookup_filterMap, Option.bind_eq_some_iff]
  constructor
  · rintro ⟨kept, ⟨positions, found, filtered⟩, position, present, rfl⟩
    obtain ⟨inside, unprocessed⟩ := (AscList.mem_of_filter_eq_some filtered position).mp present
    exact ⟨⟨positions, found, position, inside, rfl⟩, by simpa [isProcessed] using unprocessed⟩
  · rintro ⟨⟨positions, found, position, present, rfl⟩, above⟩
    have accepted : (!isProcessed frontier position.offset) = true := by
      simpa [isProcessed] using above
    cases filtered : positions.filter fun other => !isProcessed frontier other.offset with
    | none =>
        rw [AscList.filter_eq_none_iff.mp filtered position present] at accepted
        cases accepted
    | some kept =>
        exact ⟨kept, ⟨positions, found, filtered⟩, position,
          (AscList.mem_of_filter_eq_some filtered position).mpr ⟨present, accepted⟩, rfl⟩

/-- The newest position of a key stays if any position of the key does. -/
theorem dataGetLatest_retainUnprocessed (table : IndexTable K) (frontier : Nat) (key : K) :
    (table.retainUnprocessed frontier).dataGetLatest key =
      (table.dataGetLatest key).filter fun position => frontier ≤ position.offset := by
  simp only [dataGetLatest, retainUnprocessed, SortedMap.lookup_filterMap]
  cases table.data.lookup key with
  | none => rfl
  | some positions =>
      simp only [Option.bind_some, Option.map_some, Option.filter_some]
      cases filtered : positions.filter fun position => !isProcessed frontier position.offset with
      | none =>
          have processed := AscList.filter_eq_none_iff.mp filtered _ positions.latest_mem
          have below : ¬ frontier ≤ positions.latest.offset := by
            simpa [isProcessed] using processed
          simp [below]
      | some kept =>
          obtain ⟨inside, unprocessed⟩ :=
            (AscList.mem_of_filter_eq_some filtered kept.latest).mp kept.latest_mem
          have high : frontier ≤ kept.latest.offset := by simpa [isProcessed] using unprocessed
          have ordered := IndexWalPosition.offset_le_of_le (AscList.le_latest inside)
          have latestKept : positions.latest ∈ kept := by
            refine (AscList.mem_of_filter_eq_some filtered _).mpr ⟨positions.latest_mem, ?_⟩
            simpa [isProcessed] using le_trans high ordered
          have same : kept.latest = positions.latest :=
            le_antisymm (AscList.le_latest inside) (AscList.le_latest latestKept)
          simp [same, le_trans high ordered]

@[simp]
theorem base_retainUnprocessed (table : IndexTable K) (frontier : Nat) (key : K) :
    (table.retainUnprocessed frontier).base key = none := rfl

theorem hasUnprocessed_eq_false_iff {table : IndexTable K} {frontier : Nat} :
    table.hasUnprocessed frontier = false ↔
      ∀ key, ∀ mark ∈ table.overlay key, mark.offset < frontier := by
  simp only [hasUnprocessed, List.any_eq_false, List.any_eq_true, Bool.not_eq_true',
    not_exists, not_and, Bool.not_eq_false]
  constructor
  · rintro all key mark ⟨positions, found, position, present, rfl⟩
    exact isProcessed_iff.mp
      (all (key, positions) (SortedMap.mem_entries_of_lookup found) position present)
  · rintro all ⟨key, positions⟩ bound position present
    exact isProcessed_iff.mpr (all key position.mark
      ⟨positions, SortedMap.lookup_of_mem_entries bound, position, present, rfl⟩)

theorem lookup_data_rebaseOnAsOf {asOf : IndexTable K} (noData : asOf.data = SortedMap.empty)
    (table : IndexTable K) (frontier : Nat) (key : K) :
    (table.rebaseOnAsOf asOf frontier).data.lookup key =
      (table.data.lookup key).bind fun positions =>
        insertSortedAll none (positions.toList.filter fun position =>
          !isProcessed frontier position.offset) := by
  rw [rebaseOnAsOf, SortedMap.lookup_merge _ _ _ _ rfl, noData]
  cases table.data.lookup key <;> rfl

/-- A rebase keeps the positions that a filter at the same frontier keeps. -/
theorem mem_overlay_rebaseOnAsOf {asOf : IndexTable K} (noData : asOf.data = SortedMap.empty)
    {table : IndexTable K} {frontier : Nat} {key : K} {mark : Mark} :
    mark ∈ (table.rebaseOnAsOf asOf frontier).overlay key ↔
      mark ∈ table.overlay key ∧ frontier ≤ mark.offset := by
  simp only [mem_overlay, lookup_data_rebaseOnAsOf noData, Option.bind_eq_some_iff]
  constructor
  · rintro ⟨kept, ⟨positions, found, merged⟩, position, present, rfl⟩
    obtain ⟨old, impossible, _⟩ | inside := (mem_insertSortedAll merged position).mp present
    · cases impossible
    · obtain ⟨member, unprocessed⟩ := List.mem_filter.mp inside
      exact ⟨⟨positions, found, position, member, rfl⟩, by simpa [isProcessed] using unprocessed⟩
  · rintro ⟨⟨positions, found, position, present, rfl⟩, above⟩
    have member : position ∈ positions.toList.filter fun other =>
        !isProcessed frontier other.offset :=
      List.mem_filter.mpr ⟨present, by simpa [isProcessed] using above⟩
    cases merged : insertSortedAll none (positions.toList.filter fun other =>
        !isProcessed frontier other.offset) with
    | none =>
        rw [(insertSortedAll_eq_none_iff.mp merged).2] at member
        cases member
    | some kept =>
        exact ⟨kept, ⟨positions, found, merged⟩, position,
          (mem_insertSortedAll merged position).mpr (Or.inr member), rfl⟩

theorem dataGetLatest_rebaseOnAsOf {asOf : IndexTable K} (noData : asOf.data = SortedMap.empty)
    (table : IndexTable K) (frontier : Nat) (key : K) :
    (table.rebaseOnAsOf asOf frontier).dataGetLatest key =
      (table.dataGetLatest key).filter fun position => frontier ≤ position.offset := by
  rw [← dataGetLatest_retainUnprocessed]
  simp only [dataGetLatest, lookup_data_rebaseOnAsOf noData, retainUnprocessed,
    SortedMap.lookup_filterMap]
  cases table.data.lookup key with
  | none => rfl
  | some positions =>
      simp only [Option.bind_some]
      cases merged : insertSortedAll none (positions.toList.filter fun position =>
          !isProcessed frontier position.offset) with
      | none =>
          have nothing := (insertSortedAll_eq_none_iff.mp merged).2
          have filtered : positions.filter (fun position =>
              !isProcessed frontier position.offset) = none := by
            rw [AscList.filter_eq_none_iff]
            intro position member
            simpa using (List.filter_eq_nil_iff.mp nothing) position member
          simp [filtered]
      | some kept =>
          have sameMembers : ∀ position, position ∈ kept ↔
              position ∈ positions ∧ (!isProcessed frontier position.offset) = true := by
            intro position
            rw [mem_insertSortedAll merged position, List.mem_filter, AscList.mem_toList]
            simp
          cases filtered : positions.filter fun position =>
              !isProcessed frontier position.offset with
          | none =>
              obtain ⟨inside, unprocessed⟩ := (sameMembers _).mp kept.latest_mem
              rw [AscList.filter_eq_none_iff.mp filtered _ inside] at unprocessed
              cases unprocessed
          | some other =>
              have same : kept = other := AscList.ext_mem fun position => by
                rw [sameMembers, AscList.mem_of_filter_eq_some filtered]
              rw [same]

@[simp]
theorem flat_rebaseOnAsOf (table asOf : IndexTable K) (frontier : Nat) :
    (table.rebaseOnAsOf asOf frontier).flat = asOf.flat := rfl

/-! ## Offset filter -/

/-- What the offset filter leaves visible: an overlay that falls below the bound
uncovers the flat entry. -/
theorem entry_retainAbovePosition (table : IndexTable K) (lowest : Nat) (key : K) :
    (table.retainAbovePosition lowest).entry key =
      ((table.dataGetLatest key).filter fun position => lowest ≤ position.offset).or
        ((table.flat.lookup key).filter fun position => lowest ≤ position.offset) := by
  simp only [entry, dataGetLatest, retainAbovePosition, retainData, retainFlat,
    SortedMap.lookup_filter, SortedMap.lookup_filterMap]
  congr 1
  · cases table.data.lookup key with
    | none => rfl
    | some positions => by_cases high : lowest ≤ positions.latest.offset <;> simp [high, Option.filter]
  · cases table.flat.lookup key <;> simp [Option.filter]

/-- An entry at or above the bound stays visible. -/
theorem entry_retainAbovePosition_of_le {table : IndexTable K} {lowest : Nat} {key : K}
    {position : IndexWalPosition} (visible : table.entry key = some position)
    (high : lowest ≤ position.offset) :
    (table.retainAbovePosition lowest).entry key = some position := by
  rw [entry_retainAbovePosition]
  cases latest : table.dataGetLatest key with
  | none =>
      rw [entry, latest, Option.none_or] at visible
      simp [visible, Option.filter, high]
  | some newest =>
      have same : newest = position := by simpa [entry, latest] using visible
      subst same
      simp [Option.filter, high]

theorem entry_retainAbovePosition_of_none {table : IndexTable K} {lowest : Nat} {key : K}
    (absent : table.entry key = none) : (table.retainAbovePosition lowest).entry key = none := by
  rw [entry, Option.or_eq_none_iff] at absent
  rw [entry_retainAbovePosition, absent.1, absent.2]
  rfl

/-- Every entry of the table lies at or above a bound. -/
def AllAbove (lowest : Nat) (table : IndexTable K) : Prop :=
  ∀ key, (∀ position, table.dataGetLatest key = some position → lowest ≤ position.offset) ∧
    ∀ position, table.flat.lookup key = some position → lowest ≤ position.offset

theorem allAbove_retainAbovePosition {lowest bound : Nat} (table : IndexTable K)
    (ordered : lowest ≤ bound) : (table.retainAbovePosition bound).AllAbove lowest := by
  intro key
  constructor
  · intro position latest
    simp only [dataGetLatest, retainAbovePosition, retainData, retainFlat, SortedMap.lookup_filter,
      Option.map_eq_some_iff, Option.filter_eq_some_iff, decide_eq_true_eq] at latest
    obtain ⟨positions, ⟨_, high⟩, rfl⟩ := latest
    exact le_trans ordered high
  · intro position found
    simp only [retainAbovePosition, retainData, retainFlat, SortedMap.lookup_filterMap,
      Option.bind_eq_some_iff] at found
    obtain ⟨original, _, kept⟩ := found
    split at kept
    · rename_i high
      cases kept
      exact le_trans ordered high
    · cases kept

theorem dataGetLatest_mergeDirty {table : IndexTable K} (noData : table.data = SortedMap.empty)
    (dirty : IndexTable K) (promoteToClean : Bool) (key : K) :
    (table.mergeDirty dirty promoteToClean).dataGetLatest key =
      (dirty.dataGetLatest key).map (demote promoteToClean) := by
  simp only [dataGetLatest, lookup_data_mergeDirty noData]
  cases dirty.data.lookup key with
  | none => rfl
  | some positions =>
      cases merged : insertSortedAll none (positions.toList.map (demote promoteToClean)) with
      | none =>
          have nothing := (insertSortedAll_eq_none_iff.mp merged).2
          exact absurd (List.map_eq_nil_iff.mp nothing) positions.nonempty
      | some result => simp [merged, insertSortedAll_latest promoteToClean merged]

theorem lookup_flat_mergeDirty (table dirty : IndexTable K) (promoteToClean : Bool) (key : K) :
    (table.mergeDirty dirty promoteToClean).flat.lookup key =
      ((dirty.flat.lookup key).map (demote promoteToClean)).or (table.flat.lookup key) := by
  rw [mergeDirty, SortedMap.lookup_merge _ _ _ _ rfl]

theorem entry_mergeDirty {table : IndexTable K} (noData : table.data = SortedMap.empty)
    (dirty : IndexTable K) (promoteToClean : Bool) (key : K) :
    (table.mergeDirty dirty promoteToClean).entry key =
      ((dirty.entry key).map (demote promoteToClean)).or (table.flat.lookup key) := by
  rw [entry, dataGetLatest_mergeDirty noData, lookup_flat_mergeDirty, entry, Option.map_or,
    Option.or_assoc]

/-- The offset filter on a merge: entries of the fresher table stay, those of the base
below the bound go. -/
theorem get_retainAbovePosition_mergeDirty {table : IndexTable K}
    (noData : table.data = SortedMap.empty) {dirty : IndexTable K} {lowest : Nat}
    (above : dirty.AllAbove lowest) (promoteToClean : Bool) (key : K) :
    ((table.mergeDirty dirty promoteToClean).retainAbovePosition lowest).get key =
      (dirty.get key).or
        (((table.flat.lookup key).filter fun position => lowest ≤ position.offset).map
          IndexWalPosition.intoWalPosition) := by
  obtain ⟨dataAbove, flatAbove⟩ := above key
  rw [get, entry_retainAbovePosition, dataGetLatest_mergeDirty noData, lookup_flat_mergeDirty, get,
    entry]
  cases newest : dirty.dataGetLatest key with
  | some position =>
      have high := dataAbove position newest
      simp [Option.filter, high]
  | none =>
      cases under : dirty.flat.lookup key with
      | some position =>
          have high := flatAbove position under
          simp [Option.filter, high]
      | none => simp

/-! ## Compare-and-set -/

theorem entry_applyUpdate {table : IndexTable K} {key : K}
    {update : IndexWalPosition → IndexWalPosition} (raises : ∀ position, position ≤ update position)
    (other : K) :
    (table.applyUpdate key update).entry other =
      if other = key then (table.entry key).map update else table.entry other := by
  unfold applyUpdate
  cases found : table.data.lookup key with
  | some positions =>
      by_cases same : other = key
      · subst same
        simp [entry, dataGetLatest, found,
          AscList.latest_replaceLatest (raises positions.latest)]
      · simp [entry, dataGetLatest, SortedMap.lookup_insert_of_ne _ _ same,
          same]
  | none =>
      cases under : table.flat.lookup key with
      | none =>
          by_cases same : other = key
          · subst same
            simp [entry, dataGetLatest, found, under]
          · simp [same]
      | some original =>
          by_cases same : other = key
          · subst same
            by_cases unchanged : update original = original
            · simp [unchanged, entry, dataGetLatest, found, under]
            · simp [unchanged, entry, dataGetLatest, found, under]
          · by_cases unchanged : update original = original
            · simp [unchanged, same]
            · simp [unchanged, entry, dataGetLatest,
                SortedMap.lookup_insert_of_ne _ _ same, same]

/-! ## Compaction -/

/-- The keys a compactor keeps of a table it is shown. -/
def retainedBy (compactor : List K → List K) (table : IndexTable K) (key : K) : Bool :=
  (compactor table.keys).contains key

theorem entry_compactWith_of_retained {table : IndexTable K} {compactor : List K → List K} {key : K}
    (retained : table.retainedBy compactor key = true) :
    (table.compactWith compactor).entry key = table.entry key := by
  unfold retainedBy at retained
  simp only [entry, dataGetLatest, compactWith, retainData, retainFlat, SortedMap.lookup_filter,
    SortedMap.lookup_filterMap, retained, Bool.or_true, if_true]
  cases table.data.lookup key <;> cases table.flat.lookup key <;> simp [Option.filter]

/-- Of a key that is not retained, only tombstones stay. -/
theorem entry_compactWith_of_not_retained {table : IndexTable K} {compactor : List K → List K}
    {key : K} (dropped : table.retainedBy compactor key = false) :
    (table.compactWith compactor).entry key =
      ((table.dataGetLatest key).filter IndexWalPosition.isRemoved).or
        ((table.flat.lookup key).filter IndexWalPosition.isRemoved) := by
  unfold retainedBy at dropped
  simp only [entry, dataGetLatest, compactWith, retainData, retainFlat, SortedMap.lookup_filter,
    SortedMap.lookup_filterMap, dropped, Bool.or_false]
  congr 1
  · cases table.data.lookup key with
    | none => rfl
    | some positions => cases removed : positions.latest.isRemoved <;> simp [Option.filter, removed]
  · cases table.flat.lookup key <;> simp [Option.filter]

theorem readable_get_compactWith (table : IndexTable K) (compactor : List K → List K) (key : K) :
    readable ((table.compactWith compactor).get key) =
      if table.retainedBy compactor key then readable (table.get key) else none := by
  cases retained : table.retainedBy compactor key with
  | true => simp [get, entry_compactWith_of_retained retained]
  | false =>
      rw [get, entry_compactWith_of_not_retained retained]
      have tombstone : ∀ found : Option IndexWalPosition,
          readable ((found.filter IndexWalPosition.isRemoved).map
            IndexWalPosition.intoWalPosition) = none := by
        intro found
        cases found with
        | none => rfl
        | some position =>
            cases removed : position.isRemoved with
            | true =>
                simp [Option.filter, removed,
                  IndexWalPosition.intoWalPosition_of_isRemoved removed]
            | false => simp [Option.filter, removed]
      cases upper : (table.dataGetLatest key).filter IndexWalPosition.isRemoved with
      | none => simpa using tombstone (table.flat.lookup key)
      | some position =>
          have none := tombstone (table.dataGetLatest key)
          rw [upper] at none
          simpa using none

/-! ## Settling a deepest level -/

theorem dataGetLatest_cleanSelf (table : IndexTable K) (key : K) :
    (table.cleanSelf.dataGetLatest key).map IndexWalPosition.mark =
      ((table.dataGetLatest key).filter fun position => !position.isRemoved).map
        IndexWalPosition.mark := by
  simp only [dataGetLatest, cleanSelf, SortedMap.lookup_filterMap]
  cases table.data.lookup key with
  | none => rfl
  | some positions =>
      cases kind : positions.latest.kind with
      | clean => simp [kind, Option.filter, IndexWalPosition.isRemoved]
      | modified =>
          simp [kind, Option.filter, IndexWalPosition.isRemoved,
            IndexWalPosition.mark, IndexWalPosition.asCleanModified]
      | removed => simp [kind, Option.filter, IndexWalPosition.isRemoved]

/-- Of each key at most the newest overlay position stays. -/
theorem latest_of_mem_overlay_cleanSelf {table : IndexTable K} {key : K} {mark : Mark}
    (member : mark ∈ table.cleanSelf.overlay key) :
    mark ∈ table.overlay key ∧ ∀ other ∈ table.overlay key, other.offset ≤ mark.offset := by
  obtain ⟨kept, found, position, inside, rfl⟩ := member
  simp only [cleanSelf, SortedMap.lookup_filterMap, Option.bind_eq_some_iff] at found
  obtain ⟨positions, isHeld, isKept⟩ := found
  have same : position.mark = positions.latest.mark := by
    split at isKept
    · cases isKept
      rw [AscList.mem_singleton.mp inside]
    · rename_i kind
      cases isKept
      rw [AscList.mem_singleton.mp inside]
      exact IndexWalPosition.mark_asCleanModified (by simp [IndexWalPosition.isRemoved, kind])
    · cases isKept
  rw [same]
  refine ⟨⟨positions, isHeld, _, positions.latest_mem, rfl⟩, ?_⟩
  rintro _ ⟨others, alsoHeld, other, among, rfl⟩
  cases isHeld.symm.trans alsoHeld
  exact IndexWalPosition.offset_le_of_le (AscList.le_latest among)

/-- A settled level holds no tombstone. -/
theorem isRemoved_of_entry_cleanSelf {table : IndexTable K} {key : K} {position : IndexWalPosition}
    (visible : table.cleanSelf.entry key = some position) : position.isRemoved = false := by
  rw [entry, Option.or_eq_some_iff] at visible
  rcases visible with upper | ⟨_, lower⟩
  · have marks := dataGetLatest_cleanSelf table key
    rw [upper, Option.map_some] at marks
    obtain ⟨held, isHeld, same⟩ := Option.map_eq_some_iff.mp marks.symm
    have present := (Option.filter_eq_some_iff.mp isHeld).2
    have removed := congrArg Mark.removed same
    simp only [IndexWalPosition.mark] at removed
    simpa [← removed] using present
  · simp only [cleanSelf, SortedMap.lookup_filterMap, Option.bind_eq_some_iff] at lower
    obtain ⟨held, _, kept⟩ := lower
    split at kept
    · cases kept
    · cases kept
      rfl

/-- A settled level reads the same; tombstones and what they hid are gone. -/
theorem readable_get_cleanSelf (table : IndexTable K) (key : K) :
    readable (table.cleanSelf.get key) = readable (table.get key) := by
  have latest := dataGetLatest_cleanSelf table key
  simp only [readable, get, entry]
  cases found : table.dataGetLatest key with
  | none =>
      rw [found] at latest
      have none : table.cleanSelf.dataGetLatest key = none := by simpa using latest
      rw [none]
      simp only [cleanSelf, SortedMap.lookup_filterMap, found]
      cases flat : table.flat.lookup key with
      | none => rfl
      | some position =>
          cases removed : position.isRemoved with
          | true =>
              simp [removed, IndexWalPosition.intoWalPosition_of_isRemoved removed,
                WalPosition.valid_invalid]
          | false =>
              simp [removed, IndexWalPosition.intoWalPosition_eq,
                IndexWalPosition.mark_asCleanModified removed]
  | some newest =>
      rw [found] at latest
      cases removed : newest.isRemoved with
      | true =>
          have none : table.cleanSelf.dataGetLatest key = none := by
            simpa [Option.filter, removed] using latest
          rw [none]
          simp only [cleanSelf, SortedMap.lookup_filterMap, found]
          cases table.flat.lookup key <;>
            simp [removed, IndexWalPosition.intoWalPosition_of_isRemoved removed,
              WalPosition.valid_invalid]
      | false =>
          obtain ⟨kept, isKept, sameMark⟩ : ∃ kept, table.cleanSelf.dataGetLatest key = some kept ∧
              kept.mark = newest.mark := by
            simpa [Option.filter, removed, Option.map_eq_some_iff] using latest
          simp [isKept, IndexWalPosition.intoWalPosition_eq, sameMark]

end IndexTable

end Tidehunter.Index
