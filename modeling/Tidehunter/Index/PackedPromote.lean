import Tidehunter.Index.PackedWrites
import Tidehunter.Index.TableDrain

/-!
# Promotion into the flat buffer

A promote walks the overlay over the flat buffer, once to size the new buffer and once to fill
it, and then drops the promoted keys from the overlay. A key goes as a whole, and only when its
latest position is processed. No reader as of a frontier at or above that of the promote sees a
difference.
-/

namespace Tidehunter.Index

open Library Wal Flat

namespace PackedTable

/-! ## The code -/

/-- The entries a promote writes, in key order. -/
def mergeWalk (flat : Bytes) (keySize : Option Nat) (data : SortedMap Bytes DataPositions)
    (lastProcessed : Nat) : List FlatEntry :=
  layOver (flatIter flat keySize)
    ((dataLatestPerKey data).filter fun entry => isProcessed lastProcessed entry.2.offset)

/-- The new buffer and its dirty entries. The first walk sizes the buffer, the second fills it. -/
def mergeIntoFlat (flat : Bytes) (keySize : Option Nat) (data : SortedMap Bytes DataPositions)
    (lastProcessed : Nat) : Option (Bytes × Nat) :=
  let entryCount := (mergeWalk flat keySize data lastProcessed).length
  let dirtyCount := dirtyEntries (mergeWalk flat keySize data lastProcessed)
  if entryCount = 0 then some ([], 0)
  else
    let filled := match keySize with
      | some _ => (mergeWalk flat keySize data lastProcessed).foldlM pushFixedEntry []
      | none =>
          let offsetsStart := (putBe 4 entryCount).length
          let dataStart := offsetsStart + 4 * entryCount
          ((mergeWalk flat keySize data lastProcessed).foldlM (pushVarEntry offsetsStart dataStart)
            (putBe 4 entryCount ++ List.replicate (4 * entryCount) 0, 0)).map Prod.fst
    filled.map fun newFlat => (newFlat, dirtyCount)

/-- Move each key whose latest position is processed into the flat buffer. None is the panic of
the buffer's writer. -/
def promoteToFlatUnconditionally (table : PackedTable) (lastProcessed : Nat) :
    Option PackedTable :=
  (mergeIntoFlat table.flat table.keySize table.data lastProcessed).map fun merged =>
    let data := table.data.filter fun _ positions =>
      !isProcessed lastProcessed positions.latest.offset
    let counted := recountDataStats data
    ⟨data, counted.1, merged.2 + counted.2, merged.1, table.keySize⟩

/-! ## Rebuilt buffers -/

/-- A buffer built from ascending entries of the key space. -/
theorem wellFormed_of_built {indexKeySize keySize : Option Nat}
    {data : SortedMap Bytes DataPositions} {flat : Bytes} {entries : List FlatEntry}
    (layout : keySize = none ∨ keySize = indexKeySize)
    (built : buildFlatBytes entries keySize = some flat)
    (sorted : entries.Pairwise fun first second => first.1 < second.1)
    (keys : ∀ entry ∈ entries, KeyOf indexKeySize entry.1)
    (positions : ∀ entry ∈ entries, PositionFits entry.2)
    (dataKeys : ∀ key positions, data.lookup key = some positions → KeyOf indexKeySize key)
    (dataFits : ∀ key positions, data.lookup key = some positions →
      ∀ position ∈ positions, PositionFits position) :
    (∀ keyBytes dirtyCount, WellFormed indexKeySize ⟨data, keyBytes, dirtyCount, flat, keySize⟩) ∧
      flatIter flat keySize = entries := by
  have fits : ∀ entry ∈ entries, Fits keySize entry := fun entry member =>
    ⟨(keys entry member).fits layout, positions entry member⟩
  have same := (buildFlatBytes_spec fits).2 flat built
  exact ⟨fun _ _ => ⟨layout, by rwa [same], by rwa [Ascending, same], by rwa [same], dataKeys,
    dataFits⟩, same⟩

/-- Filling a sized buffer gives the buffer of the walked entries. -/
theorem mergeIntoFlat_eq {flat : Bytes} {keySize : Option Nat}
    {data : SortedMap Bytes DataPositions} {lastProcessed : Nat}
    (fits : ∀ entry ∈ mergeWalk flat keySize data lastProcessed, Fits keySize entry) :
    mergeIntoFlat flat keySize data lastProcessed =
      (buildFlatBytes (mergeWalk flat keySize data lastProcessed) keySize).map fun newFlat =>
        (newFlat, dirtyEntries (mergeWalk flat keySize data lastProcessed)) := by
  unfold mergeIntoFlat
  generalize mergeWalk flat keySize data lastProcessed = entries at fits
  simp only
  by_cases nothing : entries = []
  · subst nothing
    cases keySize <;> rfl
  · rw [if_neg (by simpa using nothing)]
    cases keySize with
    | some size => rfl
    | none =>
        have written := foldlM_pushVarEntry fits (putBe 4 entries.length) [] [] 0 rfl
        simp only [List.nil_append, List.append_nil, Nat.zero_add, List.length_nil] at written
        simp only [written, buildFlatBytes, appendFlatVarlen_eq nothing fits, List.nil_append]
        by_cases small : OffsetsFit 0 entries
        · rw [if_pos small, if_pos small]
          rfl
        · rw [if_neg small, if_neg small]
          rfl

/-! ## What a promote writes -/

/-- The latest positions a promote drains. -/
def drained (data : SortedMap Bytes DataPositions) (lastProcessed : Nat) :
    SortedMap Bytes IndexWalPosition :=
  data.filterMap fun _ positions =>
    (some positions.latest).filter fun position => isProcessed lastProcessed position.offset

theorem entries_drained (data : SortedMap Bytes DataPositions) (lastProcessed : Nat) :
    (drained data lastProcessed).entries =
      (dataLatestPerKey data).filter fun entry => isProcessed lastProcessed entry.2.offset := by
  rw [dataLatestPerKey, List.filter_map, ← List.filterMap_eq_filter, List.map_filterMap]
  change data.entries.filterMap _ = _
  congr 1
  funext binding
  simp only [Option.filter, Function.comp_apply, Option.guard]
  split <;> rfl

theorem lookup_drained (data : SortedMap Bytes DataPositions) (lastProcessed : Nat) (key : Bytes) :
    (drained data lastProcessed).lookup key =
      ((data.lookup key).map AscList.latest).filter fun position =>
        isProcessed lastProcessed position.offset := by
  rw [drained, SortedMap.lookup_filterMap]
  cases data.lookup key <;> rfl

variable {indexKeySize : Option Nat} {table : PackedTable}

theorem mergeWalk_sorted (wellFormed : table.WellFormed indexKeySize) (lastProcessed : Nat) :
    (mergeWalk table.flat table.keySize table.data lastProcessed).Pairwise
      fun first second => first.1 < second.1 := by
  rw [mergeWalk, ← entries_drained]
  exact layOver_sorted wellFormed.ascending (drained table.data lastProcessed).sorted

/-- An entry of the walk is an entry of the old buffer or a drained latest position. -/
theorem mem_mergeWalk {entry : FlatEntry} {lastProcessed : Nat}
    (member : entry ∈ mergeWalk table.flat table.keySize table.data lastProcessed) :
    entry ∈ flatIter table.flat table.keySize ∨
      ∃ positions, table.data.lookup entry.1 = some positions ∧ entry.2 = positions.latest ∧
        entry.2.offset < lastProcessed := by
  rw [mergeWalk, ← entries_drained] at member
  refine (mem_of_mem_layOver member).imp_right fun inData => ?_
  have found : (drained table.data lastProcessed).lookup entry.1 = some entry.2 :=
    SortedMap.lookup_of_mem_entries inData
  rw [lookup_drained, Option.filter_eq_some_iff, Option.map_eq_some_iff] at found
  obtain ⟨⟨positions, present, latest⟩, processed⟩ := found
  exact ⟨positions, present, latest.symm, isProcessed_iff.mp processed⟩

theorem fits_of_mem_mergeWalk (wellFormed : table.WellFormed indexKeySize) {entry : FlatEntry}
    {lastProcessed : Nat}
    (member : entry ∈ mergeWalk table.flat table.keySize table.data lastProcessed) :
    KeyOf indexKeySize entry.1 ∧ PositionFits entry.2 := by
  rcases mem_mergeWalk member with old | ⟨positions, found, latest, -⟩
  · exact ⟨wellFormed.flatKeys entry old, (fits_of_mem_flatIter old).position⟩
  · refine ⟨wellFormed.dataKeys _ _ found, ?_⟩
    rw [latest]
    exact wellFormed.dataFits _ _ found _ positions.latest_mem

/-- The new buffer exists when its offsets have 32 bits. The promoted table is the promote of the
table's overlay and entries, and its counters are those of its contents. -/
theorem promoteToFlat_spec (wellFormed : table.WellFormed indexKeySize) (lastProcessed : Nat) :
    ((table.promoteToFlatUnconditionally lastProcessed).isSome = true ↔
        Buildable (mergeWalk table.flat table.keySize table.data lastProcessed) table.keySize) ∧
      ∀ result, table.promoteToFlatUnconditionally lastProcessed = some result →
        ∃ wellFormed' : result.WellFormed indexKeySize,
          result.toTable wellFormed'.ascending =
            (table.toTable wellFormed.ascending).promoteToFlatUnconditionally lastProcessed ∧
          flatIter result.flat result.keySize =
            mergeWalk table.flat table.keySize table.data lastProcessed ∧ result.Counted := by
  have parts : ∀ entry ∈ mergeWalk table.flat table.keySize table.data lastProcessed,
      KeyOf indexKeySize entry.1 ∧ PositionFits entry.2 := fun entry member =>
    fits_of_mem_mergeWalk wellFormed member
  have fits : ∀ entry ∈ mergeWalk table.flat table.keySize table.data lastProcessed,
      Fits table.keySize entry := fun entry member =>
    ⟨(parts entry member).1.fits wellFormed.layout, (parts entry member).2⟩
  rw [promoteToFlatUnconditionally, mergeIntoFlat_eq fits, Option.map_map]
  refine ⟨by rw [Option.isSome_map]; exact (buildFlatBytes_spec fits).1.symm, ?_⟩
  intro result promoted
  obtain ⟨flat, built, rfl⟩ := Option.map_eq_some_iff.mp promoted
  have kept : ∀ key positions, (table.data.filter fun _ positions =>
      !isProcessed lastProcessed positions.latest.offset).lookup key = some positions →
        table.data.lookup key = some positions := by
    intro key positions found
    rw [SortedMap.lookup_filter] at found
    exact (Option.filter_eq_some_iff.mp found).1
  obtain ⟨rebuilt, entries⟩ := wellFormed_of_built wellFormed.layout built
    (mergeWalk_sorted wellFormed lastProcessed) (fun entry member => (parts entry member).1)
    (fun entry member => (parts entry member).2)
    (fun key positions found => wellFormed.dataKeys key positions (kept key positions found))
    (fun key positions found => wellFormed.dataFits key positions (kept key positions found))
  refine ⟨rebuilt _ _, toTable_eq rfl (entries.trans ?_), entries, ?_⟩
  · have walked : mergeWalk table.flat table.keySize table.data lastProcessed =
        ((flatMap table.flat table.keySize wellFormed.ascending).laidOver
          (drained table.data lastProcessed)).entries := by
      rw [mergeWalk, ← entries_drained]
      rfl
    rw [walked]
    refine congrArg SortedMap.entries (SortedMap.ext_lookup fun key => ?_)
    rw [IndexTable.lookup_flat_promoteToFlat, SortedMap.lookup_laidOver, lookup_drained]
    rfl
  · rw [Counted, recountStats]
    simp only [Function.comp_apply, entries]

end PackedTable

/-! ## Views -/

namespace IndexTable

variable {K : Type} [LinearOrder K] {table : IndexTable K} {threshold : Nat}

/-- A promoted key shows the position it showed before. -/
theorem get_promoteToFlat (key : K) :
    (table.promoteToFlatUnconditionally threshold).get key = table.get key := by
  rw [get, get, entry, entry, dataGetLatest, dataGetLatest]
  rcases table.promoteToFlat_cases threshold key with ⟨data, flat⟩ | ⟨positions, found, -, data, flat⟩
  · rw [data, flat]
  · rw [data, flat, found]
    rfl

/-- As of a frontier at or above that of the promote, too. -/
theorem getAt_promoteToFlat {frontier : Nat} (atLeast : threshold ≤ frontier) (key : K) :
    (table.promoteToFlatUnconditionally threshold).getAt key frontier =
      table.getAt key frontier := by
  rw [getAt, getAt, entryAt, entryAt, dataGetLatestProcessed, dataGetLatestProcessed]
  rcases table.promoteToFlat_cases threshold key with
    ⟨data, flat⟩ | ⟨positions, found, below, data, flat⟩
  · rw [data, flat]
  · have processed : (positions.latestWhere fun position =>
        isProcessed frontier position.offset) = some positions.latest := by
      refine AscList.latestWhere_eq_some_iff.mpr ⟨positions.latest_mem, ?_, fun other member _ =>
        AscList.le_latest member⟩
      exact isProcessed_iff.mpr (below.trans_le atLeast)
    rw [data, flat, found, Option.bind_some, processed]
    rfl

end IndexTable

namespace PackedTable

variable {indexKeySize : Option Nat} {table : PackedTable}

/-- A promote is seen by no reader: not by a live lookup or iteration, not by one as of a frontier
at or above that of the promote, and not in the blob. The new buffer has one entry per key in
ascending order, what was added to it is processed, and the counters are right. -/
theorem promoteToFlat_keeps_views (wellFormed : table.WellFormed indexKeySize) (threshold : Nat) :
    ((table.promoteToFlatUnconditionally threshold).isSome = true ↔
        Buildable (mergeWalk table.flat table.keySize table.data threshold) table.keySize) ∧
      ∀ result, table.promoteToFlatUnconditionally threshold = some result →
        (∀ key, result.get key = table.get key) ∧
        (∀ frontier, threshold ≤ frontier → ∀ key,
          result.getAt key frontier = table.getAt key frontier) ∧
        (∀ direction prev, result.nextEntryDirectional direction prev =
          table.nextEntryDirectional direction prev) ∧
        (∀ frontier, threshold ≤ frontier → ∀ direction prev,
          result.nextEntryDirectionalAt direction prev frontier =
            table.nextEntryDirectionalAt direction prev frontier) ∧
        (∀ writer, result.serializeIndexEntries indexKeySize writer =
          table.serializeIndexEntries indexKeySize writer) ∧
        result.WellFormed indexKeySize ∧
        ((flatIter result.flat result.keySize).Pairwise fun first second => first.1 < second.1) ∧
        (∀ entry ∈ flatIter result.flat result.keySize, threshold ≤ entry.2.offset →
          entry ∈ flatIter table.flat table.keySize) ∧
        (result.keyBytes, result.dirtyCount) = result.recountStats := by
  obtain ⟨possible, promotes⟩ := promoteToFlat_spec wellFormed threshold
  refine ⟨possible, fun result promoted => ?_⟩
  obtain ⟨wellFormed', same, entries, counted⟩ := promotes result promoted
  have live : ∀ key, (result.toTable wellFormed'.ascending).get key =
      (table.toTable wellFormed.ascending).get key := fun key => by
    rw [same, IndexTable.get_promoteToFlat]
  have asOf : ∀ frontier, threshold ≤ frontier → ∀ key,
      (result.toTable wellFormed'.ascending).getAt key frontier =
        (table.toTable wellFormed.ascending).getAt key frontier := fun frontier atLeast key => by
    rw [same, IndexTable.getAt_promoteToFlat atLeast]
  refine ⟨fun key => ?_, fun frontier atLeast key => ?_, fun direction prev => ?_,
    fun frontier atLeast direction prev => ?_, fun writer => ?_, wellFormed', wellFormed'.ascending,
    fun entry member above => ?_, counted⟩
  · rw [← get_toTable result wellFormed'.ascending, live, get_toTable]
  · rw [← getAt_toTable result wellFormed'.ascending, asOf frontier atLeast, getAt_toTable]
  -- a step is determined by what is read behind the cursor
  · rw [← nextEntryDirectional_toTable result wellFormed'.ascending,
      ← nextEntryDirectional_toTable table wellFormed.ascending]
    exact NextIn.unique (IndexTable.nextIn_nextEntryDirectional _ direction prev)
      ((IndexTable.nextIn_nextEntryDirectional _ direction prev).congr fun key _ =>
        (live key).symm)
  · rw [← nextEntryDirectionalAt_toTable result wellFormed'.ascending,
      ← nextEntryDirectionalAt_toTable table wellFormed.ascending]
    exact NextIn.unique (IndexTable.nextIn_nextEntryDirectionalAt _ direction prev frontier)
      ((IndexTable.nextIn_nextEntryDirectionalAt _ direction prev frontier).congr fun key _ =>
        (asOf frontier atLeast key).symm)
  · rw [serializeIndexEntries_eq result wellFormed'.ascending,
      serializeIndexEntries_eq table wellFormed.ascending]
    have blobs : (result.toTable wellFormed'.ascending).serialize =
        (table.toTable wellFormed.ascending).serialize :=
      SortedMap.ext_lookup fun key => by
        rw [IndexTable.lookup_serialize, IndexTable.lookup_serialize, live]
    rw [blobs]
  · rw [entries] at member
    rcases mem_mergeWalk member with old | ⟨positions, -, -, below⟩
    · exact old
    · exact absurd above (Nat.not_le.mpr below)

/-- A table with keys of one byte: an entry read from a blob, a newer write of its key, and a
remove above the frontier. -/
def rewritten : PackedTable where
  data := (SortedMap.empty.insert [5] (AscList.singleton ⟨10, 9, .modified⟩)).insert [6]
    (AscList.singleton ⟨30, 9, .removed⟩)
  keyBytes := 2
  dirtyCount := 2
  flat := [5] ++ positionBytes ⟨7, 9, .clean⟩
  keySize := some 1

theorem rewritten_built :
    buildFlatBytes (flatIter rewritten.flat rewritten.keySize) rewritten.keySize =
      some rewritten.flat := by
  decide +kernel

theorem rewritten_flatKeys :
    ∀ entry ∈ flatIter rewritten.flat rewritten.keySize, KeyOf (some 1) entry.1 := by
  decide +kernel

theorem rewritten_data : ∀ binding ∈ rewritten.data.entries,
    KeyOf (some 1) binding.1 ∧ ∀ position ∈ binding.2.toList, PositionFits position := by
  decide +kernel

theorem wellFormed_rewritten : rewritten.WellFormed (some 1) where
  layout := Or.inr rfl
  built := rewritten_built
  ascending := List.pairwise_singleton _ _
  flatKeys := rewritten_flatKeys
  dataKeys _ _ found := (rewritten_data _ (SortedMap.mem_entries_of_lookup found)).1
  dataFits _ _ found := (rewritten_data _ (SortedMap.mem_entries_of_lookup found)).2

theorem promoteToFlat_keeps_views_rewritten :
    ∃ result, rewritten.promoteToFlatUnconditionally 20 = some result ∧
      (∀ key, result.get key = rewritten.get key) ∧
      (result.keyBytes, result.dirtyCount) = result.recountStats := by
  obtain ⟨possible, keeps⟩ := promoteToFlat_keeps_views wellFormed_rewritten 20
  obtain ⟨result, promoted⟩ := Option.isSome_iff_exists.mp (possible.mpr trivial)
  obtain ⟨live, -, -, -, -, -, -, -, counted⟩ := keeps result promoted
  exact ⟨result, promoted, live, counted⟩

end PackedTable

end Tidehunter.Index
