import Tidehunter.Flusher.Command
import Tidehunter.Index.TableOps

/-!
# Shards written by a flush

A promoted table is cut into parts and each part becomes a shard under its smallest
and largest key. The shards written for a table hold exactly its readable bindings,
and a rewrite of some shards keeps every key in the shard that owns it.
-/

namespace Tidehunter.Flusher

open Library Wal Index

variable {K : Type} [LinearOrder K]

/-- Bindings in ascending key order. -/
abbrev Ascending (bindings : List (K × WalPosition)) : Prop :=
  bindings.Pairwise fun first second => first.1 < second.1

theorem head_le_of_mem {bindings : List (K × WalPosition)} (ascending : Ascending bindings)
    {first binding : K × WalPosition} (isFirst : bindings.head? = some first)
    (member : binding ∈ bindings) : first.1 ≤ binding.1 := by
  cases bindings with
  | nil => simp at member
  | cons head rest =>
      obtain rfl : head = first := by simpa using isFirst
      rcases List.mem_cons.mp member with rfl | later
      · exact le_refl _
      · exact le_of_lt ((List.pairwise_cons.mp ascending).1 binding later)

theorem le_last_of_mem {bindings : List (K × WalPosition)} (ascending : Ascending bindings)
    {last binding : K × WalPosition} (isLast : bindings.getLast? = some last)
    (member : binding ∈ bindings) : binding.1 ≤ last.1 := by
  obtain ⟨front, rfl⟩ := List.getLast?_eq_some_iff.mp isLast
  rcases List.mem_append.mp member with earlier | same
  · exact le_of_lt ((List.pairwise_append.mp ascending).2.2 binding earlier last (by simp))
  · rw [List.mem_singleton.mp same]

/-- Some shard holds a position for a key. -/
def Holds (pieces : List (K × IndexShard K)) (key : K) (position : WalPosition) : Prop :=
  ∃ piece ∈ pieces, piece.2.blob.content.lookup key = some position

/-- Shards hold exactly the readable bindings, between bounds taken from their keys. -/
structure Written (bindings : List (K × WalPosition)) (pieces : List (K × IndexShard K)) : Prop where
  ok : ShardsOk pieces
  holds : ∀ key position, position.isValid →
    (Holds pieces key position ↔ (key, position) ∈ bindings)
  minKey : ∀ piece ∈ pieces, piece.1 ∈ bindings.map Prod.fst
  maxKey : ∀ piece ∈ pieces, piece.2.maxKey ∈ bindings.map Prod.fst

theorem shardsOk_append {first second : List (K × IndexShard K)} (firstOk : ShardsOk first)
    (secondOk : ShardsOk second)
    (apart : ∀ left ∈ first, ∀ right ∈ second, left.1 < right.1 ∧ left.2.maxKey < right.1) :
    ShardsOk (first ++ second) := by
  refine ⟨?_, ?_, ?_⟩
  · exact List.pairwise_append.mpr
      ⟨firstOk.1, secondOk.1, fun left inLeft right inRight => (apart left inLeft right inRight).1⟩
  · intro piece member
    rcases List.mem_append.mp member with inLeft | inRight
    · exact firstOk.2.1 piece inLeft
    · exact secondOk.2.1 piece inRight
  · exact List.pairwise_append.mpr
      ⟨firstOk.2.2, secondOk.2.2,
        fun left inLeft right inRight => (apart left inLeft right inRight).2⟩

theorem holds_append {first second : List (K × IndexShard K)} {key : K} {position : WalPosition} :
    Holds (first ++ second) key position ↔ Holds first key position ∨ Holds second key position := by
  constructor
  · rintro ⟨piece, member, found⟩
    rcases List.mem_append.mp member with inLeft | inRight
    · exact Or.inl ⟨piece, inLeft, found⟩
    · exact Or.inr ⟨piece, inRight, found⟩
  · rintro (⟨piece, member, found⟩ | ⟨piece, member, found⟩)
    · exact ⟨piece, List.mem_append_left _ member, found⟩
    · exact ⟨piece, List.mem_append_right _ member, found⟩

namespace Written

theorem nil : Written ([] : List (K × WalPosition)) [] where
  ok := ⟨List.Pairwise.nil, by simp, List.Pairwise.nil⟩
  holds := by simp [Holds]
  minKey := by simp
  maxKey := by simp

theorem append {firstBindings secondBindings : List (K × WalPosition)}
    {first second : List (K × IndexShard K)} (writtenFirst : Written firstBindings first)
    (writtenSecond : Written secondBindings second)
    (apart : ∀ left ∈ firstBindings, ∀ right ∈ secondBindings, left.1 < right.1) :
    Written (firstBindings ++ secondBindings) (first ++ second) where
  ok := by
    refine shardsOk_append writtenFirst.ok writtenSecond.ok ?_
    intro left inLeft right inRight
    obtain ⟨low, lowIn, sameLow⟩ := List.mem_map.mp (writtenFirst.minKey left inLeft)
    obtain ⟨high, highIn, sameHigh⟩ := List.mem_map.mp (writtenFirst.maxKey left inLeft)
    obtain ⟨next, nextIn, sameNext⟩ := List.mem_map.mp (writtenSecond.minKey right inRight)
    rw [← sameLow, ← sameHigh, ← sameNext]
    exact ⟨apart low lowIn next nextIn, apart high highIn next nextIn⟩
  holds := by
    intro key position valid
    rw [holds_append, writtenFirst.holds key position valid, writtenSecond.holds key position valid,
      List.mem_append]
  minKey := by
    intro piece member
    rw [List.map_append, List.mem_append]
    rcases List.mem_append.mp member with inLeft | inRight
    · exact Or.inl (writtenFirst.minKey piece inLeft)
    · exact Or.inr (writtenSecond.minKey piece inRight)
  maxKey := by
    intro piece member
    rw [List.map_append, List.mem_append]
    rcases List.mem_append.mp member with inLeft | inRight
    · exact Or.inl (writtenFirst.maxKey piece inLeft)
    · exact Or.inr (writtenSecond.maxKey piece inRight)

/-- One blob between the first and the last key of its readable bindings. -/
theorem single {bindings : List (K × WalPosition)} (ascending : Ascending bindings) {blob : Blob K}
    {first last : K × WalPosition} (isFirst : bindings.head? = some first)
    (isLast : bindings.getLast? = some last)
    (content : ∀ key position, position.isValid →
      (blob.content.lookup key = some position ↔ (key, position) ∈ bindings)) :
    Written bindings [(first.1, ⟨blob, last.1⟩)] where
  ok := by
    refine ⟨List.pairwise_singleton _ _, ?_, List.pairwise_singleton _ _⟩
    rintro piece member ⟨key, position⟩ inside valid
    obtain rfl := List.mem_singleton.mp member
    have bound := (content key position valid).mp (SortedMap.lookup_of_mem_entries inside)
    exact ⟨head_le_of_mem ascending isFirst bound, le_last_of_mem ascending isLast bound⟩
  holds := by
    intro key position valid
    simp only [Holds, List.mem_singleton, exists_eq_left]
    exact content key position valid
  minKey := by
    intro piece member
    obtain rfl := List.mem_singleton.mp member
    exact List.mem_map.mpr ⟨first, List.mem_of_head? isFirst, rfl⟩
  maxKey := by
    intro piece member
    obtain rfl := List.mem_singleton.mp member
    exact List.mem_map.mpr ⟨last, List.mem_of_getLast? isLast, rfl⟩
end Written

/-! ## Cutting a table into parts -/

@[simp]
theorem flatten_splitRecursive (config : KsConfig K) (sizeLimit : Nat)
    (entries : List (K × WalPosition)) :
    (splitRecursive config sizeLimit entries).flatten = entries := by
  induction entries using splitRecursive.induct config sizeLimit with
  | case1 entries short noEntries =>
      rw [splitRecursive, dif_pos short, if_pos noEntries]
      exact (List.isEmpty_iff.mp noEntries).symm
  | case2 entries short someEntries =>
      rw [splitRecursive, dif_pos short, if_neg someEntries]
      simp
  | case3 entries long fits =>
      rw [splitRecursive, dif_neg long, if_pos fits]
      simp
  | case4 entries long tooLarge ihLeft ihRight =>
      rw [splitRecursive, dif_neg long, if_neg tooLarge, List.flatten_append, ihLeft, ihRight,
        List.take_append_drop]

theorem lookup_ascending {entries : List (K × WalPosition)} (ascending : Ascending entries)
    (key : K) (position : WalPosition) :
    entries.lookup key = some position ↔ (key, position) ∈ entries :=
  @SortedMap.lookup_eq_some_iff _ _ _ ⟨entries, ascending⟩ key position

theorem get_buildShardTable {entries : List (K × WalPosition)} (ascending : Ascending entries)
    (key : K) : (buildShardTable entries).get key = entries.lookup key := by
  have data : (buildShardTable entries).data.lookup key =
      (entries.lookup key).map fun position =>
        AscList.singleton (IndexWalPosition.newModified position) := by
    let table : SortedMap K DataPositions := SortedMap.filterMap ⟨entries, ascending⟩
      fun _ position => some (AscList.singleton (IndexWalPosition.newModified position))
    have same : table.entries =
        entries.map fun binding =>
          (binding.1, AscList.singleton (IndexWalPosition.newModified binding.2)) := by
      simp [table, SortedMap.filterMap]
    have found := SortedMap.lookup_insertAll SortedMap.empty table key
    rw [same] at found
    rw [buildShardTable, found, SortedMap.lookup_empty, Option.or_none, SortedMap.lookup_filterMap]
    simp only [SortedMap.lookup]
    cases entries.lookup key <;> rfl
  have flat : (buildShardTable entries).flat.lookup key = none := rfl
  simp only [IndexTable.get, IndexTable.entry, IndexTable.dataGetLatest, data, flat, Option.or_none]
  cases entries.lookup key <;> rfl

theorem written_flushShardTables (config : KsConfig K) (writer : IndexWriter)
    (parts : List (List (K × WalPosition))) (ascending : Ascending parts.flatten) :
    Written parts.flatten (flushShardTables config writer parts).2 := by
  induction parts generalizing writer with
  | nil => exact Written.nil
  | cons part rest ih =>
      rw [List.flatten_cons] at ascending ⊢
      obtain ⟨partAscending, restAscending, apart⟩ := List.pairwise_append.mp ascending
      cases isFirst : part.head? with
      | none =>
          obtain rfl := List.head?_eq_none_iff.mp isFirst
          simpa [flushShardTables] using ih writer restAscending
      | some first =>
          cases isLast : part.getLast? with
          | none =>
              obtain rfl := List.getLast?_eq_none_iff.mp isLast
              cases isFirst
          | some last =>
              rw [flushShardTables]
              simp only [isFirst, isLast]
              refine Written.append (Written.single partAscending isFirst isLast ?_)
                (ih _ restAscending) apart
              intro key position _
              rw [IndexWriter.flush_content, IndexTable.lookup_serialize,
                get_buildShardTable partAscending, lookup_ascending partAscending]

/-! ## Writing one table -/

/-- The readable bindings of a table are ascending. -/
theorem ascending_iter (table : IndexTable K) : Ascending table.iter.entries := table.iter.sorted

theorem mem_iter_iff {table : IndexTable K} {key : K} {position : WalPosition} :
    (key, position) ∈ table.iter.entries ↔ readable (table.get key) = some position := by
  rw [← SortedMap.lookup_eq_some_iff, IndexTable.lookup_iter]

theorem serialize_lookup_iff {table : IndexTable K} {key : K} {position : WalPosition}
    (valid : position.isValid) :
    table.serialize.lookup key = some position ↔ (key, position) ∈ table.iter.entries := by
  rw [mem_iter_iff, IndexTable.lookup_serialize, readable_eq_some_iff]
  exact ⟨fun found => ⟨found, valid⟩, And.left⟩

theorem written_writeShard (config : KsConfig K) (writer : IndexWriter) (table : IndexTable K) :
    Written table.iter.entries (writeShard config writer table).2 := by
  unfold writeShard
  cases isFirst : table.iter.entries.head? with
  | none =>
      rw [List.head?_eq_none_iff.mp isFirst]
      exact Written.nil
  | some first =>
      cases isLast : table.iter.entries.getLast? with
      | none =>
          rw [List.getLast?_eq_none_iff.mp isLast] at isFirst
          cases isFirst
      | some last =>
          simp only [isFirst, isLast]
          split
          · have whole := flatten_splitRecursive config (config.autoShardThreshold.getD 0)
              table.iter.entries
            have ascending : Ascending (splitRecursive config (config.autoShardThreshold.getD 0)
                table.iter.entries).flatten := by
              rw [whole]
              exact ascending_iter table
            simpa only [whole] using written_flushShardTables config writer _ ascending
          · refine Written.single (ascending_iter table) isFirst isLast fun key position valid => ?_
            rw [IndexWriter.flush_content, serialize_lookup_iff valid]

/-! ## The shard that owns a key -/

section Owner

variable {pieces : List (K × IndexShard K)}
variable (sorted : pieces.Pairwise fun first second => first.1 < second.1)

include sorted

/-- The owner starts at or below the key, or no shard does and the owner is the first. -/
theorem ownerOf_eq_some_iff {key owner : K} :
    ownerOf pieces key = some owner ↔
      (∃ piece ∈ pieces, piece.1 = owner) ∧
        (∀ piece ∈ pieces, piece.1 ≤ key → owner ≤ key ∧ piece.1 ≤ owner) ∧
        (key < owner → ∀ piece ∈ pieces, owner ≤ piece.1) := by
  unfold ownerOf
  cases isLast : (pieces.filter fun piece => piece.1 ≤ key).getLast? with
  | some last =>
      obtain ⟨front, split⟩ := List.getLast?_eq_some_iff.mp isLast
      have ascending : (front ++ [last]).Pairwise fun first second => first.1 < second.1 := by
        rw [← split]
        exact sorted.sublist List.filter_sublist
      have inside : last ∈ pieces ∧ last.1 ≤ key := by
        simpa using List.mem_filter.mp (List.mem_of_getLast? isLast)
      have greatest : ∀ piece ∈ pieces, piece.1 ≤ key → piece.1 ≤ last.1 := by
        intro piece member below
        have kept : piece ∈ front ++ [last] := by
          rw [← split]
          exact List.mem_filter.mpr ⟨member, by simpa using below⟩
        rcases List.mem_append.mp kept with earlier | same
        · exact le_of_lt ((List.pairwise_append.mp ascending).2.2 piece earlier last (by simp))
        · rw [List.mem_singleton.mp same]
      simp only [Option.some_or, Option.map_some, Option.some.injEq]
      constructor
      · rintro rfl
        exact ⟨⟨last, inside.1, rfl⟩,
          fun piece member below => ⟨inside.2, greatest piece member below⟩,
          fun above => absurd inside.2 (not_le.mpr above)⟩
      · rintro ⟨⟨piece, member, rfl⟩, covers, _⟩
        obtain ⟨below, above⟩ := covers last inside.1 inside.2
        exact le_antisymm above (greatest piece member below)
  | none =>
      have none : ∀ piece ∈ pieces, key < piece.1 := by
        have nothing := List.getLast?_eq_none_iff.mp isLast
        rw [List.filter_eq_nil_iff] at nothing
        intro piece member
        simpa using nothing piece member
      cases pieces with
      | nil => simp
      | cons head rest =>
          have least := (List.pairwise_cons.mp sorted).1
          simp only [Option.none_or, List.head?_cons, Option.map_some, Option.some.injEq]
          constructor
          · rintro rfl
            refine ⟨⟨head, List.mem_cons_self, rfl⟩,
              fun piece member below => absurd below (not_le.mpr (none piece member)), ?_⟩
            intro _ piece member
            rcases List.mem_cons.mp member with rfl | later
            · exact le_refl _
            · exact le_of_lt (least piece later)
          · rintro ⟨⟨piece, member, rfl⟩, _, first⟩
            have lowest := first (none piece member) head List.mem_cons_self
            rcases List.mem_cons.mp member with rfl | later
            · rfl
            · exact absurd lowest (not_le.mpr (least piece later))

theorem ownerOf_start {piece : K × IndexShard K} (member : piece ∈ pieces) :
    ownerOf pieces piece.1 = some piece.1 := by
  rw [ownerOf_eq_some_iff sorted]
  exact ⟨⟨piece, member, rfl⟩, fun other _ below => ⟨le_refl _, below⟩,
    fun impossible => absurd impossible (lt_irrefl _)⟩

omit sorted in
theorem ownerOf_inside {piece : K × IndexShard K} (member : piece ∈ pieces)
    (disjoint : pieces.Pairwise fun first second => first.2.maxKey < second.1) {key : K}
    (low : piece.1 ≤ key) (high : key ≤ piece.2.maxKey) :
    ownerOf pieces key = some piece.1 := by
  rw [ownerOf, Shards.getLast?_filter_eq member low high disjoint]
  rfl

theorem exists_ownerOf (nonempty : pieces ≠ []) (key : K) :
    ∃ piece ∈ pieces, ownerOf pieces key = some piece.1 := by
  have some : (ownerOf pieces key).isSome := by
    cases pieces with
    | nil => exact absurd rfl nonempty
    | cons head rest =>
        unfold ownerOf
        cases ((head :: rest).filter fun piece => piece.1 ≤ key).getLast? <;> simp
  obtain ⟨owner, isOwner⟩ := Option.isSome_iff_exists.mp some
  obtain ⟨⟨piece, member, rfl⟩, _⟩ := (ownerOf_eq_some_iff sorted).mp isOwner
  exact ⟨piece, member, isOwner⟩

/-- A shard after the first owns only keys from its start on. -/
theorem start_le_of_ownerOf {piece : K × IndexShard K} (member : piece ∈ pieces) {key owner : K}
    (isOwner : ownerOf pieces key = some owner) (after : piece.1 < owner) : owner ≤ key := by
  obtain ⟨_, _, first⟩ := (ownerOf_eq_some_iff sorted).mp isOwner
  by_contra below
  exact absurd (first (not_le.mp below) piece member) (not_le.mpr after)

/-- Keys are ordered as their owners are. -/
theorem lt_of_ownerOf_lt {first second firstOwner secondOwner : K}
    (ownsFirst : ownerOf pieces first = some firstOwner)
    (ownsSecond : ownerOf pieces second = some secondOwner) (less : firstOwner < secondOwner) :
    first < second := by
  obtain ⟨⟨firstPiece, firstMember, rfl⟩, covers, _⟩ := (ownerOf_eq_some_iff sorted).mp ownsFirst
  obtain ⟨⟨secondPiece, secondMember, rfl⟩, _⟩ := (ownerOf_eq_some_iff sorted).mp ownsSecond
  have above := start_le_of_ownerOf sorted firstMember ownsSecond less
  by_contra notLess
  have reached := covers secondPiece secondMember (le_trans above (not_lt.mp notLess))
  exact absurd reached.2 (not_le.mpr less)

end Owner

/-! ## Rewriting shards -/

/-- What a shard reads for a key after a rewrite: its processed table, or its old blob. -/
def rewrittenView (config : KsConfig K) (minWalPosition : Nat)
    (rewrite : K → IndexTable K → Option (IndexTable K)) (piece : K × IndexShard K) (key : K) :
    Option WalPosition :=
  match rewrite piece.1 piece.2.blob.load with
  | some table => readable ((processL1Blob config minWalPosition table).get key)
  | none => readable (piece.2.blob.content.lookup key)

section Rewrite

variable {config : KsConfig K} {minWalPosition : Nat}
variable {rewrite : K → IndexTable K → Option (IndexTable K)} (shards : Shards K)
variable (owned : ∀ piece ∈ shards.pieces, ∀ table,
  rewrite piece.1 piece.2.blob.load = some table → ∀ key position,
    readable ((processL1Blob config minWalPosition table).get key) = some position →
    ownerOf shards.pieces key = some piece.1)

include owned

/-- A rewrite of the last shards keeps them disjoint and each key with its owner. -/
theorem rewriteShards_spec (writer : IndexWriter) {rest : List (K × IndexShard K)}
    (suffix : rest <:+ shards.pieces) :
    ShardsOk (rewriteShards config minWalPosition rewrite writer rest).2 ∧
      (∀ piece ∈ (rewriteShards config minWalPosition rewrite writer rest).2,
        ∃ source ∈ rest, ownerOf shards.pieces piece.1 = some source.1) ∧
      ∀ key position, position.isValid →
        (Holds (rewriteShards config minWalPosition rewrite writer rest).2 key position ↔
          ∃ piece ∈ rest, rewrittenView config minWalPosition rewrite piece key = some position) := by
  induction rest generalizing writer with
  | nil => exact ⟨Written.nil.ok, by simp [rewriteShards], by simp [rewriteShards, Holds]⟩
  | cons first later ih =>
      have member : first ∈ shards.pieces := suffix.subset List.mem_cons_self
      have laterSuffix : later <:+ shards.pieces := (List.suffix_cons first later).trans suffix
      have suffixSorted := shards.sorted.sublist suffix.sublist
      have startsAfter := (List.pairwise_cons.mp suffixSorted).1
      have suffixDisjoint := shards.disjoint.sublist suffix.sublist
      cases rewritten : rewrite first.1 first.2.blob.load with
      | none =>
          obtain ⟨restOk, restOwners, restHolds⟩ := ih writer laterSuffix
          have result : (rewriteShards config minWalPosition rewrite writer (first :: later)).2 =
              [first] ++ (rewriteShards config minWalPosition rewrite writer later).2 := by
            rw [rewriteShards]
            simp [rewritten]
          rw [result]
          refine ⟨shardsOk_append ⟨List.pairwise_singleton _ _, ?_, List.pairwise_singleton _ _⟩
            restOk ?_, ?_, ?_⟩
          · intro piece inside
            obtain rfl := List.mem_singleton.mp inside
            exact shards.ok.2.1 piece member
          · intro left inLeft right inRight
            obtain rfl := List.mem_singleton.mp inLeft
            obtain ⟨source, inLater, isOwner⟩ := restOwners right inRight
            have above := start_le_of_ownerOf shards.sorted member isOwner (startsAfter source inLater)
            exact ⟨lt_of_lt_of_le (startsAfter source inLater) above,
              lt_of_lt_of_le ((List.pairwise_cons.mp suffixDisjoint).1 source inLater) above⟩
          · intro piece inside
            rcases List.mem_append.mp inside with inFirst | inLater
            · obtain rfl := List.mem_singleton.mp inFirst
              exact ⟨piece, List.mem_cons_self, ownerOf_start shards.sorted member⟩
            · obtain ⟨source, found, isOwner⟩ := restOwners piece inLater
              exact ⟨source, List.mem_cons_of_mem _ found, isOwner⟩
          · intro key position valid
            rw [holds_append, restHolds key position valid]
            simp only [List.mem_cons, exists_eq_or_imp]
            refine or_congr ?_ Iff.rfl
            simp [Holds, rewrittenView, rewritten, readable_eq_some_iff, valid]
      | some table =>
          have written := written_writeShard config writer (processL1Blob config minWalPosition table)
          obtain ⟨restOk, restOwners, restHolds⟩ :=
            ih (writeShard config writer (processL1Blob config minWalPosition table)).1 laterSuffix
          have result : (rewriteShards config minWalPosition rewrite writer (first :: later)).2 =
              (writeShard config writer (processL1Blob config minWalPosition table)).2 ++
                (rewriteShards config minWalPosition rewrite
                  (writeShard config writer (processL1Blob config minWalPosition table)).1
                  later).2 := by
            rw [rewriteShards]
            simp [rewritten]
          have ownsBound : ∀ key ∈ (processL1Blob config minWalPosition table).iter.entries.map
              Prod.fst, ownerOf shards.pieces key = some first.1 := by
            intro key isKey
            obtain ⟨⟨_, position⟩, bound, rfl⟩ := List.mem_map.mp isKey
            exact owned first member table rewritten _ position (mem_iter_iff.mp bound)
          rw [result]
          refine ⟨shardsOk_append written.ok restOk ?_, ?_, ?_⟩
          · intro left inLeft right inRight
            obtain ⟨source, inLater, isOwner⟩ := restOwners right inRight
            exact ⟨lt_of_ownerOf_lt shards.sorted (ownsBound _ (written.minKey left inLeft)) isOwner
                (startsAfter source inLater),
              lt_of_ownerOf_lt shards.sorted (ownsBound _ (written.maxKey left inLeft)) isOwner
                (startsAfter source inLater)⟩
          · intro piece inside
            rcases List.mem_append.mp inside with inFirst | inLater
            · exact ⟨first, List.mem_cons_self, ownsBound _ (written.minKey piece inFirst)⟩
            · obtain ⟨source, found, isOwner⟩ := restOwners piece inLater
              exact ⟨source, List.mem_cons_of_mem _ found, isOwner⟩
          · intro key position valid
            rw [holds_append, restHolds key position valid, written.holds key position valid,
              mem_iter_iff]
            simp only [List.mem_cons, exists_eq_or_imp]
            refine or_congr ?_ Iff.rfl
            simp [rewrittenView, rewritten]

end Rewrite

end Tidehunter.Flusher
