import Tidehunter.Index.Levels
import Tidehunter.Library.Cursor

/-!
# Steps through an index table and through shards

The table and each blob give the entry behind a key in a direction, tombstones included. Of
shards only one is opened for a step: the one that holds the next key.
-/

namespace Tidehunter.Index

open Library Wal

variable {K : Type} [LinearOrder K]

/-! ## Tables -/

namespace IndexTable

def dataNext (table : IndexTable K) (direction : Direction) (prev : Option K) :
    Option (K × IndexWalPosition) :=
  (table.data.next direction prev).map fun found => (found.1, found.2.latest)

/-- The next key with a position below the frontier; the others are skipped. -/
def dataNextAt (table : IndexTable K) (direction : Direction) (prev : Option K)
    (lastProcessed : Nat) : Option (K × IndexWalPosition) :=
  (table.data.ordered direction).findSome? fun found =>
    if direction.Past prev found.1 then
      (found.2.latestWhere fun position => isProcessed lastProcessed position.offset).map
        fun position => (found.1, position)
    else none

def flatNext (table : IndexTable K) (direction : Direction) (prev : Option K) :
    Option (K × IndexWalPosition) :=
  table.flat.next direction prev

/-- A candidate as the merge sees it: a tombstone has the invalid position. -/
def candidate (found : K × IndexWalPosition) : K × WalPosition :=
  (found.1, found.2.intoWalPosition)

/-- The next entry; the overlay wins over the flat buffer. -/
def nextEntryDirectional (table : IndexTable K) (direction : Direction) (prev : Option K) :
    Option (K × WalPosition) :=
  earlier direction ((table.dataNext direction prev).map candidate)
    ((table.flatNext direction prev).map candidate)

/-- The next entry as of a frontier. -/
def nextEntryDirectionalAt (table : IndexTable K) (direction : Direction) (prev : Option K)
    (lastProcessed : Nat) : Option (K × WalPosition) :=
  earlier direction ((table.dataNextAt direction prev lastProcessed).map candidate)
    ((table.flatNext direction prev).map candidate)

end IndexTable

namespace IndexTable

variable (table : IndexTable K) (direction : Direction) (prev : Option K)

theorem nextIn_dataNext :
    NextIn direction (direction.Past prev) table.dataGetLatest
      (table.dataNext direction prev) :=
  (table.data.nextIn_next direction prev).map AscList.latest

theorem nextIn_dataNextAt (lastProcessed : Nat) :
    NextIn direction (direction.Past prev)
      (fun key => table.dataGetLatestProcessed key lastProcessed)
      (table.dataNextAt direction prev lastProcessed) :=
  table.data.nextIn_findSome direction prev _

/-- A step over the overlay and the flat buffer. -/
theorem nextIn_overlay {upper : K → Option IndexWalPosition} {found : Option (K × IndexWalPosition)}
    (next : NextIn direction (direction.Past prev) upper found) :
    NextIn direction (direction.Past prev)
      (fun key => ((upper key).or (table.flat.lookup key)).map IndexWalPosition.intoWalPosition)
      (earlier direction (found.map candidate) ((table.flatNext direction prev).map candidate)) := by
  have overlay := next.map IndexWalPosition.intoWalPosition
  have flat := (table.flat.nextIn_next direction prev).map IndexWalPosition.intoWalPosition
  exact (overlay.or flat).congr fun key _ => Option.map_or.symm

theorem nextIn_nextEntryDirectional :
    NextIn direction (direction.Past prev) table.get
      (table.nextEntryDirectional direction prev) :=
  table.nextIn_overlay direction prev (table.nextIn_dataNext direction prev)

theorem nextIn_nextEntryDirectionalAt (lastProcessed : Nat) :
    NextIn direction (direction.Past prev) (fun key => table.getAt key lastProcessed)
      (table.nextEntryDirectionalAt direction prev lastProcessed) :=
  table.nextIn_overlay direction prev (table.nextIn_dataNextAt direction prev lastProcessed)

end IndexTable

/-! ## Shards -/

namespace Shards

/-- The shard that holds the first key behind the cursor. -/
def shardForIterForward (shards : Shards K) : Option K → Option (K × IndexShard K)
  | none => shards.pieces.head?
  | some prev =>
      match (shards.pieces.filter fun piece => piece.1 ≤ prev).getLast? with
      | some before =>
          if prev < before.2.maxKey then some before
          else shards.pieces.find? fun piece => prev < piece.1
      | none => shards.pieces.find? fun piece => prev < piece.1

/-- The shard that holds the last key in front of the cursor. -/
def shardForIterReverse (shards : Shards K) : Option K → Option (K × IndexShard K)
  | none => shards.pieces.getLast?
  | some prev => (shards.pieces.filter fun piece => piece.1 < prev).getLast?

def shardForIter (shards : Shards K) : Direction → Option K → Option (K × IndexShard K)
  | .forward => shards.shardForIterForward
  | .backward => shards.shardForIterReverse

theorem mem_of_shardForIter {shards : Shards K} {direction : Direction} {prev : Option K}
    {piece : K × IndexShard K} (picked : shards.shardForIter direction prev = some piece) :
    piece ∈ shards.pieces := by
  have filtered : ∀ keep : K × IndexShard K → Bool,
      (shards.pieces.filter keep).getLast? = some piece → piece ∈ shards.pieces :=
    fun _ last => (List.mem_filter.mp (List.mem_of_getLast? last)).1
  cases direction with
  | backward =>
      cases prev with
      | none => exact List.mem_of_getLast? picked
      | some prev => exact filtered _ picked
  | forward =>
      cases prev with
      | none => exact List.mem_of_head? picked
      | some prev =>
          simp only [shardForIter, shardForIterForward] at picked
          split at picked
          · rename_i before last
            split at picked
            · obtain rfl : before = piece := Option.some.inj picked
              exact filtered _ last
            · exact List.mem_of_find?_eq_some picked
          · exact List.mem_of_find?_eq_some picked

/-- The bounds of every shard are its first and its last key. -/
structure Exact (shards : Shards K) : Prop where
  first : ∀ piece ∈ shards.pieces, ∃ position, piece.2.blob.content.lookup piece.1 = some position
  last : ∀ piece ∈ shards.pieces,
    ∃ position, piece.2.blob.content.lookup piece.2.maxKey = some position
  inside : ∀ piece ∈ shards.pieces, ∀ key position,
    piece.2.blob.content.lookup key = some position → piece.1 ≤ key ∧ key ≤ piece.2.maxKey

variable {shards : Shards K}

/-- Of two shards one lies in front of the other. -/
theorem apart {first second : K × IndexShard K} (inFirst : first ∈ shards.pieces)
    (inSecond : second ∈ shards.pieces) :
    first = second ∨ first.2.maxKey < second.1 ∨ second.2.maxKey < first.1 := by
  obtain ⟨before, after, split⟩ := List.append_of_mem inFirst
  have disjoint := shards.disjoint
  rw [split] at inSecond disjoint
  obtain ⟨-, tail, across⟩ := List.pairwise_append.mp disjoint
  rcases List.mem_append.mp inSecond with front | back
  · exact Or.inr (Or.inr (across second front first List.mem_cons_self))
  · rcases List.mem_cons.mp back with same | behind
    · exact Or.inl same.symm
    · exact Or.inr (Or.inl ((List.pairwise_cons.mp tail).1 second behind))

theorem Exact.lookup_iff (exactly : shards.Exact) {key : K} {position : WalPosition} :
    shards.lookup key = some position ↔
      ∃ piece ∈ shards.pieces, piece.2.blob.content.lookup key = some position := by
  unfold lookup
  rw [Option.bind_eq_some_iff]
  constructor
  · rintro ⟨piece, covering, found⟩
    exact ⟨piece, (shardEntryFor_eq_some_iff.mp covering).1, found⟩
  · rintro ⟨piece, member, found⟩
    obtain ⟨below, above⟩ := exactly.inside piece member key position found
    exact ⟨piece, shardEntryFor_eq_some_iff.mpr ⟨member, below, above⟩, found⟩

/-- A shard is the one to open: it has a key ahead, and every other shard has none or lies
behind it. -/
structure Opens (shards : Shards K) (direction : Direction) (prev : Option K)
    (piece : K × IndexShard K) : Prop where
  member : piece ∈ shards.pieces
  some_ahead : ∃ key position, direction.Past prev key ∧
    piece.2.blob.content.lookup key = some position
  others : ∀ other ∈ shards.pieces, ∀ key position,
    other.2.blob.content.lookup key = some position → direction.Past prev key →
      ∀ mine held, piece.2.blob.content.lookup mine = some held →
        direction.Before key mine → other = piece

/-- The last of sorted shards with a property. -/
theorem getLast?_filter_spec {pieces : List (K × IndexShard K)}
    (sorted : pieces.Pairwise fun first second => first.1 < second.1)
    {keep : K × IndexShard K → Bool} {piece : K × IndexShard K}
    (last : (pieces.filter keep).getLast? = some piece) :
    piece ∈ pieces ∧ keep piece = true ∧
      ∀ other ∈ pieces, keep other = true → other.1 ≤ piece.1 := by
  obtain ⟨member, kept⟩ := List.mem_filter.mp (List.mem_of_getLast? last)
  refine ⟨member, kept, fun other inside keeps => ?_⟩
  obtain ⟨front, split⟩ := List.getLast?_eq_some_iff.mp last
  have filtered : (pieces.filter keep).Pairwise fun first second => first.1 < second.1 :=
    sorted.filter _
  have present : other ∈ pieces.filter keep := List.mem_filter.mpr ⟨inside, keeps⟩
  rw [split] at filtered present
  rcases List.mem_append.mp present with earlier | same
  · exact ((List.pairwise_append.mp filtered).2.2 other earlier piece List.mem_cons_self).le
  · rw [List.mem_singleton.mp same]

/-- The first of sorted shards with a property. -/
theorem find?_spec {pieces : List (K × IndexShard K)}
    (sorted : pieces.Pairwise fun first second => first.1 < second.1)
    {keep : K × IndexShard K → Bool} {piece : K × IndexShard K}
    (first : pieces.find? keep = some piece) :
    piece ∈ pieces ∧ keep piece = true ∧
      ∀ other ∈ pieces, keep other = true → piece.1 ≤ other.1 := by
  obtain ⟨kept, before, after, split, rejected⟩ := List.find?_eq_some_iff_append.mp first
  refine ⟨List.mem_of_find?_eq_some first, kept, fun other inside keeps => ?_⟩
  rw [split] at inside sorted
  rcases List.mem_append.mp inside with front | back
  · have refused := rejected other front
    simp [keeps] at refused
  · rcases List.mem_cons.mp back with rfl | behind
    · exact le_refl _
    · exact ((List.pairwise_cons.mp (List.pairwise_append.mp sorted).2.1).1 other behind).le

theorem opens_of_start (exactly : shards.Exact) {prev : Option K} {piece : K × IndexShard K}
    (member : piece ∈ shards.pieces) (past : Direction.forward.Past prev piece.1)
    (first : ∀ other ∈ shards.pieces, other.1 < piece.1 →
      ∀ key, key ≤ other.2.maxKey → ¬Direction.forward.Past prev key) :
    shards.Opens .forward prev piece where
  member := member
  some_ahead := by
    obtain ⟨position, found⟩ := exactly.first piece member
    exact ⟨piece.1, position, past, found⟩
  others := by
    intro other inside key position found ahead mine held mineFound before
    obtain ⟨low, high⟩ := exactly.inside other inside key position found
    obtain ⟨mineLow, mineHigh⟩ := exactly.inside piece member mine held mineFound
    rcases shards.apart inside member with same | front | behind
    · exact same
    · exact absurd ahead (first other inside (low.trans_lt (high.trans_lt front)) key high)
    · exact absurd ((before.trans_le mineHigh).trans (behind.trans_le low)) (lt_irrefl key)

/-- Behind shards that end at or below the cursor, the next start is the next key. -/
theorem opens_of_passed (exactly : shards.Exact) {prev : K} {piece : K × IndexShard K}
    (passed : ∀ other ∈ shards.pieces, other.1 ≤ prev → other.2.maxKey ≤ prev)
    (found : shards.pieces.find? (fun piece => prev < piece.1) = some piece) :
    shards.Opens .forward (some prev) piece := by
  obtain ⟨member, past, first⟩ := find?_spec shards.sorted found
  refine opens_of_start exactly member (of_decide_eq_true past) ?_
  intro other inside earlier key high ahead
  rcases le_or_gt other.1 prev with below | above
  · exact absurd ahead (high.trans (passed other inside below)).not_gt
  · exact absurd earlier (first other inside (decide_eq_true above)).not_gt

theorem Exact.le_maxKey (exactly : shards.Exact) {piece : K × IndexShard K}
    (member : piece ∈ shards.pieces) : piece.1 ≤ piece.2.maxKey := by
  obtain ⟨position, found⟩ := exactly.first piece member
  exact (exactly.inside piece member _ position found).2

/-- A shard that starts below another one ends in front of it. -/
theorem Exact.maxKey_lt (exactly : shards.Exact) {first second : K × IndexShard K}
    (inFirst : first ∈ shards.pieces) (inSecond : second ∈ shards.pieces)
    (less : first.1 < second.1) : first.2.maxKey < second.1 := by
  rcases shards.apart inFirst inSecond with rfl | front | behind
  · exact absurd less (lt_irrefl _)
  · exact front
  · exact absurd (less.trans_le (exactly.le_maxKey inSecond)) behind.asymm

/-- The shard picked for a step forward is the one to open. -/
theorem opens_forward (exactly : shards.Exact) {prev : Option K} {piece : K × IndexShard K}
    (picked : shards.shardForIterForward prev = some piece) :
    shards.Opens .forward prev piece := by
  cases prev with
  | none =>
      have member := List.mem_of_head? picked
      refine opens_of_start exactly member trivial fun other inside earlier => ?_
      obtain ⟨rest, split⟩ := List.head?_eq_some_iff.mp picked
      have sorted := shards.sorted
      rw [split] at sorted inside
      rcases List.mem_cons.mp inside with rfl | behind
      · exact absurd earlier (lt_irrefl _)
      · exact absurd earlier ((List.pairwise_cons.mp sorted).1 other behind).asymm
  | some prev =>
      simp only [shardForIterForward] at picked
      split at picked
      · rename_i before last
        obtain ⟨member, below, greatest⟩ := getLast?_filter_spec shards.sorted last
        have starts : before.1 ≤ prev := of_decide_eq_true below
        -- shards in front of the last one that starts at or below the cursor end below it
        have passed : ∀ other ∈ shards.pieces, other.1 ≤ prev →
            other = before ∨ other.2.maxKey < before.1 := by
          intro other inside otherStarts
          rcases (greatest other inside (decide_eq_true otherStarts)).lt_or_eq with less | same
          · exact Or.inr (exactly.maxKey_lt inside member less)
          · exact Or.inl (shards.eq_of_start inside member same)
        split at picked
        · rename_i ends
          obtain rfl : before = piece := Option.some.inj picked
          obtain ⟨position, found⟩ := exactly.last before member
          refine ⟨member, ⟨before.2.maxKey, position, ends, found⟩, ?_⟩
          intro other inside key position found ahead mine held mineFound earlier
          obtain ⟨low, high⟩ := exactly.inside other inside key position found
          have mineHigh := (exactly.inside before member mine held mineFound).2
          rcases shards.apart inside member with same | front | behind
          · exact same
          · exact absurd (high.trans_lt (front.trans_le starts)) (not_lt_of_gt ahead)
          · exact absurd ((earlier.trans_le mineHigh).trans (behind.trans_le low)) (lt_irrefl key)
        · rename_i ends
          refine opens_of_passed exactly (fun other inside otherStarts => ?_) picked
          rcases passed other inside otherStarts with rfl | front
          · exact not_lt.mp ends
          · exact (front.trans_le starts).le
      · rename_i nothing
        refine opens_of_passed exactly (fun other inside otherStarts => ?_) picked
        rw [List.getLast?_eq_none_iff, List.filter_eq_nil_iff] at nothing
        exact absurd (decide_eq_true otherStarts) (nothing other inside)

/-- The shard picked for a step backward is the one to open. -/
theorem opens_reverse (exactly : shards.Exact) {prev : Option K} {piece : K × IndexShard K}
    (picked : shards.shardForIterReverse prev = some piece) :
    shards.Opens .backward prev piece := by
  have last : (shards.pieces.filter fun piece => Direction.backward.Past prev piece.1).getLast? =
      some piece := by
    cases prev with
    | none =>
        have all : (shards.pieces.filter fun piece =>
            Direction.backward.Past none piece.1) = shards.pieces :=
          List.filter_eq_self.mpr fun _ _ => rfl
        rw [all]
        exact picked
    | some prev => exact picked
  obtain ⟨member, past, greatest⟩ := getLast?_filter_spec shards.sorted last
  obtain ⟨position, found⟩ := exactly.first piece member
  refine ⟨member, ⟨piece.1, position, of_decide_eq_true past, found⟩, ?_⟩
  intro other inside key held otherFound ahead mine mineHeld mineFound later
  obtain ⟨low, high⟩ := exactly.inside other inside key held otherFound
  have mineLow := (exactly.inside piece member mine mineHeld mineFound).1
  have otherPast : Direction.backward.Past prev other.1 := by
    cases prev with
    | none => trivial
    | some prev => exact low.trans_lt ahead
  rcases (greatest other inside (decide_eq_true otherPast)).lt_or_eq with less | same
  · have front := exactly.maxKey_lt inside member less
    exact absurd ((high.trans_lt front).trans_le mineLow) (not_lt_of_gt later)
  · exact shards.eq_of_start inside member same

/-- When no shard is picked, no key is ahead. -/
theorem nothing_ahead (exactly : shards.Exact) {direction : Direction} {prev : Option K}
    (picked : shards.shardForIter direction prev = none) {piece : K × IndexShard K}
    (member : piece ∈ shards.pieces) {key : K} {position : WalPosition}
    (found : piece.2.blob.content.lookup key = some position) : ¬direction.Past prev key := by
  obtain ⟨low, high⟩ := exactly.inside piece member key position found
  cases direction with
  | backward =>
      cases prev with
      | none =>
          rw [shardForIter, shardForIterReverse, List.getLast?_eq_none_iff] at picked
          exact absurd picked shards.nonempty
      | some prev =>
          rw [shardForIter, shardForIterReverse, List.getLast?_eq_none_iff,
            List.filter_eq_nil_iff] at picked
          intro ahead
          exact picked piece member (decide_eq_true (low.trans_lt ahead))
  | forward =>
      cases prev with
      | none =>
          rw [shardForIter, shardForIterForward, List.head?_eq_none_iff] at picked
          exact absurd picked shards.nonempty
      | some prev =>
          intro ahead
          simp only [shardForIter, shardForIterForward] at picked
          split at picked
          · rename_i before last
            obtain ⟨inside, below, greatest⟩ := getLast?_filter_spec shards.sorted last
            split at picked
            · cases picked
            · rename_i ends
              have starts : piece.1 ≤ prev := by
                rw [List.find?_eq_none] at picked
                exact not_lt.mp fun above => picked piece member (decide_eq_true above)
              rcases (greatest piece member (decide_eq_true starts)).lt_or_eq with less | same
              · have front := exactly.maxKey_lt member inside less
                have start : before.1 ≤ prev := of_decide_eq_true below
                exact absurd (high.trans_lt (front.trans_le start)) (not_lt_of_gt ahead)
              · rw [shards.eq_of_start member inside same] at high
                exact ends (lt_of_lt_of_le ahead high)
          · rename_i nothing
            rw [List.find?_eq_none] at picked
            rw [List.getLast?_eq_none_iff, List.filter_eq_nil_iff] at nothing
            rcases le_or_gt piece.1 prev with starts | above
            · exact nothing piece member (decide_eq_true starts)
            · exact picked piece member (decide_eq_true above)

/-- A step over all shards is a step in the shard that is picked. -/
theorem nextIn_shardForIter (exactly : shards.Exact) (direction : Direction) (prev : Option K) :
    NextIn direction (direction.Past prev) shards.lookup
      ((shards.shardForIter direction prev).bind fun piece =>
        piece.2.blob.content.next direction prev) := by
  cases picked : shards.shardForIter direction prev with
  | none =>
      intro key past
      refine Option.eq_none_iff_forall_ne_some.mpr fun position bound => ?_
      obtain ⟨piece, member, found⟩ := exactly.lookup_iff.mp bound
      exact nothing_ahead exactly picked member found past
  | some piece =>
      have opens : shards.Opens direction prev piece := by
        cases direction with
        | forward => exact opens_forward exactly picked
        | backward => exact opens_reverse exactly picked
      have step := piece.2.blob.content.nextIn_next direction prev
      rw [Option.bind_some]
      cases next : piece.2.blob.content.next direction prev with
      | none =>
          rw [next] at step
          obtain ⟨key, position, past, found⟩ := opens.some_ahead
          cases (step key past).symm.trans found
      | some binding =>
          obtain ⟨key, position⟩ := binding
          rw [next] at step
          obtain ⟨past, found, first⟩ := step
          refine ⟨past, exactly.lookup_iff.mpr ⟨piece, opens.member, found⟩,
            fun other ahead earlier => Option.eq_none_iff_forall_ne_some.mpr fun held bound => ?_⟩
          obtain ⟨shard, inside, otherFound⟩ := exactly.lookup_iff.mp bound
          have same := opens.others shard inside other held otherFound ahead key position found earlier
          rw [same] at otherFound
          cases (first other ahead earlier).symm.trans otherFound

end Shards

end Tidehunter.Index
