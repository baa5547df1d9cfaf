import Tidehunter.Index.Table

/-!
# On-disk levels of a cell

A cell's durable state is a small fresh blob `L0` over a cold level, which is one
blob `L1` or a set of shards. A blob is immutable, so a level carries its contents
next to the position of its frame in the index log. The type rules out an `L1`
next to shards, and a `Shards` value is disjoint and within its bounds.
-/

namespace Tidehunter.Index

open Library Wal

variable {K : Type} [LinearOrder K]

/-- A serialized index table: its frame in the index log and its bindings. -/
structure Blob (K : Type) [LinearOrder K] where
  position : WalPosition
  content : SortedMap K WalPosition
  deriving DecidableEq

/-- The table a blob decodes to. -/
def Blob.load (blob : Blob K) : IndexTable K := IndexTable.deserialize blob.content

/-- One part of a split `L1`; its smallest key is the key it is stored under. -/
structure IndexShard (K : Type) [LinearOrder K] where
  blob : Blob K
  maxKey : K
  deriving DecidableEq

/-- Shards in key order, each with its readable keys between its bounds. -/
def ShardsOk (pieces : List (K × IndexShard K)) : Prop :=
  pieces.Pairwise (fun first second => first.1 < second.1) ∧
    (∀ piece ∈ pieces, ∀ binding ∈ piece.2.blob.content.entries, binding.2.isValid →
      piece.1 ≤ binding.1 ∧ binding.1 ≤ piece.2.maxKey) ∧
    pieces.Pairwise (fun first second => first.2.maxKey < second.1)

instance (pieces : List (K × IndexShard K)) : Decidable (ShardsOk pieces) :=
  inferInstanceAs (Decidable (_ ∧ _ ∧ _))

/-- A nonempty set of disjoint shards. -/
structure Shards (K : Type) [LinearOrder K] where
  pieces : List (K × IndexShard K)
  nonempty : pieces ≠ []
  ok : ShardsOk pieces

namespace Shards

/-- Shards from their parts; the checks are those made when shards are built. -/
def ofPieces (pieces : List (K × IndexShard K)) : Option (Shards K) :=
  if checked : pieces ≠ [] ∧ ShardsOk pieces then some ⟨pieces, checked.1, checked.2⟩ else none

/-- The shard whose bounds contain a key: the last one starting at or below it,
unless the key lies past its end. -/
def shardEntryFor (shards : Shards K) (key : K) : Option (K × IndexShard K) :=
  ((shards.pieces.filter fun piece => piece.1 ≤ key).getLast?).filter
    fun piece => key ≤ piece.2.maxKey

/-- Point lookup through the covering shard. -/
def lookup (shards : Shards K) (key : K) : Option WalPosition :=
  (shards.shardEntryFor key).bind fun piece => piece.2.blob.content.lookup key

end Shards

/-- What lies below `L0`. -/
inductive DeepLevel (K : Type) [LinearOrder K] where
  | none
  | l1 (blob : Blob K)
  | sharded (shards : Shards K)

namespace DeepLevel

/-- The level made of the given shards; no shards leave nothing below `L0`. -/
def ofPieces (pieces : List (K × IndexShard K)) : DeepLevel K :=
  match Shards.ofPieces pieces with
  | some shards => .sharded shards
  | Option.none => .none

def lookup : DeepLevel K → K → Option WalPosition
  | .none, _ => Option.none
  | .l1 blob, key => blob.content.lookup key
  | .sharded shards, key => shards.lookup key

def isNone : DeepLevel K → Bool
  | .none => true
  | .l1 _ => false
  | .sharded _ => false

def isSharded : DeepLevel K → Bool
  | .none => false
  | .l1 _ => false
  | .sharded _ => true

/-- The blobs of the level in key order. -/
def blobs : DeepLevel K → List (Blob K)
  | .none => []
  | .l1 blob => [blob]
  | .sharded shards => shards.pieces.map fun piece => piece.2.blob

end DeepLevel

/-- The blobs of one cell, freshest first. -/
structure IndexLevels (K : Type) [LinearOrder K] where
  l0 : Option (Blob K)
  deep : DeepLevel K

namespace IndexLevels

def new : IndexLevels K := ⟨none, .none⟩

instance : Inhabited (IndexLevels K) := ⟨new⟩

def isEmpty (levels : IndexLevels K) : Bool := levels.l0.isNone && levels.deep.isNone

def lookupL0 (levels : IndexLevels K) (key : K) : Option WalPosition :=
  levels.l0.bind fun blob => blob.content.lookup key

/-- First hit from `L0` down; the sentinel is a hit and shadows what is deeper. -/
def lookup (levels : IndexLevels K) (key : K) : Option WalPosition :=
  (levels.lookupL0 key).or (levels.deep.lookup key)

/-- Every blob the levels name. -/
def blobs (levels : IndexLevels K) : List (Blob K) := levels.l0.toList ++ levels.deep.blobs

/-- The table of the `L0` slot, empty when the slot is. -/
def loadL0 (levels : IndexLevels K) : IndexTable K :=
  match levels.l0 with
  | some blob => blob.load
  | none => IndexTable.empty

end IndexLevels

/-! ## Lookup equations -/

namespace Shards

theorem sorted (shards : Shards K) :
    shards.pieces.Pairwise (fun first second => first.1 < second.1) := shards.ok.1

/-- A shard is determined by where it starts. -/
theorem eq_of_start (shards : Shards K) {first second : K × IndexShard K}
    (inFirst : first ∈ shards.pieces) (inSecond : second ∈ shards.pieces)
    (sameStart : first.1 = second.1) : first = second := by
  obtain ⟨start, shard⟩ := first
  obtain ⟨_, other⟩ := second
  obtain rfl : start = _ := sameStart
  let map : SortedMap K (IndexShard K) := ⟨shards.pieces, shards.sorted⟩
  have found : map.lookup start = some shard := SortedMap.lookup_of_mem_entries inFirst
  have found' : map.lookup start = some other := SortedMap.lookup_of_mem_entries inSecond
  rw [found] at found'
  rw [Option.some.inj found']

theorem bounded (shards : Shards K) {piece : K × IndexShard K} (member : piece ∈ shards.pieces)
    {key : K} {position : WalPosition}
    (found : piece.2.blob.content.lookup key = some position) (readable : position.isValid) :
    piece.1 ≤ key ∧ key ≤ piece.2.maxKey :=
  shards.ok.2.1 piece member (key, position) (SortedMap.mem_entries_of_lookup found) readable

theorem disjoint (shards : Shards K) :
    shards.pieces.Pairwise (fun first second => first.2.maxKey < second.1) := shards.ok.2.2

/-- In ascending pieces, the last one starting at or below a key that some piece
covers is that piece. -/
theorem getLast?_filter_eq {pieces : List (K × IndexShard K)} {piece : K × IndexShard K} {key : K}
    (member : piece ∈ pieces) (below : piece.1 ≤ key) (above : key ≤ piece.2.maxKey)
    (disjoint : pieces.Pairwise (fun first second => first.2.maxKey < second.1)) :
    (pieces.filter fun other => other.1 ≤ key).getLast? = some piece := by
  induction pieces with
  | nil => simp at member
  | cons first rest ih =>
      obtain ⟨headBefore, tailDisjoint⟩ := List.pairwise_cons.mp disjoint
      rcases List.mem_cons.mp member with rfl | later
      · have nothing : rest.filter (fun other => other.1 ≤ key) = [] := by
          rw [List.filter_eq_nil_iff]
          intro other inside
          have beyond := headBefore other inside
          simpa using lt_of_le_of_lt above beyond
        simp [below, nothing]
      · have found := ih later tailDisjoint
        by_cases starts : first.1 ≤ key
        · rw [List.filter_cons_of_pos (by simpa using starts), List.getLast?_cons, found]
          rfl
        · rw [List.filter_cons_of_neg (by simpa using starts), found]

theorem shardEntryFor_eq_some_iff {shards : Shards K} {key : K} {piece : K × IndexShard K} :
    shards.shardEntryFor key = some piece ↔
      piece ∈ shards.pieces ∧ piece.1 ≤ key ∧ key ≤ piece.2.maxKey := by
  constructor
  · intro found
    unfold shardEntryFor at found
    obtain ⟨last, covered⟩ := Option.filter_eq_some_iff.mp found
    have inside := List.mem_of_getLast? last
    obtain ⟨member, below⟩ := List.mem_filter.mp inside
    exact ⟨member, by simpa using below, by simpa using covered⟩
  · rintro ⟨member, below, above⟩
    unfold shardEntryFor
    rw [getLast?_filter_eq member below above shards.disjoint]
    simp [above]

/-- The covering shard finds a readable key exactly when some shard holds it. -/
theorem lookup_eq_some_iff {shards : Shards K} {key : K} {position : WalPosition}
    (readable : position.isValid) :
    shards.lookup key = some position ↔
      ∃ piece ∈ shards.pieces, piece.2.blob.content.lookup key = some position := by
  unfold lookup
  rw [Option.bind_eq_some_iff]
  constructor
  · rintro ⟨piece, covering, found⟩
    exact ⟨piece, (shardEntryFor_eq_some_iff.mp covering).1, found⟩
  · rintro ⟨piece, member, found⟩
    obtain ⟨below, above⟩ := shards.bounded member found readable
    exact ⟨piece, shardEntryFor_eq_some_iff.mpr ⟨member, below, above⟩, found⟩

end Shards

/-! ## What a reader finds on disk -/

/-- The readable position of a lookup result; the sentinel reads as absent. -/
def readable (found : Option WalPosition) : Option WalPosition := found.bind WalPosition.valid

@[simp]
theorem readable_none : readable none = none := rfl

@[simp]
theorem readable_invalid : readable (some WalPosition.invalid) = none := rfl

theorem readable_eq_some_iff {found : Option WalPosition} {position : WalPosition} :
    readable found = some position ↔ found = some position ∧ position.isValid := by
  cases found with
  | none => simp
  | some held =>
      simp only [readable, Option.bind_some, WalPosition.valid_eq_some_iff, WalPosition.isValid,
        Option.some.injEq, ne_eq, decide_eq_true_eq]
      constructor
      · rintro ⟨rfl, real⟩
        exact ⟨rfl, real⟩
      · rintro ⟨rfl, real⟩
        exact ⟨rfl, real⟩

/-- Two lookups that find the same readable positions read the same. -/
theorem readable_ext {first second : Option WalPosition}
    (agree : ∀ position, position.isValid → (first = some position ↔ second = some position)) :
    readable first = readable second := by
  apply Option.ext
  intro position
  rw [readable_eq_some_iff, readable_eq_some_iff]
  constructor
  · rintro ⟨found, real⟩
    exact ⟨(agree position real).mp found, real⟩
  · rintro ⟨found, real⟩
    exact ⟨(agree position real).mpr found, real⟩

/-- What a reader of the level finds for a key. -/
def DeepLevel.view (deep : DeepLevel K) (key : K) : Option WalPosition := readable (deep.lookup key)

/-- What a reader of the levels finds for a key. -/
def IndexLevels.view (levels : IndexLevels K) (key : K) : Option WalPosition :=
  readable (levels.lookup key)

theorem IndexLevels.view_of_l0_none (deep : DeepLevel K) (key : K) :
    IndexLevels.view ⟨none, deep⟩ key = deep.view key := rfl

/-- A reader never looks beneath a hit. -/
theorem readable_or_congr {first second third : Option WalPosition}
    (beneath : first = none → readable second = readable third) :
    readable (first.or second) = readable (first.or third) := by
  cases first with
  | none => exact beneath rfl
  | some _ => rfl

end Tidehunter.Index
