import Tidehunter.Index.Cursor
import Tidehunter.LargeTable.DiskReads

/-!
# One step through a cell

An iterator step captures the table of a cell and the blobs it has to read, merges the next
entry of each and skips tombstones. The blobs are read in place, and what a format keeps of a
blob is there for the next step.
-/

namespace Tidehunter.LargeTable

open Library Wal Index Flusher

variable {K : Type} [LinearOrder K]

/-- What is kept from earlier steps, by the number of the blob in the walk. -/
abbrev IterCaches (format : IndexFormat K) := Nat → Option format.IterCache

/-- Nothing is kept. -/
def IterCaches.clear {format : IndexFormat K} : IterCaches format := fun _ => none

inductive NextEntryResult (K : Type) where
  | notFound
  | found (key : K) (position : WalPosition)
  | skipDeleted (key : K)
  deriving DecidableEq, Repr

/-- The next entry of several sources, the freshest first. -/
def mergeLevelsNextEntry (candidates : List (Option (K × WalPosition))) (direction : Direction) :
    NextEntryResult K :=
  match candidates.foldl (earlier direction) none with
  | none => .notFound
  | some (key, position) => if position.isValid then .found key position else .skipDeleted key

/-- What a step captures under the lock. -/
structure WalkPlan (K : Type) [LinearOrder K] where
  data : IndexTable K
  levels : List (Blob K)
  isSharded : Bool

namespace WalkPlan

variable {format : IndexFormat K}

/-- The next entry in memory, as of a frontier for a checkpoint. -/
def inMemoryNext (plan : WalkPlan K) (lastProcessed : Option Nat) (direction : Direction)
    (prev : Option K) : Option (K × WalPosition) :=
  match lastProcessed with
  | some frontier => plan.data.nextEntryDirectionalAt direction prev frontier
  | none => plan.data.nextEntryDirectional direction prev

/-- The next entries of the blobs, each with its own cache. -/
def onDiskNext (format : IndexFormat K) (direction : Direction) (prev : Option K) :
    Nat → List (Blob K) → IterCaches format → List (Option (K × WalPosition)) × IterCaches format
  | _, [], caches => ([], caches)
  | level, blob :: rest, caches =>
      let (next, cache) := format.nextEntryUnloaded blob prev direction (caches level)
      let (others, caches) := onDiskNext format direction prev (level + 1) rest
        (Function.update caches level cache)
      (next :: others, caches)

/-- Every key the plan may come across. -/
def keys (plan : WalkPlan K) : List K :=
  plan.data.data.keys ++ plan.data.flat.keys ++ (plan.levels.map fun blob => blob.content.keys).flatten

end WalkPlan

inductive WalkOutcome (K : Type) where
  | found (key : K) (position : WalPosition)
  | skipDeleted (key : K)
  | exhausted
  deriving DecidableEq, Repr

/-- Merge until an entry is no tombstone. With shards the caller goes on behind a tombstone,
since the next key may be in another shard. -/
def executeWalkFrom (format : IndexFormat K) (plan : WalkPlan K) (lastProcessed : Option Nat)
    (direction : Direction) :
    Nat → Option K → IterCaches format → WalkOutcome K × IterCaches format
  | 0, _, caches => (.exhausted, caches)
  | fuel + 1, prev, caches =>
      let (onDisk, caches) := WalkPlan.onDiskNext format direction prev 0 plan.levels caches
      match mergeLevelsNextEntry (plan.inMemoryNext lastProcessed direction prev :: onDisk)
          direction with
      | .notFound => (.exhausted, caches)
      | .found key position => (.found key position, caches)
      | .skipDeleted key =>
          if plan.isSharded then (.skipDeleted key, caches)
          else executeWalkFrom format plan lastProcessed direction fuel (some key) caches

/-- There are no more tombstones to skip than keys. -/
def executeWalk (format : IndexFormat K) (plan : WalkPlan K) (lastProcessed : Option Nat)
    (direction : Direction) (prev : Option K) (caches : IterCaches format) :
    WalkOutcome K × IterCaches format :=
  executeWalkFrom format plan lastProcessed direction (plan.keys.length + 1) prev caches

namespace Entry

/-- The blobs a read has to walk. -/
def diskLevelsToWalk (entry : Entry K) : List (Blob K) :=
  if entry.state.coversL0 then entry.levels.deep.blobs else entry.levels.blobs

/-- The blobs an iterator step has to walk: of shards only the one with the next key. -/
def diskLevelsToWalkForIter (entry : Entry K) (direction : Direction) (prev : Option K) :
    List (Blob K) :=
  match entry.levels.deep with
  | .none => entry.diskLevelsToWalk
  | .l1 _ => entry.diskLevelsToWalk
  | .sharded shards =>
      (if entry.state.coversL0 then [] else entry.levels.l0.toList) ++
        ((shards.shardForIter direction prev).map fun piece => piece.2.blob).toList

/-- The plan of a step; nothing when the cell has nothing to walk. -/
def prepareWalk (entry : Entry K) (direction : Direction) (prev : Option K) :
    Option (WalkPlan K) :=
  let levels := entry.diskLevelsToWalkForIter direction prev
  match entry.state with
  | .empty => none
  | .unloaded =>
      if levels.isEmpty then none
      else some ⟨entry.data, levels, entry.levels.deep.isSharded⟩
  | .loaded => some ⟨entry.data, levels, entry.levels.deep.isSharded⟩
  | .dirtyUnloaded => some ⟨entry.data, levels, entry.levels.deep.isSharded⟩
  | .dirtyLoaded => some ⟨entry.data, levels, entry.levels.deep.isSharded⟩

/-- One step in a cell. -/
def walk (format : IndexFormat K) (entry : Entry K) (lastProcessed : Option Nat)
    (direction : Direction) (prev : Option K) (caches : IterCaches format) :
    WalkOutcome K × IterCaches format :=
  match entry.prepareWalk direction prev with
  | none => (.exhausted, .clear)
  | some plan => executeWalk format plan lastProcessed direction prev caches

end Entry

/-! ## What a merge gives -/

/-- The first of some blobs that has the key. -/
def firstHit (blobs : List (Blob K)) (key : K) : Option WalPosition :=
  blobs.findSome? fun blob => blob.content.lookup key

theorem firstHit_cons (blob : Blob K) (rest : List (Blob K)) (key : K) :
    firstHit (blob :: rest) key = (blob.content.lookup key).or (firstHit rest key) := by
  rw [firstHit, List.findSome?_cons]
  cases blob.content.lookup key <;> rfl

/-- The next entry of a blob as a format reads it. -/
def readNext (readBack : WalPosition → WalPosition) (direction : Direction) (prev : Option K)
    (blob : Blob K) : Option (K × WalPosition) :=
  (blob.content.next direction prev).map fun found => (found.1, readBack found.2)

theorem nextIn_readNext (readBack : WalPosition → WalPosition) (direction : Direction)
    (prev : Option K) (blob : Blob K) :
    NextIn direction (direction.Past prev) (fun key => (blob.content.lookup key).map readBack)
      (readNext readBack direction prev blob) :=
  (blob.content.nextIn_next direction prev).map readBack

/-- The earliest of the next entries of a source and of the blobs beneath it is the next
entry of all of them. -/
theorem nextIn_foldl {direction : Direction} {prev : Option K} {upper : K → Option WalPosition}
    {found : Option (K × WalPosition)} (readBack : WalPosition → WalPosition)
    (next : NextIn direction (direction.Past prev) upper found) (blobs : List (Blob K)) :
    NextIn direction (direction.Past prev)
      (fun key => (upper key).or ((firstHit blobs key).map readBack))
      ((blobs.map (readNext readBack direction prev)).foldl (earlier direction) found) := by
  induction blobs generalizing upper found with
  | nil => exact next.congr fun key _ => Option.or_none.symm
  | cons blob rest ih =>
      have step := next.or (nextIn_readNext readBack direction prev blob)
      refine (ih step).congr fun key _ => ?_
      rw [Option.or_assoc, firstHit_cons, Option.map_or]

/-- Positions name blobs. -/
def UniqueBlobs (blobs : List (Blob K)) : Prop :=
  ∀ first ∈ blobs, ∀ second ∈ blobs, first.position = second.position →
    first.content = second.content

/-- What is kept from earlier steps was read from one of these blobs, if it names one. -/
def CachesFit {format : IndexFormat K} (blobs : List (Blob K)) (caches : IterCaches format) : Prop :=
  ∀ level held, caches level = some held → ∀ blob ∈ blobs,
    format.position held = blob.position → format.Fits held blob.content

theorem cachesFit_clear {format : IndexFormat K} (blobs : List (Blob K)) :
    CachesFit blobs (IterCaches.clear : IterCaches format) := fun _ _ => nofun

/-- Whatever was kept, the steps give the next entry of each blob. -/
theorem onDiskNext_spec {format : IndexFormat K} {keys : K → Prop} (orders : format.Orders keys)
    {all : List (Blob K)} (unique : UniqueBlobs all) (direction : Direction) {prev : Option K}
    (behind : ∀ key, prev = some key → keys key) {levels : List (Blob K)}
    (inside : ∀ blob ∈ levels, blob ∈ all ∧ ∀ key ∈ blob.content.keys, keys key) (level : Nat)
    {caches : IterCaches format} (fit : CachesFit all caches) :
    (WalkPlan.onDiskNext format direction prev level levels caches).1 =
        levels.map (readNext format.readBack direction prev) ∧
      CachesFit all (WalkPlan.onDiskNext format direction prev level levels caches).2 := by
  induction levels generalizing level caches with
  | nil => exact ⟨rfl, fit⟩
  | cons blob rest ih =>
      obtain ⟨member, ofCell⟩ := inside blob List.mem_cons_self
      have usable : ∀ held, caches level = some held →
          format.position held = blob.position → format.Fits held blob.content :=
        fun held kept => fit level held kept blob member
      have updated : CachesFit all (Function.update caches level
          (format.nextEntryUnloaded blob prev direction (caches level)).2) := by
        intro other held kept target inTarget named
        rcases eq_or_ne other level with rfl | different
        · rw [Function.update_self] at kept
          obtain ⟨here, fits⟩ := format.keeps keys orders blob prev direction (caches other) ofCell
            behind usable held kept
          rw [unique target inTarget blob member (named.symm.trans here)]
          exact fits
        · rw [Function.update_of_ne different] at kept
          exact fit other held kept target inTarget named
      obtain ⟨others, after⟩ := ih (fun other member => inside other (List.mem_cons_of_mem _ member))
        (level + 1) updated
      refine ⟨?_, after⟩
      simp only [WalkPlan.onDiskNext, List.map_cons, others,
        format.next_eq keys orders blob prev direction (caches level) ofCell behind usable]
      rfl

/-! ## What a walk gives -/

/-- What a plan shows of the memory. -/
def WalkPlan.inMemory (plan : WalkPlan K) (lastProcessed : Option Nat) (key : K) :
    Option WalPosition :=
  match lastProcessed with
  | some frontier => plan.data.getAt key frontier
  | none => plan.data.get key

theorem WalkPlan.nextIn_inMemoryNext (plan : WalkPlan K) (lastProcessed : Option Nat)
    (direction : Direction) (prev : Option K) :
    NextIn direction (direction.Past prev) (plan.inMemory lastProcessed)
      (plan.inMemoryNext lastProcessed direction prev) := by
  cases lastProcessed with
  | none => exact plan.data.nextIn_nextEntryDirectional direction prev
  | some frontier => exact plan.data.nextIn_nextEntryDirectionalAt direction prev frontier

/-- What a step in a cell has to give for what readers of the cell see: the next key, nothing,
or a key up to which there is nothing. -/
def WalkRight (direction : Direction) (prev : Option K) (view : K → Option WalPosition) :
    WalkOutcome K → Prop
  | .found key position => NextIn direction (direction.Past prev) view (some (key, position))
  | .skipDeleted key => direction.Past prev key ∧
      ∀ other, direction.Past prev other → ¬direction.Before key other → view other = none
  | .exhausted => NextIn direction (direction.Past prev) view none

/-- The result of one merge, for readers that do not see tombstones. -/
theorem merge_right {direction : Direction} {prev : Option K} {map : K → Option WalPosition}
    {candidates : List (Option (K × WalPosition))}
    (next : NextIn direction (direction.Past prev) map
      (candidates.foldl (earlier direction) none)) :
    match mergeLevelsNextEntry candidates direction with
    | .notFound => NextIn direction (direction.Past prev) (fun key => readable (map key)) none
    | .found key position =>
        NextIn direction (direction.Past prev) (fun key => readable (map key)) (some (key, position))
    | .skipDeleted key => direction.Past prev key ∧ map key ≠ none ∧
        ∀ other, direction.Past prev other → ¬direction.Before key other →
          readable (map other) = none := by
  unfold mergeLevelsNextEntry
  cases winner : candidates.foldl (earlier direction) none with
  | none =>
      rw [winner] at next
      intro key past
      simp only [next key past, readable_none]
  | some binding =>
      obtain ⟨key, position⟩ := binding
      rw [winner] at next
      obtain ⟨past, bound, first⟩ := next
      by_cases valid : position.isValid = true
      · simp only [if_pos valid]
        refine ⟨past, readable_eq_some_iff.mpr ⟨bound, valid⟩, fun other ahead before => ?_⟩
        simp only [first other ahead before, readable_none]
      · simp only [if_neg valid]
        refine ⟨past, by rw [bound]; nofun, fun other ahead notBehind => ?_⟩
        rcases direction.before_or_eq_or_before other key with before | rfl | behind
        · simp only [first other ahead before, readable_none]
        · have invalid : position = WalPosition.invalid := by
            simpa [WalPosition.isValid] using valid
          rw [bound, invalid, readable_invalid]
        · exact absurd behind notBehind

namespace WalkPlan

/-- What a plan shows, tombstones included. -/
def lookup (plan : WalkPlan K) (readBack : WalPosition → WalPosition) (lastProcessed : Option Nat)
    (key : K) : Option WalPosition :=
  (plan.inMemory lastProcessed key).or ((firstHit plan.levels key).map readBack)

theorem mem_keys_of_inMemory {plan : WalkPlan K} {lastProcessed : Option Nat} {key : K}
    (shown : plan.inMemory lastProcessed key ≠ none) :
    key ∈ plan.data.data.keys ++ plan.data.flat.keys := by
  rw [List.mem_append, SortedMap.mem_keys_iff, SortedMap.mem_keys_iff]
  by_contra absent
  obtain ⟨noData, noFlat⟩ := not_or.mp absent
  have data : plan.data.data.lookup key = none :=
    Option.eq_none_iff_forall_ne_some.mpr fun value found => noData ⟨value, found⟩
  have flat : plan.data.flat.lookup key = none :=
    Option.eq_none_iff_forall_ne_some.mpr fun value found => noFlat ⟨value, found⟩
  refine shown ?_
  cases lastProcessed with
  | none =>
      simp only [inMemory, IndexTable.get, IndexTable.entry, IndexTable.dataGetLatest, data, flat,
        Option.map_none, Option.or_none]
  | some frontier =>
      simp only [inMemory, IndexTable.getAt, IndexTable.entryAt, IndexTable.dataGetLatestProcessed,
        data, flat, Option.bind_none, Option.or_none, Option.map_none]

theorem mem_keys_of_lookup {plan : WalkPlan K} {readBack : WalPosition → WalPosition}
    {lastProcessed : Option Nat} {key : K} (shown : plan.lookup readBack lastProcessed key ≠ none) :
    key ∈ plan.keys := by
  rw [keys, List.mem_append]
  by_cases memory : plan.inMemory lastProcessed key = none
  · rw [lookup, memory, Option.none_or, Ne, Option.map_eq_none_iff] at shown
    obtain ⟨position, hit⟩ := Option.ne_none_iff_exists'.mp shown
    obtain ⟨blob, member, found⟩ := List.exists_of_findSome?_eq_some hit
    exact Or.inr (List.mem_flatten.mpr ⟨_, List.mem_map.mpr ⟨blob, member, rfl⟩,
      SortedMap.mem_keys_iff.mpr ⟨position, found⟩⟩)
  · exact Or.inl (mem_keys_of_inMemory memory)

end WalkPlan

section

variable {format : IndexFormat K} {keys : K → Prop} {plan : WalkPlan K}
  {lastProcessed : Option Nat} {direction : Direction} {all : List (Blob K)} {prev : Option K}
  {caches : IterCaches format}

/-- The sources of a merge. -/
def WalkPlan.candidates (readBack : WalPosition → WalPosition) (plan : WalkPlan K)
    (lastProcessed : Option Nat) (direction : Direction) (prev : Option K) :
    List (Option (K × WalPosition)) :=
  plan.inMemoryNext lastProcessed direction prev ::
    plan.levels.map (readNext readBack direction prev)

/-- One merge of a plan. -/
theorem nextIn_candidates (readBack : WalPosition → WalPosition) (plan : WalkPlan K)
    (lastProcessed : Option Nat) (direction : Direction) (prev : Option K) :
    NextIn direction (direction.Past prev) (plan.lookup readBack lastProcessed)
      ((plan.candidates readBack lastProcessed direction prev).foldl (earlier direction) none) :=
  nextIn_foldl readBack (plan.nextIn_inMemoryNext lastProcessed direction prev) plan.levels

/-- A walk without shards skips every tombstone by itself. -/
theorem executeWalkFrom_right (orders : format.Orders keys) (unsharded : plan.isSharded = false)
    (unique : UniqueBlobs all) (inside : ∀ blob ∈ plan.levels, blob ∈ all)
    (ofCell : ∀ key ∈ plan.keys, keys key) {fuel : Nat} {prev : Option K}
    (behind : ∀ key, prev = some key → keys key)
    (enough : plan.keys.countP (fun key => direction.Past prev key) < fuel)
    {caches : IterCaches format} (fit : CachesFit all caches) :
    WalkRight direction prev (fun key => readable (plan.lookup format.readBack lastProcessed key))
        (executeWalkFrom format plan lastProcessed direction fuel prev caches).1 ∧
      CachesFit all (executeWalkFrom format plan lastProcessed direction fuel prev caches).2 ∧
      ∀ key, (executeWalkFrom format plan lastProcessed direction fuel prev caches).1 ≠
        .skipDeleted key := by
  have known : ∀ blob ∈ plan.levels, blob ∈ all ∧ ∀ key ∈ blob.content.keys, keys key :=
    fun blob member => ⟨inside blob member, fun key isKey => ofCell key
      (List.mem_append_right _ (List.mem_flatten.mpr ⟨_, List.mem_map.mpr ⟨blob, member, rfl⟩, isKey⟩))⟩
  induction fuel generalizing prev caches with
  | zero => cases enough
  | succ fuel ih =>
      obtain ⟨onDisk, kept⟩ := onDiskNext_spec orders unique direction behind known 0 fit
      have merged := merge_right (nextIn_candidates format.readBack plan lastProcessed direction prev)
      rw [executeWalkFrom]
      simp only [onDisk]
      unfold WalkPlan.candidates at merged
      split
      · rename_i result
        rw [result] at merged
        exact ⟨merged, kept, nofun⟩
      · rename_i key position result
        rw [result] at merged
        exact ⟨merged, kept, nofun⟩
      · rename_i key result
        rw [result] at merged
        obtain ⟨past, shown, nothing⟩ := merged
        rw [if_neg (by rw [unsharded]; nofun)]
        have member := WalkPlan.mem_keys_of_lookup shown
        have fewer := countP_past_lt member past
        obtain ⟨right, fits, noSkip⟩ := @ih (some key)
          (fun other same => Option.some.inj same ▸ ofCell key member) (by omega) _ kept
        refine ⟨?_, fits, noSkip⟩
        -- nothing is readable up to the tombstone, so the step behind it is the step
        have shift : ∀ other, direction.Past prev other →
            readable (plan.lookup format.readBack lastProcessed other) ≠ none →
              direction.Past (some key) other := by
          intro other ahead seen
          by_contra notBehind
          exact seen (nothing other ahead notBehind)
        generalize (executeWalkFrom format plan lastProcessed direction fuel (some key) _).1 =
          outcome at right noSkip
        cases outcome with
        | found found position =>
            obtain ⟨after, bound, first⟩ := right
            refine ⟨past.of_before after, bound, fun other ahead before => ?_⟩
            by_contra seen
            exact seen (first other (shift other ahead seen) before)
        | skipDeleted skipped => exact absurd rfl (noSkip skipped)
        | exhausted =>
            intro other ahead
            by_contra seen
            exact seen (right other (shift other ahead seen))

/-- A walk with shards stops at a tombstone, and what lies behind it is for the next step. -/
theorem executeWalk_right_sharded (orders : format.Orders keys) {map : K → Option WalPosition}
    (sharded : plan.isSharded = true) (unique : UniqueBlobs all)
    (inside : ∀ blob ∈ plan.levels, blob ∈ all) (ofCell : ∀ key ∈ plan.keys, keys key)
    (behind : ∀ key, prev = some key → keys key) (fit : CachesFit all caches)
    (next : NextIn direction (direction.Past prev) map
      ((plan.candidates format.readBack lastProcessed direction prev).foldl
        (earlier direction) none)) :
    WalkRight direction prev (fun key => readable (map key))
        (executeWalk format plan lastProcessed direction prev caches).1 ∧
      CachesFit all (executeWalk format plan lastProcessed direction prev caches).2 ∧
      ∀ key, (executeWalk format plan lastProcessed direction prev caches).1 = .skipDeleted key →
        map key ≠ none := by
  have known : ∀ blob ∈ plan.levels, blob ∈ all ∧ ∀ key ∈ blob.content.keys, keys key :=
    fun blob member => ⟨inside blob member, fun key isKey => ofCell key
      (List.mem_append_right _ (List.mem_flatten.mpr ⟨_, List.mem_map.mpr ⟨blob, member, rfl⟩, isKey⟩))⟩
  obtain ⟨onDisk, kept⟩ := onDiskNext_spec orders unique direction behind known 0 fit
  have merged := merge_right next
  rw [executeWalk, executeWalkFrom]
  simp only [onDisk]
  unfold WalkPlan.candidates at merged
  split
  · rename_i result
    rw [result] at merged
    exact ⟨merged, kept, nofun⟩
  · rename_i key position result
    rw [result] at merged
    exact ⟨merged, kept, nofun⟩
  · rename_i key result
    rw [result] at merged
    obtain ⟨past, shown, nothing⟩ := merged
    rw [if_pos sharded]
    refine ⟨⟨past, nothing⟩, kept, fun other same => ?_⟩
    cases same
    exact shown

end

namespace Entry

/-- Every key the cell has an entry for. -/
def keys (entry : Entry K) : List K :=
  entry.data.data.keys ++ entry.data.flat.keys ++
    (entry.levels.blobs.map fun blob => blob.content.keys).flatten

/-- What an iterator relies on in the levels of a cell: shards have exact bounds and positions
name blobs. -/
structure WalkOk (entry : Entry K) : Prop where
  ok : entry.Ok
  shards : ∀ shards, entry.levels.deep = .sharded shards → shards.Exact
  unique : UniqueBlobs entry.levels.blobs

variable {entry : Entry K} {format : IndexFormat K} {direction : Direction} {prev : Option K}

theorem inMemory_eq {plan : WalkPlan K} (data : plan.data = entry.data)
    (lastProcessed : Option Nat) (key : K) :
    plan.inMemory lastProcessed key = entry.inMemory lastProcessed key := by
  cases lastProcessed <;> simp only [WalkPlan.inMemory, inMemory, data]

theorem firstHit_deep (deep : DeepLevel K) (unsharded : deep.isSharded = false) (key : K) :
    firstHit deep.blobs key = deep.lookup key := by
  cases deep with
  | none => rfl
  | l1 blob =>
      change firstHit [blob] key = blob.content.lookup key
      rw [firstHit_cons]
      exact Option.or_none
  | sharded shards => cases unsharded

theorem firstHit_diskLevelsToWalk (unsharded : entry.levels.deep.isSharded = false) (key : K) :
    firstHit entry.diskLevelsToWalk key = entry.beneath key := by
  unfold diskLevelsToWalk beneath
  split
  · exact firstHit_deep _ unsharded key
  · rw [IndexLevels.blobs, IndexLevels.lookup, IndexLevels.lookupL0]
    cases entry.levels.l0 with
    | none => exact firstHit_deep _ unsharded key
    | some blob =>
        change firstHit (blob :: entry.levels.deep.blobs) key = _
        rw [firstHit_cons, firstHit_deep _ unsharded key]
        rfl

theorem mem_blobs_of_mem_diskLevelsToWalkForIter {blob : Blob K}
    (member : blob ∈ entry.diskLevelsToWalkForIter direction prev) : blob ∈ entry.levels.blobs := by
  have plain : ∀ {blob : Blob K}, blob ∈ entry.diskLevelsToWalk → blob ∈ entry.levels.blobs := by
    intro blob member
    unfold diskLevelsToWalk at member
    split at member
    · exact List.mem_append_right _ member
    · exact member
  unfold diskLevelsToWalkForIter at member
  split at member
  · exact plain member
  · exact plain member
  · rename_i shards sharded
    rw [IndexLevels.blobs, sharded]
    rcases List.mem_append.mp member with top | shard
    · split at top
      · cases top
      · exact List.mem_append_left _ top
    · rw [Option.mem_toList, Option.map_eq_some_iff] at shard
      obtain ⟨piece, picked, rfl⟩ := shard
      exact List.mem_append_right _ (List.mem_map.mpr ⟨piece, Shards.mem_of_shardForIter picked, rfl⟩)

theorem diskLevelsToWalkForIter_unsharded (unsharded : entry.levels.deep.isSharded = false)
    (direction : Direction) (prev : Option K) :
    entry.diskLevelsToWalkForIter direction prev = entry.diskLevelsToWalk := by
  unfold diskLevelsToWalkForIter
  split
  · rfl
  · rfl
  · rename_i shards sharded
    rw [sharded] at unsharded
    cases unsharded

theorem exists_of_isSharded {deep : DeepLevel K} (sharded : deep.isSharded = true) :
    ∃ shards, deep = .sharded shards := by
  cases deep with
  | none => cases sharded
  | l1 blob => cases sharded
  | sharded shards => exact ⟨shards, rfl⟩

/-- The blob in front of the shards that a step walks. -/
def topToWalk (entry : Entry K) : List (Blob K) :=
  if entry.state.coversL0 then [] else entry.levels.l0.toList

theorem beneath_sharded {shards : Shards K} (sharded : entry.levels.deep = .sharded shards) (key : K) :
    entry.beneath key = (firstHit entry.topToWalk key).or (shards.lookup key) := by
  unfold beneath topToWalk
  by_cases covers : entry.state.coversL0 = true
  · simp only [if_pos covers, sharded]
    rfl
  · simp only [if_neg covers, IndexLevels.lookup, IndexLevels.lookupL0, sharded]
    cases entry.levels.l0 with
    | none => rfl
    | some blob =>
        change _ = (firstHit [blob] key).or _
        rw [firstHit_cons, firstHit, List.findSome?_nil, Option.or_none]
        rfl

/-- The first entry of a plan is the first entry of the cell. -/
theorem nextIn_plan (walkOk : entry.WalkOk) (readBack : WalPosition → WalPosition)
    (lastProcessed : Option Nat) {plan : WalkPlan K}
    (levels : plan.levels = entry.diskLevelsToWalkForIter direction prev) :
    NextIn direction (direction.Past prev)
      (fun key => (plan.inMemory lastProcessed key).or ((entry.beneath key).map readBack))
      ((plan.candidates readBack lastProcessed direction prev).foldl (earlier direction) none) := by
  have memory := plan.nextIn_inMemoryNext lastProcessed direction prev
  cases unsharded : entry.levels.deep.isSharded with
  | false =>
      refine (nextIn_candidates readBack plan lastProcessed direction prev).congr fun key _ => ?_
      rw [WalkPlan.lookup, levels, diskLevelsToWalkForIter_unsharded unsharded,
        firstHit_diskLevelsToWalk unsharded]
  | true =>
      obtain ⟨shards, sharded⟩ := exists_of_isSharded unsharded
      have walked : plan.levels = entry.topToWalk ++
          ((shards.shardForIter direction prev).map fun piece => piece.2.blob).toList := by
        rw [levels, diskLevelsToWalkForIter, sharded]
        rfl
      -- of the shards only the picked one can have the next entry
      have step := (nextIn_foldl readBack memory entry.topToWalk).or
        ((Shards.nextIn_shardForIter (walkOk.shards shards sharded) direction prev).map readBack)
      rw [WalkPlan.candidates, walked, List.map_append, List.foldl_cons, List.foldl_append]
      have last : ∀ found : Option (K × WalPosition),
          ((((shards.shardForIter direction prev).map fun piece => piece.2.blob).toList).map
            (readNext readBack direction prev)).foldl (earlier direction) found =
          earlier direction found (((shards.shardForIter direction prev).bind fun piece =>
            piece.2.blob.content.next direction prev).map fun binding =>
              (binding.1, readBack binding.2)) := by
        intro found
        cases shards.shardForIter direction prev with
        | none => cases found <;> rfl
        | some piece => rfl
      rw [last]
      refine step.congr fun key _ => ?_
      rw [beneath_sharded sharded key, Option.map_or, Option.or_assoc]

theorem prepareWalk_eq_some {plan : WalkPlan K}
    (planned : entry.prepareWalk direction prev = some plan) :
    plan = ⟨entry.data, entry.diskLevelsToWalkForIter direction prev,
      entry.levels.deep.isSharded⟩ := by
  unfold prepareWalk at planned
  simp only at planned
  split at planned
  · cases planned
  · split at planned
    · cases planned
    · exact (Option.some.inj planned).symm
  · exact (Option.some.inj planned).symm
  · exact (Option.some.inj planned).symm
  · exact (Option.some.inj planned).symm

theorem prepareWalk_eq_none (ok : entry.Ok) (noPlan : entry.prepareWalk direction prev = none) :
    entry.data = IndexTable.empty ∧ entry.diskLevelsToWalkForIter direction prev = [] := by
  unfold prepareWalk at noPlan
  simp only at noPlan
  split at noPlan
  · rename_i empty
    refine ⟨ok.emptyData empty, ?_⟩
    rw [diskLevelsToWalkForIter, diskLevelsToWalk, ok.emptyLevels empty, empty]
    rfl
  · rename_i unloaded
    split at noPlan
    · rename_i nothing
      exact ⟨ok.unloadedData unloaded, List.isEmpty_iff.mp nothing⟩
    · cases noPlan
  · cases noPlan
  · cases noPlan
  · cases noPlan

/-- A cell without a plan has nothing ahead. -/
theorem nextIn_view_of_no_plan (walkOk : entry.WalkOk) (readBack : WalPosition → WalPosition)
    (lastProcessed : Option Nat) (noPlan : entry.prepareWalk direction prev = none) :
    NextIn direction (direction.Past prev) (entry.view readBack lastProcessed) none := by
  obtain ⟨noData, noLevels⟩ := prepareWalk_eq_none walkOk.ok noPlan
  let plan : WalkPlan K := ⟨IndexTable.empty, [], false⟩
  have step := @nextIn_plan _ _ entry direction prev walkOk readBack lastProcessed plan noLevels.symm
  have nothing : plan.inMemoryNext lastProcessed direction prev = none := by
    cases lastProcessed <;> cases direction <;> rfl
  rw [WalkPlan.candidates, nothing] at step
  intro key ahead
  have absent : (plan.inMemory lastProcessed key).or ((entry.beneath key).map readBack) = none :=
    step key ahead
  rw [view_eq walkOk.ok, ← @inMemory_eq _ _ entry plan noData.symm, absent, readable_none]

theorem exists_blob_of_deep {deep : DeepLevel K} {key : K} {position : WalPosition}
    (found : deep.lookup key = some position) :
    ∃ blob ∈ deep.blobs, blob.content.lookup key = some position := by
  cases deep with
  | none => cases found
  | l1 blob => exact ⟨blob, List.mem_cons_self, found⟩
  | sharded shards =>
      obtain ⟨piece, covering, held⟩ := Option.bind_eq_some_iff.mp found
      exact ⟨piece.2.blob, List.mem_map.mpr
        ⟨piece, (Shards.shardEntryFor_eq_some_iff.mp covering).1, rfl⟩, held⟩

/-- What lies beneath the table is in a blob. -/
theorem exists_blob_of_beneath {key : K} {position : WalPosition}
    (found : entry.beneath key = some position) :
    ∃ blob ∈ entry.levels.blobs, blob.content.lookup key = some position := by
  have deep : ∀ {position : WalPosition}, entry.levels.deep.lookup key = some position →
      ∃ blob ∈ entry.levels.blobs, blob.content.lookup key = some position := by
    intro position held
    obtain ⟨blob, member, hit⟩ := exists_blob_of_deep held
    exact ⟨blob, List.mem_append_right _ member, hit⟩
  unfold beneath at found
  split at found
  · exact deep found
  · rw [IndexLevels.lookup, Option.or_eq_some_iff] at found
    rcases found with top | ⟨-, below⟩
    · obtain ⟨blob, held, hit⟩ := Option.bind_eq_some_iff.mp top
      exact ⟨blob, List.mem_append_left _ (Option.mem_toList.mpr held), hit⟩
    · exact deep below

theorem keys_subset {plan : WalkPlan K} (data : plan.data = entry.data)
    (inside : ∀ blob ∈ plan.levels, blob ∈ entry.levels.blobs) {key : K}
    (member : key ∈ plan.keys) : key ∈ entry.keys := by
  rw [WalkPlan.keys, List.mem_append, data] at member
  rw [keys, List.mem_append]
  refine member.imp_right fun onDisk => ?_
  obtain ⟨_, isKeys, isKey⟩ := List.mem_flatten.mp onDisk
  obtain ⟨blob, inPlan, rfl⟩ := List.mem_map.mp isKeys
  exact List.mem_flatten.mpr ⟨_, List.mem_map.mpr ⟨blob, inside blob inPlan, rfl⟩, isKey⟩

theorem mem_keys_of_shown {plan : WalkPlan K} (data : plan.data = entry.data)
    {readBack : WalPosition → WalPosition} {lastProcessed : Option Nat} {key : K}
    (shown : (plan.inMemory lastProcessed key).or ((entry.beneath key).map readBack) ≠ none) :
    key ∈ entry.keys := by
  rw [keys, List.mem_append]
  by_cases memory : plan.inMemory lastProcessed key = none
  · rw [memory, Option.none_or, Ne, Option.map_eq_none_iff] at shown
    obtain ⟨position, found⟩ := Option.ne_none_iff_exists'.mp shown
    obtain ⟨blob, member, held⟩ := exists_blob_of_beneath found
    exact Or.inr (List.mem_flatten.mpr ⟨_, List.mem_map.mpr ⟨blob, member, rfl⟩,
      SortedMap.mem_keys_iff.mpr ⟨position, held⟩⟩)
  · rw [← data]
    exact Or.inl (WalkPlan.mem_keys_of_inMemory memory)

/-- One step in a cell gives the next key readers of the cell see. -/
theorem walk_right (walkOk : entry.WalkOk) {cellKeys : K → Prop} (orders : format.Orders cellKeys)
    (ofCell : ∀ key ∈ entry.keys, cellKeys key) (behind : ∀ key, prev = some key → cellKeys key)
    (lastProcessed : Option Nat) {caches : IterCaches format}
    (fit : CachesFit entry.levels.blobs caches) :
    WalkRight direction prev (entry.view format.readBack lastProcessed)
        (entry.walk format lastProcessed direction prev caches).1 ∧
      CachesFit entry.levels.blobs (entry.walk format lastProcessed direction prev caches).2 ∧
      ∀ key, (entry.walk format lastProcessed direction prev caches).1 = .skipDeleted key →
        key ∈ entry.keys := by
  unfold walk
  split
  · rename_i noPlan
    exact ⟨nextIn_view_of_no_plan walkOk format.readBack lastProcessed noPlan, cachesFit_clear _,
      nofun⟩
  · rename_i plan planned
    have shape := prepareWalk_eq_some planned
    have data : plan.data = entry.data := by rw [shape]
    have levels : plan.levels = entry.diskLevelsToWalkForIter direction prev := by rw [shape]
    have inside : ∀ blob ∈ plan.levels, blob ∈ entry.levels.blobs := fun blob member =>
      mem_blobs_of_mem_diskLevelsToWalkForIter (levels ▸ member)
    have planKeys : ∀ key ∈ plan.keys, cellKeys key := fun key member =>
      ofCell key (keys_subset data inside member)
    have seen : entry.view format.readBack lastProcessed = fun key => readable
        ((plan.inMemory lastProcessed key).or ((entry.beneath key).map format.readBack)) := by
      funext key
      rw [view_eq walkOk.ok, inMemory_eq data]
    cases sharded : plan.isSharded with
    | true =>
        obtain ⟨right, kept, skipped⟩ := executeWalk_right_sharded orders sharded walkOk.unique inside
          planKeys behind fit (nextIn_plan walkOk format.readBack lastProcessed levels)
        rw [seen]
        exact ⟨right, kept, fun key skip => mem_keys_of_shown data (skipped key skip)⟩
    | false =>
        have unsharded : entry.levels.deep.isSharded = false := by rw [← sharded, shape]
        have same : (fun key => readable (plan.lookup format.readBack lastProcessed key)) =
            entry.view format.readBack lastProcessed := by
          rw [seen]
          funext key
          rw [WalkPlan.lookup, levels, diskLevelsToWalkForIter_unsharded unsharded,
            firstHit_diskLevelsToWalk unsharded]
        have enough : plan.keys.countP (fun key => direction.Past prev key) <
            plan.keys.length + 1 := Nat.lt_succ_of_le List.countP_le_length
        have walked := @executeWalkFrom_right _ _ format cellKeys plan lastProcessed direction
          entry.levels.blobs orders sharded walkOk.unique inside planKeys _ prev behind enough caches fit
        obtain ⟨right, kept, noSkip⟩ := walked
        rw [same] at right
        exact ⟨right, kept, fun key skip => absurd skip (noSkip key)⟩

/-- Readers see keys of the cell. -/
theorem mem_keys_of_view (ok : entry.Ok) {readBack : WalPosition → WalPosition}
    {lastProcessed : Option Nat} {key : K}
    (shown : entry.view readBack lastProcessed key ≠ none) : key ∈ entry.keys := by
  refine @mem_keys_of_shown _ _ entry ⟨entry.data, [], false⟩ rfl readBack lastProcessed key ?_
  rw [inMemory_eq rfl]
  intro nothing
  rw [view_eq ok, nothing, readable_none] at shown
  exact shown rfl

/-! ## Loading -/

theorem mem_keys_of_mem_loadL0 {key : K} (member : key ∈ entry.levels.loadL0.flat.keys) :
    key ∈ entry.keys := by
  obtain ⟨position, found⟩ := SortedMap.mem_keys_iff.mp member
  unfold IndexLevels.loadL0 at found
  split at found
  · rename_i blob top
    rw [Blob.load, IndexTable.deserialize, SortedMap.lookup_filterMap,
      Option.bind_eq_some_iff] at found
    obtain ⟨stored, held, -⟩ := found
    refine List.mem_append_right _ (List.mem_flatten.mpr ⟨_, List.mem_map.mpr ⟨blob, ?_, rfl⟩,
      SortedMap.mem_keys_iff.mpr ⟨stored, held⟩⟩)
    exact List.mem_append_left _ (Option.mem_toList.mpr top)
  · cases found

/-- A load brings no key into the cell. -/
theorem mem_keys_of_mem_maybeLoad {key : K} (member : key ∈ entry.maybeLoad.keys) :
    key ∈ entry.keys := by
  unfold maybeLoad at member
  split at member
  · rcases List.mem_append.mp member with memory | disk
    · rcases List.mem_append.mp memory with data | flat
      · rw [setData, data_loadL0] at data
        exact absurd data List.not_mem_nil
      · exact mem_keys_of_mem_loadL0 flat
    · exact List.mem_append_right _ disk
  · rcases List.mem_append.mp member with memory | disk
    · refine (List.mem_append.mp memory).elim (fun data => ?_) fun flat => ?_
      · obtain ⟨positions, found⟩ := SortedMap.mem_keys_iff.mp data
        rw [setData, IndexTable.mergeDirtyNoClean,
          IndexTable.lookup_data_mergeDirty (data_loadL0 entry.levels)] at found
        obtain ⟨held, dirty, -⟩ := Option.bind_eq_some_iff.mp found
        exact List.mem_append_left _
          (List.mem_append_left _ (SortedMap.mem_keys_iff.mpr ⟨held, dirty⟩))
      · obtain ⟨position, found⟩ := SortedMap.mem_keys_iff.mp flat
        rw [setData, IndexTable.mergeDirtyNoClean, IndexTable.lookup_flat_mergeDirty,
          Option.or_eq_some_iff] at found
        rcases found with dirty | ⟨-, loaded⟩
        · obtain ⟨held, kept, -⟩ := Option.map_eq_some_iff.mp dirty
          exact List.mem_append_left _
            (List.mem_append_right _ (SortedMap.mem_keys_iff.mpr ⟨held, kept⟩))
        · exact mem_keys_of_mem_loadL0 (SortedMap.mem_keys_iff.mpr ⟨position, loaded⟩)
    · exact List.mem_append_right _ disk
  · exact member

theorem levels_maybeLoad (entry : Entry K) : entry.maybeLoad.levels = entry.levels := by
  unfold maybeLoad
  split <;> rfl

theorem walkOk_maybeLoad (walkOk : entry.WalkOk) : entry.maybeLoad.WalkOk where
  ok := ok_maybeLoad walkOk.ok
  shards := by
    rw [levels_maybeLoad]
    exact walkOk.shards
  unique := by
    rw [levels_maybeLoad]
    exact walkOk.unique

end Entry

end Tidehunter.LargeTable
